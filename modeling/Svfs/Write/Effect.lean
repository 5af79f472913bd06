import Svfs.Write.Dispatch

/-! What a write does to a tidy file.

A write that agrees with what is held, and does not run into the next block while
it lies apart from the one before, leaves a tidy file that holds the new bytes
over what it held (`writeBlocks_effect`). -/
namespace Svfs

namespace SparseVirtualFile

/-- Some byte held inside the range written differs from the one written there. -/
def Conflict (s : SparseVirtualFile) (fpos : Nat) (data : List Byte) : Prop :=
  ∃ p b, fpos ≤ p ∧ p < fpos + data.length ∧ s.held p = some b ∧ data[p - fpos]? ≠ some b

theorem conflict_iff {s : SparseVirtualFile} {fpos : Nat} {data : List Byte} :
    s.Conflict fpos data ↔
      ∃ i, i < data.length ∧ s.held (fpos + i) ≠ none ∧ data[i]? ≠ s.held (fpos + i) := by
  constructor
  · rintro ⟨p, b, hp, hp', hb, hne⟩
    refine ⟨p - fpos, by omega, ?_⟩
    rw [Nat.add_sub_cancel' hp, hb]
    exact ⟨by simp, hne⟩
  · rintro ⟨i, hi, hheld, hne⟩
    obtain ⟨b, hb⟩ := Option.ne_none_iff_exists'.mp hheld
    rw [hb] at hne
    exact ⟨fpos + i, b, by omega, by omega, hb, by rwa [Nat.add_sub_cancel_left]⟩

instance (s : SparseVirtualFile) (fpos : Nat) (data : List Byte) : Decidable (s.Conflict fpos data) :=
  decidable_of_iff' _ conflict_iff

/-- The range begins apart from the blocks before it and reaches the one after:
some block begins at or before `fpos`, all that do end before it, and the next one
begins inside the range or at its end. -/
def RunsIntoNext (s : SparseVirtualFile) (fpos len : Nat) : Prop :=
  (∃ b ∈ s.blocks, b.1 ≤ fpos) ∧ (∀ b ∈ s.blocks, b.1 ≤ fpos → b.1 + b.2 < fpos) ∧
    ∃ next ∈ s.blocks, fpos < next.1 ∧ next.1 ≤ fpos + len

instance (s : SparseVirtualFile) (fpos len : Nat) : Decidable (s.RunsIntoNext fpos len) :=
  inferInstanceAs (Decidable (_ ∧ _ ∧ _))

theorem mem_blocks {s : SparseVirtualFile} {b : Nat × Nat} :
    b ∈ s.blocks ↔ ∃ iter ∈ s.svf.entries, (iter.1, iter.2.data.length) = b := List.mem_map

/-- It shows in the positions held. -/
theorem runsIntoNext_iff {s : SparseVirtualFile} (h : Segments.Separated s.segments) {fpos len : Nat} :
    s.RunsIntoNext fpos len ↔ Segments.RunsInto (Segments.support s.segments) fpos len := by
  rw [Segments.runsInto_support_iff h.nonempty, RunsIntoNext, blocks_eq]
  simp only [List.mem_map, exists_exists_and_eq_and, forall_exists_index, and_imp, forall_apply_eq_imp_iff₂,
    Segments.stop]

variable {s : SparseVirtualFile} {fpos : Nat} {data : List Byte} {iter : Nat × Val}

/-- A byte of a block that differs from the one written over it is a conflict. -/
theorem conflict_of_block (h : Segments.Separated s.segments) (hiter : iter ∈ s.svf.entries) {p : Nat}
    (hp : iter.1 ≤ p ∧ p < iter.1 + iter.2.data.length) (hrange : fpos ≤ p ∧ p < fpos + data.length)
    (hne : iter.2.data[p - iter.1]? ≠ data[p - fpos]?) : s.Conflict fpos data := by
  obtain ⟨b, hb⟩ : ∃ b, iter.2.data[p - iter.1]? = some b :=
    ⟨_, List.getElem?_eq_getElem (by omega)⟩
  refine ⟨p, b, hrange.1, hrange.2, (held_of_mem h hiter hp).trans hb, fun hgiven => hne ?_⟩
  rw [hb, hgiven]

theorem conflict_of_differsAt (h : Segments.Separated s.segments) (hiter : iter ∈ s.svf.entries)
    (hle : fpos ≤ iter.1) (hdiff : World.DiffersAt fpos data iter) : s.Conflict fpos data := by
  obtain ⟨hlt, hdiff⟩ := hdiff
  obtain ⟨i, hi, hne⟩ := World.memcmpDiffers_iff.mp hdiff
  refine conflict_of_block h hiter (p := iter.1 + i) (by omega) (by omega) ?_
  rw [List.getElem?_drop] at hne
  rw [show iter.1 + i - iter.1 = 0 + i by omega, show iter.1 + i - fpos = iter.1 - fpos + i by omega]
  exact hne

theorem conflict_of_baseDiffers (h : Segments.Separated s.segments) (hiter : iter ∈ s.svf.entries)
    (hle : iter.1 ≤ fpos) (hdiff : World.BaseDiffers fpos data iter) : s.Conflict fpos data := by
  obtain ⟨i, hi, hne⟩ := World.memcmpDiffers_iff.mp hdiff
  refine conflict_of_block h hiter (p := fpos + i) (by omega) (by omega) ?_
  rw [show fpos + i - iter.1 = fpos - iter.1 + i by omega, show fpos + i - fpos = i by omega]
  exact hne

theorem conflict_of_baseTrips (h : Segments.Separated s.segments) (hiter : iter ∈ s.svf.entries)
    (hdata : data ≠ []) (hle : iter.1 ≤ fpos) (htrip : World.BaseTrips fpos data iter) :
    s.Conflict fpos data :=
  conflict_of_baseDiffers h hiter hle ((World.baseTrips_iff hdata hle).mpr htrip).1

end SparseVirtualFile

/-- The blocks from a place in the map on are what a walk needs. -/
theorem Representable.ahead {s : SparseVirtualFile} (h : Representable s)
    (hsep : Segments.Separated s.segments) {pre rest : List (Nat × Val)}
    (hcut : s.svf.entries = pre ++ rest) {fpos : Nat} (hbeyond : ∀ next ∈ rest, fpos < next.1) :
    World.Ahead fpos rest := by
  have hmem : ∀ next ∈ rest, next ∈ s.svf.entries := fun next hnext => by
    rw [hcut]
    exact List.mem_append_right _ hnext
  refine ⟨hbeyond, fun next hnext => h.position next (hmem next hnext),
    fun next hnext => h.size next (hmem next hnext), SparseVirtualFile.separated_after hsep hcut⟩

/-- Where the walk begins at the first block, those are all blocks. -/
theorem Representable.ahead_first {s : SparseVirtualFile} (h : Representable s)
    (hsep : Segments.Separated s.segments) {rest : List (Nat × Val)} (hcut : s.svf.entries = rest)
    {fpos : Nat} (hbeyond : ∀ next ∈ rest, fpos < next.1) : World.Ahead fpos rest :=
  h.ahead hsep (hcut.trans (List.nil_append _).symm) hbeyond

namespace World
variable {w : World} {fpos : Nat} {data : List Byte}

/-- The effect of a write: it returned, and the file holds the new bytes over what
it held, in separated blocks. -/
structure Effect (w : World) (fpos : Nat) (data : List Byte) (o : Outcome Unit) : Prop where
  written : Written w o.world.file.segments o
  separated : Segments.Separated o.world.file.segments
  held : ∀ p, o.world.file.held p = Segments.overlay w.file.held fpos data p
  sound : SoundLog w o.world

theorem Effect.of_written {segments : List (Segments.Segment Byte)} {o : Outcome Unit}
    (h : Written w segments o) (hsep : Segments.Separated segments)
    (hlookup : ∀ p, Segments.lookup segments p = Segments.overlay w.file.held fpos data p)
    (hsound : SoundLog w o.world) : Effect w fpos data o := by
  obtain ⟨hresult, hframe, hblocks, hbytes⟩ := h
  subst hblocks
  exact ⟨⟨hresult, hframe, rfl, hbytes⟩, hsep, hlookup, hsound⟩

/-- A file that takes the effect of a write within the range is tidy again. -/
theorem Effect.tidy {o : Outcome Unit} (h : Effect w fpos data o) (htidy : Tidy w.file)
    (hfit : fpos + data.length < 2 ^ 64) : Tidy o.world.file := by
  have hwithin : ∀ iter ∈ o.world.file.svf.entries, iter.1 + iter.2.data.length < 2 ^ 64 := by
    intro iter hiter
    have hmem := SparseVirtualFile.mem_segments hiter
    have hlt := Segments.lt_stop (h.separated.nonempty _ hmem)
    simp only [Segments.stop_mk] at hlt
    -- The last position of a block was written just now or held before.
    have hlast : iter.1 + iter.2.data.length - 1 ∈ Segments.support o.world.file.segments :=
      Segments.mem_support_iff.mpr ⟨_, hmem, by simp only; omega, by simp only [Segments.stop_mk]; omega⟩
    rw [Segments.support_overlay h.held] at hlast
    rcases hlast with hlast | hlast
    · obtain ⟨seg, hseg, _, hlt'⟩ := Segments.mem_support_iff.mp hlast
      obtain ⟨old, hold, rfl⟩ := mem_segmentsOf.mp hseg
      have := htidy.within old hold
      simp only [Segments.stop_mk] at hlt'
      omega
    · have := hlast.2
      omega
  obtain ⟨added, hadded, htotal⟩ := h.written.bytes
  refine ⟨⟨h.separated, ?_⟩, hwithin⟩
  have hlt := SparseVirtualFile.total_lt h.separated hwithin
  have hcount := htidy.bytesTotal
  rw [hadded, sizeAdd_of_lt (by omega)]
  omega

/-- A write that returned only counts once its blocks are written. -/
theorem write_eq (now : Int) (fpos : Nat) (data : List Byte)
    (h : (w.writeBlocks fpos data).result = .ok ()) :
    w.write now fpos data =
      .returned () ((w.writeBlocks fpos data).world.countWrite now data.length) :=
  Outcome.bind_of_ok h

theorem write_bytesTotal (now : Int) (fpos : Nat) (data : List Byte) (w : World) :
    (w.write now fpos data).world.file.bytesTotal = (w.writeBlocks fpos data).world.file.bytesTotal := by
  cases hr : (w.writeBlocks fpos data).result with
  | ok u => rw [write_eq now fpos data hr]; rfl
  | error e => rw [write, Outcome.bind_of_error hr]

/-- A new block that touches no other. -/
theorem effect_newBlock (h : Segments.Separated w.file.segments) (hdata : data ≠ [])
    {pre post : List (Nat × Val)} (hcut : w.file.svf.entries = pre ++ post)
    (hpre : ∀ t ∈ pre, t.1 + t.2.data.length < fpos)
    (hpost : ∀ t ∈ post, fpos + data.length < t.1) :
    Effect w fpos data (w.writeNewBlock fpos data) := by
  have hsegments : w.file.segments = segmentsOf pre ++ segmentsOf post := by
    rw [SparseVirtualFile.segments, hcut, segmentsOf_append]
  have hpre' : ∀ seg ∈ segmentsOf pre, Segments.stop seg < fpos := by
    intro seg hseg
    obtain ⟨t, ht, rfl⟩ := mem_segmentsOf.mp hseg
    exact hpre t ht
  have hpost' : ∀ seg ∈ segmentsOf post, fpos + data.length < seg.1 := by
    intro seg hseg
    obtain ⟨t, ht, rfl⟩ := mem_segmentsOf.mp hseg
    exact hpost t ht
  rw [hsegments] at h
  have hbefore : ∀ t ∈ pre, t.1 < fpos := fun t ht => by have := hpre t ht; omega
  have hafter : ∀ t ∈ post, fpos < t.1 := fun t ht => by have := hpost t ht; omega
  obtain ⟨hwritten, hsound⟩ := writeNewBlock_written (w := w) data hcut hbefore hafter
  refine .of_written hwritten (Segments.separated_insert hdata h hpre' hpost') (fun p => ?_) hsound
  rw [Segments.lookup_insert hpre', ← hsegments]
  rfl

/-- The blocks of a tidy file end by its end. -/
theorem stop_le_end (h : Tidy w.file) {t : Nat × Val} (ht : t ∈ w.file.svf.entries) :
    t.1 + t.2.data.length ≤ w.file.filePositionImmediatlyAfterEnd := by
  rcases List.eq_nil_or_concat' w.file.svf.entries with hnil | ⟨pre, last, hcut⟩
  · rw [hnil] at ht
    cases ht
  · have hlast : w.file.filePositionImmediatlyAfterEnd = last.1 + last.2.data.length := by
      rw [SparseVirtualFile.end_of_concat hcut]
      exact sizeAdd_of_lt (h.within last (by rw [hcut]; simp))
    rw [hcut] at ht
    rcases List.mem_append.mp ht with ht | ht
    · have := (lt_of_separated h.separated hcut).1 t ht
      omega
    · rw [List.mem_singleton.mp ht, hlast]

/-- A write that touches no block becomes a block of its own. -/
theorem writeBlocks_apart (h : Tidy w.file) (hfit : fpos + data.length < 2 ^ 64)
    (hapart : ∀ t ∈ w.file.svf.entries, t.1 + t.2.data.length < fpos ∨ fpos + data.length < t.1) :
    w.writeBlocks fpos data = w.writeNewBlock fpos data ∧
      ∃ pre post, w.file.svf.entries = pre ++ post ∧ (∀ t ∈ pre, t.1 + t.2.data.length < fpos) ∧
        ∀ t ∈ post, fpos + data.length < t.1 := by
  obtain ⟨pre, post, hcut, hpre, hpost⟩ := w.file.svf.cut_at fpos
  refine ⟨?_, pre, post, hcut, fun t ht => ?_, fun t ht => ?_⟩
  · have hsum : sizeAdd fpos data.length = fpos + data.length := sizeAdd_of_lt hfit
    cases writeBlocks_cases fpos data w with
    | newBlock heq _ =>
      exact heq
    | newAppendOld iter rest _ hcut' hlt hreach _ =>
      have := hapart iter (by simp [hcut'])
      omega
    | appendNewToOld pre' base rest _ hcut' hle _ hstop _ =>
      have hmem : base ∈ w.file.svf.entries := by simp [hcut']
      have := hapart base hmem
      rw [filePositionImmediatlyAfterBlock_of_lt (h.within base hmem)] at hstop
      omega
  · have := hapart t (by simp [hcut, ht])
    have := hpre t ht
    omega
  · have := hapart t (by simp [hcut, ht])
    have := hpost t ht
    omega

/-- It returns, and the file is tidy with that block put in. -/
theorem write_apart (h : Tidy w.file) (now : Int) (hdata : data ≠ [])
    (hfit : fpos + data.length < 2 ^ 64)
    (hapart : ∀ t ∈ w.file.svf.entries, t.1 + t.2.data.length < fpos ∨ fpos + data.length < t.1) :
    (w.write now fpos data).result = .ok () ∧ Tidy (w.write now fpos data).world.file ∧
      (w.write now fpos data).world.file.blockTouch = touchSucc w.file.blockTouch ∧
      ∃ pre post, w.file.svf.entries = pre ++ post ∧ (∀ t ∈ pre, t.1 + t.2.data.length < fpos) ∧
        (∀ t ∈ post, fpos + data.length < t.1) ∧
        (w.write now fpos data).world.file.svf.entries =
          pre ++ (fpos, ⟨data, w.file.blockTouch⟩) :: post := by
  obtain ⟨heq, pre, post, hcut, hpre, hpost⟩ := writeBlocks_apart h hfit hapart
  have hbefore : ∀ t ∈ pre, t.1 < fpos := fun t ht => by have := hpre t ht; omega
  have hafter : ∀ t ∈ post, fpos < t.1 := fun t ht => by have := hpost t ht; omega
  have heffect := effect_newBlock h.separated hdata hcut hpre hpost
  rw [write_eq now fpos data (heq ▸ heffect.written.result), heq]
  refine ⟨rfl, (heffect.tidy h hfit).of_segments rfl rfl, ?_, pre, post, hcut, hpre, hpost,
    writeNewBlock_entries data hcut hbefore hafter⟩
  exact congrArg SparseVirtualFile.blockTouch heffect.written.frame

section Prepend
variable {iter : Nat × Val} {rest : List (Nat × Val)}

/-- The blocks a write in front of them all reaches agree with it, or the file would not. -/
theorem not_differsAt_of_front (hsep : Segments.Separated w.file.segments)
    (hagree : ¬ w.file.Conflict fpos data) (hcut : w.file.svf.entries = iter :: rest) (hlt : fpos < iter.1)
    {next : Nat × Val} (hnext : next ∈ iter :: rest) : ¬ DiffersAt fpos data next := by
  have hmem : next ∈ w.file.svf.entries := by rwa [hcut]
  exact fun hdiffers => hagree (SparseVirtualFile.conflict_of_differsAt hsep hmem
    (OrderedMap.lt_of_first hcut hlt next hnext).le hdiffers)

/-- A write in front of all blocks that agrees with those it reaches puts a new one there,
if they end within the range. -/
theorem fronted_of_agree (hsep : Segments.Separated w.file.segments) (hs : Representable w.file)
    (hdata : data ≠ []) (hfit : fpos + data.length < 2 ^ 64) (hagree : ¬ w.file.Conflict fpos data)
    (hcut : w.file.svf.entries = iter :: rest) (hlt : fpos < iter.1) (hreach : iter.1 ≤ fpos + data.length)
    (hstops : ∀ next ∈ iter :: rest, next.1 ≤ fpos + data.length →
      next.1 + next.2.data.length < 2 ^ 64) :
    Fronted w fpos data (w.writeNewAppendOld fpos data (iter :: rest)) :=
  writeNewAppendOld_fronted hcut hdata
    (hs.ahead_first hsep hcut (OrderedMap.lt_of_first hcut hlt)) hreach hfit hstops
    fun _ _ hnext htrip => not_differsAt_of_front hsep hagree hcut hlt hnext htrip.differs

variable {o : Outcome Unit}

theorem starts_of_front (hcut : w.file.svf.entries = iter :: rest) (hlt : fpos < iter.1) :
    ∀ seg ∈ w.file.segments, fpos ≤ seg.1 := by
  intro seg hseg
  obtain ⟨next, hnext, rfl⟩ := mem_segmentsOf.mp hseg
  rw [hcut] at hnext
  exact (OrderedMap.lt_of_first hcut hlt next hnext).le

theorem Fronted.separated (h : Fronted w fpos data o) (hsep : Segments.Separated w.file.segments)
    (hdata : data ≠ []) (hcut : w.file.svf.entries = iter :: rest) (hlt : fpos < iter.1) :
    Segments.Separated o.world.file.segments := by
  rw [h.written.blocks]
  exact Segments.separated_absorb hsep (starts_of_front hcut hlt) hdata

theorem Fronted.held_eq (h : Fronted w fpos data o) (hsep : Segments.Separated w.file.segments)
    (hcut : w.file.svf.entries = iter :: rest) (hlt : fpos < iter.1) (p : Nat) :
    o.world.file.held p = Segments.overlay w.file.held fpos data p := by
  rw [SparseVirtualFile.held, h.written.blocks]
  exact Segments.lookup_absorb hsep (starts_of_front hcut hlt) p

theorem effect_prepend (h : Tidy w.file) (hdata : data ≠ []) (hfit : fpos + data.length < 2 ^ 64)
    (hagree : ¬ w.file.Conflict fpos data) (hcut : w.file.svf.entries = iter :: rest) (hlt : fpos < iter.1)
    (hreach : iter.1 ≤ fpos + data.length) :
    Effect w fpos data (w.writeNewAppendOld fpos data (iter :: rest)) := by
  have hfronted := fronted_of_agree h.separated h.representable hdata hfit hagree hcut hlt hreach
    fun next hnext _ => h.within next (by rwa [hcut])
  have hsound := hfronted.sound ⟨h.within, fun _ next hnext =>
    not_differsAt_of_front h.separated hagree hcut hlt (by rwa [← hcut])⟩
  have hwritten := hfronted.written
  rw [← hwritten.blocks] at hwritten
  exact ⟨hwritten, hfronted.separated h.separated hdata hcut hlt, hfronted.held_eq h.separated hcut hlt,
    hsound⟩

end Prepend

section Append
variable {pre rest : List (Nat × Val)} {base : Nat × Val}

theorem separated_of_cut (hsep : Segments.Separated w.file.segments)
    (hcut : w.file.svf.entries = pre ++ base :: rest) : Segments.Separated (segmentsOf rest) := by
  rw [List.append_cons] at hcut
  exact SparseVirtualFile.separated_after hsep hcut

/-- The blocks a write onto a block would reach agree with it, or the file would not. -/
theorem not_differsAt_of_agree (hsep : Segments.Separated w.file.segments)
    (hagree : ¬ w.file.Conflict fpos data) (hcut : w.file.svf.entries = pre ++ base :: rest)
    (hstop : fpos ≤ base.1 + base.2.data.length) {next : Nat × Val} (hnext : next ∈ rest) :
    ¬ DiffersAt (base.1 + base.2.data.length) (data.drop (base.1 + base.2.data.length - fpos)) next := by
  intro hdiffers
  have hlater := (lt_of_separated hsep hcut).2 next hnext
  have hmem : next ∈ w.file.svf.entries := by simp [hcut, hnext]
  exact hagree (SparseVirtualFile.conflict_of_differsAt hsep hmem (by omega)
    ((differsAt_advance hstop hlater.le).mp hdiffers))

/-- A write that agrees with what is held grows the block it falls on. -/
theorem grown_of_agree (hsep : Segments.Separated w.file.segments) (hs : Representable w.file)
    (hdata : data ≠ []) (hfit : fpos + data.length < 2 ^ 64) (hagree : ¬ w.file.Conflict fpos data)
    (hcut : w.file.svf.entries = pre ++ base :: rest) (hle : base.1 ≤ fpos)
    (hstop : fpos ≤ base.1 + base.2.data.length) :
    Grown w fpos data pre base rest (w.writeAppendNewToOld fpos data base rest) := by
  have hmem : base ∈ w.file.svf.entries := by simp [hcut]
  exact writeAppendNewToOld_grown hcut hdata
    (hsep.nonempty _ (SparseVirtualFile.mem_segments hmem)) hle hstop (hs.size base hmem)
    (hs.ahead hsep (by rw [hcut, List.append_cons]) (lt_of_separated hsep hcut).2) hfit hs.bytesTotal
    (fun _ htrip => hagree (SparseVirtualFile.conflict_of_baseTrips hsep hmem hdata hle htrip))
    fun _ next hnext htrip => not_differsAt_of_agree hsep hagree hcut hstop hnext htrip.differs

variable {o : Outcome Unit}

theorem Grown.separated (h : Grown w fpos data pre base rest o)
    (hsep : Segments.Separated w.file.segments) (hcut : w.file.svf.entries = pre ++ base :: rest) :
    Segments.Separated o.world.file.segments := by
  rw [SparseVirtualFile.segments_of_cut hcut] at hsep
  obtain ⟨hsepPre, hsepBase, hcross⟩ := Segments.separated_append.mp hsep
  have hgrown := Segments.separated_extend hsepBase (data.drop (base.1 + base.2.data.length - fpos))
  rw [h.written.blocks]
  refine Segments.separated_append.mpr ⟨hsepPre, hgrown, fun seg hseg t ht => ?_⟩
  have hbase := hcross seg hseg _ (List.mem_cons_self ..)
  rcases List.mem_cons.mp ht with rfl | ht
  · exact hbase
  · have := (Segments.separated_cons.mp hgrown).2.1 t ht
    simp only [Segments.stop_mk] at this
    simp only at hbase
    omega

/-- The file holds the bytes written over what it held, if the block agrees with them. -/
theorem Grown.held_eq (h : Grown w fpos data pre base rest o)
    (hsep : Segments.Separated w.file.segments) (hcut : w.file.svf.entries = pre ++ base :: rest)
    (hle : base.1 ≤ fpos) (hstop : fpos ≤ base.1 + base.2.data.length)
    (hagree : ∀ p, fpos ≤ p → p < fpos + data.length → p < base.1 + base.2.data.length →
      base.2.data[p - base.1]? = data[p - fpos]?) (p : Nat) :
    o.world.file.held p = Segments.overlay w.file.held fpos data p := by
  have hsegments := SparseVirtualFile.segments_of_cut hcut
  rw [hsegments] at hsep
  obtain ⟨_, hsepBase, hcross⟩ := Segments.separated_append.mp hsep
  have hpre : ∀ seg ∈ segmentsOf pre, Segments.stop seg ≤ fpos := by
    intro seg hseg
    have := hcross seg hseg _ (List.mem_cons_self ..)
    simp only at this
    omega
  have hextend := Segments.lookup_extend hsepBase hle hstop hagree
  rw [SparseVirtualFile.held, h.written.blocks, Segments.lookup_after hpre hextend, ← hsegments]
  rfl

theorem agree_of_not_conflict (hsep : Segments.Separated w.file.segments)
    (hagree : ¬ w.file.Conflict fpos data) (hmem : base ∈ w.file.svf.entries) (hle : base.1 ≤ fpos)
    {p : Nat} (hp : fpos ≤ p) (hp' : p < fpos + data.length) (hheld : p < base.1 + base.2.data.length) :
    base.2.data[p - base.1]? = data[p - fpos]? := by
  by_contra hne
  exact hagree (SparseVirtualFile.conflict_of_block hsep hmem ⟨by omega, hheld⟩ ⟨hp, hp'⟩ hne)

theorem effect_append (h : Tidy w.file) (hdata : data ≠ []) (hfit : fpos + data.length < 2 ^ 64)
    (hagree : ¬ w.file.Conflict fpos data) (hcut : w.file.svf.entries = pre ++ base :: rest)
    (hle : base.1 ≤ fpos) (hstop : fpos ≤ base.1 + base.2.data.length) :
    Effect w fpos data (w.writeAppendNewToOld fpos data base rest) := by
  have hmem : base ∈ w.file.svf.entries := by simp [hcut]
  have hgrown := grown_of_agree h.separated h.representable hdata hfit hagree hcut hle hstop
  have hsound := hgrown.sound (h.within base hmem)
    (fun _ hd => hagree (SparseVirtualFile.conflict_of_baseDiffers h.separated hmem hle hd))
    ⟨fun next hnext => h.within next (by simp [hcut, hnext]),
      fun _ next hnext => not_differsAt_of_agree h.separated hagree hcut hstop hnext⟩
  have hwritten := hgrown.written
  rw [← hwritten.blocks] at hwritten
  exact ⟨hwritten, hgrown.separated h.separated hcut,
    hgrown.held_eq h.separated hcut hle hstop fun p hp hp' hheld =>
      agree_of_not_conflict h.separated hagree hmem hle hp hp' hheld, hsound⟩

end Append

/-- Where a write puts a block of its own that does not run into the next one, that takes
effect. -/
theorem effect_of_newBlock (h : Tidy w.file) (hdata : data ≠ []) (hfit : fpos + data.length < 2 ^ 64)
    (hrun : ¬ w.file.RunsIntoNext fpos data.length)
    (hcase : w.file.PutsNew fpos data.length) :
    Effect w fpos data (w.writeNewBlock fpos data) := by
  cases hcase with
  | first hempty =>
    exact effect_newBlock h.separated hdata (hempty.trans (List.nil_append _).symm) nofun nofun
  | last hend =>
    exact effect_newBlock h.separated hdata (List.append_nil _).symm
      (fun t ht => (stop_le_end h ht).trans_lt hend) (by simp)
  | before iter rest hcut hlt hshort =>
    rw [sizeAdd_of_lt hfit] at hshort
    exact effect_newBlock h.separated hdata (hcut.trans (List.nil_append _).symm) nofun
      (OrderedMap.lt_of_first hcut hshort)
  | after pre iter rest hcut hle hrest hpast =>
    -- The block before ends short of `fpos`, so the next one must begin past the range.
    have hmem : iter ∈ w.file.svf.entries := by simp [hcut]
    have hiter : iter.1 + iter.2.data.length < fpos := by
      rwa [filePositionImmediatlyAfterBlock_of_lt (h.within iter hmem)] at hpast
    obtain ⟨hbefore, _⟩ := lt_of_separated h.separated hcut
    have hpre : ∀ t ∈ pre ++ [iter], t.1 + t.2.data.length < fpos := by
      intro t ht
      rcases List.mem_append.mp ht with ht | ht
      · have := hbefore t ht
        omega
      · rwa [List.mem_singleton.mp ht]
    apply effect_newBlock h.separated hdata (by rw [hcut, List.append_cons]) hpre
    intro t ht
    by_contra hreach
    refine hrun ⟨⟨_, SparseVirtualFile.mem_blocks.mpr ⟨iter, hmem, rfl⟩, hle⟩, fun b hb hb' => ?_,
      _, SparseVirtualFile.mem_blocks.mpr ⟨t, by simp [hcut, ht], rfl⟩, hrest t ht, by omega⟩
    obtain ⟨e, he, rfl⟩ := SparseVirtualFile.mem_blocks.mp hb
    rw [hcut, List.append_cons] at he
    rcases List.mem_append.mp he with he | he
    · exact hpre e he
    · exact absurd (hrest e he) (not_lt.mpr hb')

/-- **A good write** takes effect. -/
theorem writeBlocks_effect (h : Tidy w.file) (hdata : data ≠ []) (hfit : fpos + data.length < 2 ^ 64)
    (hrun : ¬ w.file.RunsIntoNext fpos data.length) (hagree : ¬ w.file.Conflict fpos data) :
    Effect w fpos data (w.writeBlocks fpos data) := by
  have hsum : sizeAdd fpos data.length = fpos + data.length := sizeAdd_of_lt hfit
  cases writeBlocks_cases fpos data w with
  | newBlock heq hcase =>
    rw [heq]
    exact effect_of_newBlock h hdata hfit hrun hcase
  | newAppendOld iter rest heq hcut hlt hreach _ =>
    rw [heq]
    rw [hsum] at hreach
    exact effect_prepend h hdata hfit hagree hcut hlt hreach
  | appendNewToOld pre base rest heq hcut hle hrest hstop _ =>
    rw [heq]
    rw [filePositionImmediatlyAfterBlock_of_lt (h.within base (by simp [hcut]))] at hstop
    exact effect_append h hdata hfit hagree hcut hle hstop

/-- A write that returns leaves separated blocks, even where it disagrees with what is held and
that goes unnoticed. -/
theorem separated_of_returns (h : Tidy w.file) (hdata : data ≠ []) (hfit : fpos + data.length < 2 ^ 64)
    (hrun : ¬ w.file.RunsIntoNext fpos data.length) (hreturns : (w.writeBlocks fpos data).result = .ok ()) :
    Segments.Separated (w.writeBlocks fpos data).world.file.segments := by
  cases writeBlocks_cases fpos data w with
  | newBlock heq hcase =>
    rw [heq]
    exact (effect_of_newBlock h hdata hfit hrun hcase).separated
  | newAppendOld iter rest heq hcut hlt hreach _ =>
    rw [heq] at hreturns ⊢
    rw [sizeAdd_of_lt hfit] at hreach
    have hahead := h.representable.ahead_first h.separated hcut (OrderedMap.lt_of_first hcut hlt)
    refine (writeNewAppendOld_fronted hcut hdata hahead hreach hfit
      (fun next hnext _ => h.within next (hcut ▸ hnext)) fun hc next hnext htrips => ?_).separated
        h.separated hdata hcut hlt
    obtain ⟨⟨m, hm⟩, _⟩ := writeNewAppendOld_throws hcut hahead hfit hc ⟨next, hnext, htrips⟩
    rw [hm] at hreturns
    cases hreturns
  | appendNewToOld pre base rest heq hcut hle hrest hstop _ =>
    rw [heq] at hreturns ⊢
    have hmem : base ∈ w.file.svf.entries := by simp [hcut]
    have hwithin := h.within base hmem
    rw [filePositionImmediatlyAfterBlock_of_lt hwithin] at hstop
    have hne := h.separated.nonempty _ (SparseVirtualFile.mem_segments hmem)
    have hahead := h.representable.ahead h.separated (by rw [hcut, List.append_cons])
      (lt_of_separated h.separated hcut).2
    have hbaseTrip : w.file.config.compareForDiff = true → ¬ BaseTrips fpos data base := fun hc htrips => by
      obtain ⟨⟨m, hm⟩, _⟩ := writeAppendNewToOld_baseThrows rest hdata hle hstop
        (h.representable.size base hmem) (by omega) (fun _ => hwithin) hc htrips
      rw [hm] at hreturns
      cases hreturns
    refine (writeAppendNewToOld_grown hcut hdata hne hle hstop (h.representable.size base hmem) hahead hfit
      h.representable.bytesTotal hbaseTrip fun hc next hnext htrips => ?_).separated h.separated hcut
    obtain ⟨m, hm⟩ := writeAppendNewToOld_throws hcut hdata hne hle hstop hwithin hahead hfit hc
      (hbaseTrip hc) ⟨next, hnext, htrips⟩
    rw [hm] at hreturns
    cases hreturns

/-! ### The write that goes wrong -/

/-- A write that runs into the next block is written as a block of its own, in
front of that block and without regard to it. -/
theorem writeBlocks_runsIntoNext (h : Tidy w.file) (hrun : w.file.RunsIntoNext fpos data.length) :
    ∃ pre next rest, w.file.svf.entries = pre ++ next :: rest ∧
      (∀ t ∈ pre, t.1 + t.2.data.length < fpos) ∧ fpos < next.1 ∧ next.1 ≤ fpos + data.length ∧
      w.writeBlocks fpos data = w.writeNewBlock fpos data ∧
      (w.writeBlocks fpos data).world.file.svf.entries =
        pre ++ (fpos, ⟨data, w.file.blockTouch⟩) :: next :: rest := by
  obtain ⟨⟨b, hb, hble⟩, hbefore, n, hn, hlt, hreach⟩ := hrun
  obtain ⟨before, hbmem, rfl⟩ := SparseVirtualFile.mem_blocks.mp hb
  obtain ⟨after, hnmem, rfl⟩ := SparseVirtualFile.mem_blocks.mp hn
  obtain ⟨pre, post, hcut, hpre, hpost⟩ := w.file.svf.cut_at fpos
  have hstops : ∀ t ∈ pre, t.1 + t.2.data.length < fpos := fun t ht =>
    hbefore _ (SparseVirtualFile.mem_blocks.mpr ⟨t, by rw [hcut]; exact List.mem_append_left _ ht, rfl⟩)
      (hpre t ht)
  obtain ⟨next, rest, rfl, hnext⟩ : ∃ next rest, post = next :: rest ∧ next.1 ≤ after.1 := by
    have hafter : after ∈ post := by
      rw [hcut] at hnmem
      rcases List.mem_append.mp hnmem with hmem | hmem
      · exact absurd (hpre after hmem) (not_le.mpr hlt)
      · exact hmem
    cases post with
    | nil => cases hafter
    | cons next rest =>
      refine ⟨next, rest, rfl, ?_⟩
      rcases List.mem_cons.mp hafter with rfl | hmem
      · exact le_refl _
      · exact ((OrderedMap.cut_lt w.file.svf.sorted hcut).2 after hmem).le
  have hnew : w.writeBlocks fpos data = w.writeNewBlock fpos data := by
    cases writeBlocks_cases fpos data w with
    | newBlock heq _ =>
      exact heq
    | newAppendOld iter rest _ hcut' hlt' _ _ =>
      -- All blocks begin after `fpos`, yet one does not.
      rw [hcut'] at hbmem
      exact absurd hble (not_le.mpr (OrderedMap.lt_of_first hcut' hlt' _ hbmem))
    | appendNewToOld pre' base rest _ hcut' hle _ hstop _ =>
      -- The block before ends before `fpos`, so nothing is appended to it.
      have hbase : base ∈ w.file.svf.entries := by simp [hcut']
      have := hbefore _ (SparseVirtualFile.mem_blocks.mpr ⟨base, hbase, rfl⟩) hle
      rw [filePositionImmediatlyAfterBlock_of_lt (h.within base hbase)] at hstop
      simp only at this
      omega
  refine ⟨pre, next, rest, hcut, hstops, hpost next (List.mem_cons_self ..), hnext.trans hreach, hnew, ?_⟩
  rw [hnew]
  exact writeNewBlock_entries data hcut (fun t ht => by have := hstops t ht; omega) hpost

/-- A write that runs into the next block leaves the new one touching it. -/
theorem runsIntoNext_breaks (htidy : Tidy w.file) {now : Int} (hfit : fpos + data.length < 2 ^ 64)
    (hrun : w.file.RunsIntoNext fpos data.length) : (w.write now fpos data).world.file.integrity ≠ .none := by
  obtain ⟨pre, next, rest, hcut, hpre, hlt, hreach, hnew, hentries⟩ :=
    writeBlocks_runsIntoNext htidy hrun
  have hpost : ∀ e ∈ next :: rest, fpos < e.1 := by
    intro e he
    rcases List.mem_cons.mp he with rfl | he
    · exact hlt
    · have := (lt_of_separated htidy.separated hcut).2 e he
      omega
  have hresult : (w.writeNewBlock fpos data).result = .ok () :=
    (writeNewBlock_written data hcut (fun t ht => by have := hpre t ht; omega) hpost).1.result
  rw [← hnew] at hresult
  rw [write_eq now fpos data hresult]
  refine SparseVirtualFile.integrity_ne_none (a := (fpos, ⟨data, w.file.blockTouch⟩)) hentries ?_
  rw [sizeAdd_of_lt hfit]
  exact hreach

end World
end Svfs
