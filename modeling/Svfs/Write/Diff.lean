import Svfs.File.Command
import Svfs.Write.Effect

/-! Which differences a write finds, and what is left when it found one.

`_throw_diff` looks at one byte only: the first of the range for the block the
write falls on, the first of each block in front of which a block is put, and for
the blocks a growing block reaches the first byte of the *growing* block. `Seen`
says so of the state before the write, and `writeBlocks_diff_iff` that the write
throws just then. A write that throws has done nothing only if it is the first
byte of its range that differs (`diff_keeps_iff`). -/
namespace Svfs
open World

namespace SparseVirtualFile

/-- A difference the write finds. -/
def Seen (s : SparseVirtualFile) (fpos : Nat) (data : List Byte) : Prop :=
  fpos ≤ s.filePositionImmediatlyAfterEnd ∧
    -- The first byte of the range is held and differs.
    ((∃ b, s.held fpos = some b ∧ data.head? ≠ some b) ∨
    -- A later block differs, and its first byte is written with another value than
    -- the block the write grows begins with.
    (∃ base ∈ s.svf.entries, base.1 ≤ fpos ∧ fpos ≤ base.1 + base.2.data.length ∧
      ∃ next ∈ s.svf.entries, fpos < next.1 ∧ next.1 < fpos + data.length ∧
        (∃ p, next.1 ≤ p ∧ p < next.1 + next.2.data.length ∧ p < fpos + data.length ∧
          next.2.data[p - next.1]? ≠ data[p - fpos]?) ∧
        data[next.1 - fpos]? ≠ base.2.data.head?) ∨
    -- The write precedes all blocks, and the first byte of one differs.
    ((∀ iter ∈ s.svf.entries, fpos < iter.1) ∧
      ∃ next ∈ s.svf.entries, next.1 < fpos + data.length ∧
        next.2.data.head? ≠ data[next.1 - fpos]?))

end SparseVirtualFile

section Trips
variable {fpos : Nat} {data probed : List Byte} {next : Nat × Val}

/-- Where the walk trips, by positions. -/
theorem tripsAt_iff (hle : fpos ≤ next.1) (hprobed : probed ≠ []) :
    TripsAt fpos data probed next ↔ next.1 < fpos + data.length ∧
      (∃ p, next.1 ≤ p ∧ p < next.1 + next.2.data.length ∧ p < fpos + data.length ∧
        next.2.data[p - next.1]? ≠ data[p - fpos]?) ∧
      data[next.1 - fpos]? ≠ probed.head? := by
  obtain ⟨held, hheld⟩ : ∃ held, probed.head? = some held :=
    Option.ne_none_iff_exists'.mp (by simpa using hprobed)
  constructor
  · rintro ⟨hlt, hdiff, given, held', hgiven, hheld', hne⟩
    obtain ⟨i, hi, hdiffers⟩ := memcmpDiffers_iff.mp hdiff
    rw [Nat.zero_add, List.getElem?_drop] at hdiffers
    refine ⟨hlt, ⟨next.1 + i, by omega, by omega, by omega, ?_⟩, ?_⟩
    · rwa [Nat.add_sub_cancel_left, show next.1 + i - fpos = next.1 - fpos + i by omega]
    · rw [List.head?_drop] at hgiven
      rw [List.head?_eq_getElem?, hgiven, hheld']
      exact fun h => hne (Option.some.inj h)
  · rintro ⟨hlt, ⟨p, hp, hp', hp'', hdiffers⟩, hne⟩
    refine ⟨hlt, memcmpDiffers_iff.mpr ⟨p - next.1, by omega, ?_⟩, data[next.1 - fpos], held, ?_, ?_, ?_⟩
    · rwa [Nat.zero_add, List.getElem?_drop,
        show next.1 - fpos + (p - next.1) = p - fpos by omega]
    · rw [List.head?_drop]
      exact List.getElem?_eq_getElem _
    · rwa [← List.head?_eq_getElem?]
    · intro h
      rw [List.getElem?_eq_getElem (by omega), h, hheld] at hne
      exact hne rfl

/-- A block probed at its own first byte trips there. -/
theorem tripsAt_own_iff (hle : fpos ≤ next.1) (hnext : next.2.data ≠ []) :
    TripsAt fpos data next.2.data next ↔
      next.1 < fpos + data.length ∧ next.2.data.head? ≠ data[next.1 - fpos]? := by
  rw [tripsAt_iff hle hnext]
  have hlen := List.length_pos_iff.mpr hnext
  constructor
  · rintro ⟨hlt, _, hne⟩
    exact ⟨hlt, hne.symm⟩
  · rintro ⟨hlt, hne⟩
    refine ⟨hlt, ⟨next.1, le_refl _, by omega, hlt, ?_⟩, hne.symm⟩
    rwa [Nat.sub_self, ← List.head?_eq_getElem?]

end Trips

section Throws
variable {w : World} {fpos : Nat} {data : List Byte}

/-- The position a write begins at is held by the block it falls on, if it is held. -/
theorem held_fpos_iff (hsep : Segments.Separated w.file.segments) {pre rest : List (Nat × Val)}
    {base : Nat × Val} (hcut : w.file.svf.entries = pre ++ base :: rest) (hle : base.1 ≤ fpos)
    (hrest : ∀ next ∈ rest, fpos < next.1) :
    (∃ b, w.file.held fpos = some b ∧ data.head? ≠ some b) ↔ BaseTrips fpos data base := by
  have hbase : base ∈ w.file.svf.entries := by simp [hcut]
  by_cases hlt : fpos < base.1 + base.2.data.length
  · rw [SparseVirtualFile.held_of_mem hsep hbase ⟨hle, hlt⟩]
    obtain ⟨b, hb⟩ : ∃ b, base.2.data[fpos - base.1]? = some b :=
      ⟨_, List.getElem?_eq_getElem (by omega)⟩
    unfold BaseTrips
    rw [hb]
    constructor
    · rintro ⟨b', hb', hne⟩
      cases hb'
      exact ⟨hlt, hne.symm⟩
    · rintro ⟨_, hne⟩
      exact ⟨b, rfl, hne.symm⟩
  · have hnone : w.file.held fpos = none := by
      apply Segments.lookup_eq_none_iff.mpr
      intro seg hseg hseg'
      obtain ⟨iter, hiter, rfl⟩ := mem_segmentsOf.mp hseg
      simp only [Segments.stop_mk] at hseg' ⊢
      rcases cases_of_cut hsep hcut hiter with ⟨_, hbefore⟩ | rfl | ⟨hiter, _⟩
      · omega
      · omega
      · have := hrest iter hiter
        omega
    rw [hnone]
    constructor
    · rintro ⟨b, hb, _⟩
      cases hb
    · rintro ⟨h, _⟩
      exact absurd h hlt

/-- No difference is seen where every block ends short of `fpos` or begins after it, and
past the range if they all do. -/
theorem not_seen_of_clear
    (hbefore : ∀ t ∈ w.file.svf.entries, t.1 ≤ fpos → t.1 + t.2.data.length < fpos)
    (hahead : (∀ t ∈ w.file.svf.entries, fpos < t.1) →
      ∀ t ∈ w.file.svf.entries, fpos + data.length ≤ t.1) : ¬ w.file.Seen fpos data := by
  rintro ⟨_, ⟨b, hb, _⟩ | ⟨base, hbase, hle, hstop, _⟩ | ⟨hall, next, hnext, hlt, _⟩⟩
  · obtain ⟨t, ht, hle, hlt⟩ := SparseVirtualFile.mem_of_held hb
    have := hbefore t ht hle
    omega
  · have := hbefore base hbase hle
    omega
  · have := hahead hall next hnext
    omega

/-- A block that runs past the `size_t` range is the last one, so that a position within
the file but past the computed end of a block is past the end of that block. -/
theorem stop_lt_of_past (hsep : Segments.Separated w.file.segments) (hs : Representable w.file)
    {pre rest : List (Nat × Val)} {iter : Nat × Val} (hcut : w.file.svf.entries = pre ++ iter :: rest)
    (hpast : filePositionImmediatlyAfterBlock iter < fpos)
    (hend : fpos ≤ w.file.filePositionImmediatlyAfterEnd) : iter.1 + iter.2.data.length < fpos := by
  rcases Nat.lt_or_ge (iter.1 + iter.2.data.length) (2 ^ 64) with hlt | hge
  · rwa [filePositionImmediatlyAfterBlock_of_lt hlt] at hpast
  · have hlast : rest = [] := by
      rcases rest with _ | ⟨next, rest⟩
      · rfl
      · have := (lt_of_separated hsep hcut).2 next (List.mem_cons_self ..)
        have := hs.position next (by simp [hcut])
        omega
    rw [hlast] at hcut
    rw [SparseVirtualFile.end_of_concat hcut] at hend
    omega

/-- A new block is written only where no difference is seen. -/
theorem not_seen_of_newBlock (hsep : Segments.Separated w.file.segments)
    (hs : Representable w.file) (hfit : fpos + data.length < 2 ^ 64)
    (hcase : w.file.PutsNew fpos data.length) :
    ¬ w.file.Seen fpos data := by
  intro hseen
  have hend := hseen.1
  cases hcase with
  | first hempty =>
    exact not_seen_of_clear (by simp [hempty]) (by simp [hempty]) hseen
  | last hpast =>
    omega
  | before iter rest hcut hlt hshort =>
    rw [sizeAdd_of_lt hfit] at hshort
    have hbeyond : ∀ t ∈ w.file.svf.entries, fpos + data.length < t.1 :=
      hcut ▸ OrderedMap.lt_of_first hcut hshort
    refine not_seen_of_clear (fun t ht hle => ?_) (fun _ t ht => (hbeyond t ht).le) hseen
    have := hbeyond t ht
    omega
  | after pre iter rest hcut hle hrest hpast =>
    have hstop := stop_lt_of_past hsep hs hcut hpast hend
    refine not_seen_of_clear (fun t ht hle' => ?_) (fun hall => ?_) hseen
    · rcases cases_of_cut hsep hcut ht with ⟨_, hbefore⟩ | rfl | ⟨ht, _⟩
      · omega
      · exact hstop
      · have := hrest t ht
        omega
    · have := hall iter (by simp [hcut])
      omega

/-- In front of all blocks, the differences seen are those the walk trips on. -/
theorem seen_iff_of_prepend (hsep : Segments.Separated w.file.segments) {iter : Nat × Val}
    {rest : List (Nat × Val)} (hcut : w.file.svf.entries = iter :: rest)
    (hbeyond : ∀ next ∈ iter :: rest, fpos < next.1)
    (hend : fpos ≤ w.file.filePositionImmediatlyAfterEnd) :
    w.file.Seen fpos data ↔ ∃ next ∈ iter :: rest, TripsAt fpos data next.2.data next := by
  have hne : ∀ next ∈ iter :: rest, next.2.data ≠ [] := fun next hnext =>
    hsep.nonempty _ (SparseVirtualFile.mem_segments (hcut ▸ hnext))
  constructor
  · rintro ⟨_, ⟨b, hb, _⟩ | ⟨base, hbase, hle, _⟩ | ⟨_, next, hnext, hlt, hdiff⟩⟩
    · obtain ⟨t, ht, hle, _⟩ := SparseVirtualFile.mem_of_held hb
      have := hbeyond t (hcut ▸ ht)
      omega
    · have := hbeyond base (hcut ▸ hbase)
      omega
    · rw [hcut] at hnext
      exact ⟨next, hnext, (tripsAt_own_iff (hbeyond next hnext).le (hne next hnext)).mpr ⟨hlt, hdiff⟩⟩
  · rintro ⟨next, hnext, htrip⟩
    obtain ⟨hlt, hdiff⟩ := (tripsAt_own_iff (hbeyond next hnext).le (hne next hnext)).mp htrip
    exact ⟨hend, .inr (.inr ⟨fun t ht => hbeyond t (hcut ▸ ht), next, hcut ▸ hnext, hlt, hdiff⟩)⟩

/-- On a block, the differences seen are those the check against it and the walk
trip on. -/
theorem seen_iff_of_append (hsep : Segments.Separated w.file.segments) {pre rest : List (Nat × Val)}
    {base : Nat × Val} (hcut : w.file.svf.entries = pre ++ base :: rest) (hle : base.1 ≤ fpos)
    (hstop : fpos ≤ base.1 + base.2.data.length) (hend : fpos ≤ w.file.filePositionImmediatlyAfterEnd) :
    w.file.Seen fpos data ↔ BaseTrips fpos data base ∨
      ∃ next ∈ rest, TripsAt (base.1 + base.2.data.length)
        (data.drop (base.1 + base.2.data.length - fpos)) base.2.data next := by
  obtain ⟨_, hafter⟩ := lt_of_separated hsep hcut
  have hbase : base ∈ w.file.svf.entries := by simp [hcut]
  have hrest : ∀ next ∈ rest, fpos < next.1 := fun next hnext => by
    have := hafter next hnext
    omega
  have hne : base.2.data ≠ [] := hsep.nonempty _ (SparseVirtualFile.mem_segments hbase)
  have hlater : ∀ next ∈ w.file.svf.entries, fpos < next.1 → next ∈ rest := by
    intro next hnext hlt
    rcases cases_of_cut hsep hcut hnext with ⟨_, hbefore⟩ | rfl | ⟨hnext, _⟩
    · omega
    · omega
    · exact hnext
  constructor
  · rintro ⟨_, hheld | ⟨base', hbase', hle', hstop', next, hnext, hlt, hreach, hdiff, hprobe⟩ | ⟨hall, _⟩⟩
    · exact .inl ((held_fpos_iff hsep hcut hle hrest).mp hheld)
    · -- Only one block has `fpos` in it or at its end.
      have hsame : base' = base := by
        rcases cases_of_cut hsep hcut hbase' with ⟨_, hbefore⟩ | rfl | ⟨hmem, _⟩
        · omega
        · rfl
        · have := hrest base' hmem
          omega
      subst hsame
      have hmem := hlater next hnext hlt
      refine .inr ⟨next, hmem, (tripsAt_advance hstop (hafter next hmem).le).mpr ?_⟩
      exact (tripsAt_iff hlt.le hne).mpr ⟨hreach, hdiff, hprobe⟩
    · have := hall base hbase
      omega
  · rintro (hbaseTrip | ⟨next, hnext, htrip⟩)
    · exact ⟨hend, .inl ((held_fpos_iff hsep hcut hle hrest).mpr hbaseTrip)⟩
    · have hlt := hrest next hnext
      obtain ⟨hreach, hdiff, hprobe⟩ := (tripsAt_iff hlt.le hne).mp
        ((tripsAt_advance hstop (hafter next hnext).le).mp htrip)
      exact ⟨hend, .inr (.inl ⟨base, hbase, hle, hstop, next, by simp [hcut, hnext], hlt, hreach,
        hdiff, hprobe⟩)⟩

/-- **What a write finds.** -/
theorem writeBlocks_diff_iff (h : WellFormed w.file) (hs : Representable w.file)
    (hc : w.file.config.compareForDiff = true) (hdata : data ≠ [])
    (hfit : fpos + data.length < 2 ^ 64) :
    (∃ m, (w.writeBlocks fpos data).result = .error (.diff m)) ↔ w.file.Seen fpos data := by
  have hsep := h.separated
  cases writeBlocks_cases fpos data w with
  | newBlock heq hcase =>
    rw [heq]
    constructor
    · rintro ⟨m, hm⟩
      exact absurd hm (writeNewBlock_not_diff fpos data w m)
    · exact fun hseen => absurd hseen (not_seen_of_newBlock hsep hs hfit hcase)
  | newAppendOld iter rest heq hcut hlt hreach hend =>
    rw [sizeAdd_of_lt hfit] at hreach
    have hbeyond := OrderedMap.lt_of_first hcut hlt
    have hahead := hs.ahead_first hsep hcut hbeyond
    rw [heq, seen_iff_of_prepend hsep hcut hbeyond hend]
    constructor
    · rintro ⟨m, hm⟩
      by_contra hnone
      exact writeNewAppendOld_not_diff hcut hahead hreach hfit
        (fun _ next hnext htrip => hnone ⟨next, hnext, htrip⟩) m hm
    · exact fun htrip => (writeNewAppendOld_throws hcut hahead hfit hc htrip).1
  | appendNewToOld pre base rest heq hcut hle hrest hstop hend =>
    have hbase : base ∈ w.file.svf.entries := by simp [hcut]
    obtain ⟨hwithin, hstop⟩ := within_of_reached (hs.size base hbase) hle (by omega) hstop
    have hne : base.2.data ≠ [] := hsep.nonempty _ (SparseVirtualFile.mem_segments hbase)
    have hahead := hs.ahead hsep (by rw [hcut, List.append_cons])
      (lt_of_separated hsep hcut).2
    rw [heq, seen_iff_of_append hsep hcut hle hstop hend]
    by_cases hbaseTrip : BaseTrips fpos data base
    · exact iff_of_true (writeAppendNewToOld_baseThrows rest hdata hle hstop (hs.size base hbase) (by omega)
        (fun _ => hwithin) hc hbaseTrip).1
        (.inl hbaseTrip)
    · by_cases htrip : ∃ next ∈ rest, TripsAt (base.1 + base.2.data.length)
        (data.drop (base.1 + base.2.data.length - fpos)) base.2.data next
      · exact iff_of_true (writeAppendNewToOld_throws hcut hdata hne hle hstop hwithin hahead hfit hc
          hbaseTrip htrip) (.inr htrip)
      · have hreturns := (writeAppendNewToOld_grown hcut hdata hne hle hstop (hs.size base hbase) hahead
          hfit hs.bytesTotal (fun _ => hbaseTrip)
          fun _ next hnext hn => htrip ⟨next, hnext, hn⟩).written.result
        refine iff_of_false ?_ (fun hor => hor.elim hbaseTrip htrip)
        rintro ⟨m, hm⟩
        rw [hreturns] at hm
        cases hm

/-- A write throws what its blocks throw. -/
theorem write_diff_iff {now : Int} : (∃ m, (w.write now fpos data).result = .error (.diff m)) ↔
    ∃ m, (w.writeBlocks fpos data).result = .error (.diff m) := by
  unfold World.write
  cases h : (w.writeBlocks fpos data).result with
  | ok a => simp [Outcome.bind_of_ok h]
  | error e => simp [Outcome.bind_of_error h]

/-- A difference seen is a difference. -/
theorem conflict_of_seen (hsep : Segments.Separated w.file.segments) (hdata : data ≠ [])
    (hseen : w.file.Seen fpos data) : w.file.Conflict fpos data := by
  have hpos := List.length_pos_iff.mpr hdata
  rcases hseen with ⟨_, ⟨b, hb, hne⟩ | ⟨base, _, _, _, next, hnext, hlt, hreach, ⟨p, hp, hp', hp'', hdiff⟩, _⟩ |
    ⟨hall, next, hnext, hreach, hne⟩⟩
  · refine ⟨fpos, b, le_refl _, by omega, hb, ?_⟩
    rwa [Nat.sub_self, ← List.head?_eq_getElem?]
  · exact SparseVirtualFile.conflict_of_block hsep hnext ⟨hp, hp'⟩ ⟨by omega, hp''⟩ hdiff
  · have hlt := hall next hnext
    have hlen := List.length_pos_iff.mpr (hsep.nonempty _ (SparseVirtualFile.mem_segments hnext))
    simp only at hlen
    refine SparseVirtualFile.conflict_of_block hsep hnext (p := next.1) ⟨le_refl _, by omega⟩
      ⟨by omega, hreach⟩ ?_
    rwa [Nat.sub_self, ← List.head?_eq_getElem?]

end Throws

/-- Two blocks of two bytes, each byte its position. -/
def twoBlocks : World :=
  Run.run Command.step (World.new [] 0) [.write 0 0 [0, 1], .write 0 4 [4, 5]]

theorem wellFormed_twoBlocks : WellFormed twoBlocks.file :=
  ⟨⟨by decide, by decide⟩, by decide⟩

theorem representable_twoBlocks : Representable twoBlocks.file :=
  ⟨by decide, by decide, by decide⟩

/-! ### Detection -/

/-- **Difference detection** is exact for the writes that differ nowhere, and for
those whose difference is seen. -/
theorem diff_exact_iff (w : World) (now : Int) (fpos : Nat) (data : List Byte)
    (h : WellFormed w.file) (hs : Representable w.file)
    (hc : w.file.config.compareForDiff = true) (hdata : data ≠ [])
    (hfit : fpos + data.length < 2 ^ 64) :
    ((∃ m, (w.write now fpos data).result = .error (.diff m)) ↔ w.file.Conflict fpos data) ↔
      (¬ w.file.Conflict fpos data ∨ w.file.Seen fpos data) := by
  rw [write_diff_iff, writeBlocks_diff_iff h hs hc hdata hfit]
  have hseen : w.file.Seen fpos data → w.file.Conflict fpos data := conflict_of_seen h.separated hdata
  tauto

/-- A difference in the first byte written. -/
theorem diff_exact_iff_first :
    ((∃ m, (twoBlocks.write 0 1 [9]).result = .error (.diff m)) ↔ twoBlocks.file.Conflict 1 [9]) ↔
      (¬ twoBlocks.file.Conflict 1 [9] ∨ twoBlocks.file.Seen 1 [9]) :=
  diff_exact_iff twoBlocks 0 1 [9] wellFormed_twoBlocks representable_twoBlocks (by decide)
    (by decide) (by decide)

/-- A difference in the second byte of the range goes unnoticed. -/
theorem not_diff_exact : ¬ ∀ (w : World) (now : Int) (fpos : Nat) (data : List Byte),
    WellFormed w.file → Representable w.file → w.file.config.compareForDiff = true → data ≠ [] →
    fpos + data.length < 2 ^ 64 →
    ((∃ m, (w.write now fpos data).result = .error (.diff m)) ↔ w.file.Conflict fpos data) := by
  intro h
  have hiff := h twoBlocks 0 0 [0, 9] wellFormed_twoBlocks representable_twoBlocks (by decide)
    (by decide) (by decide)
  have hconflict : twoBlocks.file.Conflict 0 [0, 9] := ⟨1, 1, by decide, by decide, by decide, by decide⟩
  obtain ⟨m, hm⟩ := hiff.mpr hconflict
  have hreturns : (twoBlocks.write 0 0 [0, 9]).result = .ok () := by rfl
  rw [hreturns] at hm
  cases hm

/-! ### What is left -/

/-- Nothing was lost to a write that threw: what was held is held, what is new are
bytes of the write before any difference, and `integrity` finds no fault. -/
structure RejectKeeps (s s' : SparseVirtualFile) (fpos : Nat) (data : List Byte) : Prop where
  kept : ∀ p b, s.held p = some b → s'.held p = some b
  fresh : ∀ p b, s.held p = none → s'.held p = some b →
    fpos ≤ p ∧ p < fpos + data.length ∧ data[p - fpos]? = some b ∧
      ∀ q c, fpos ≤ q → q ≤ p → s.held q = some c → data[q - fpos]? = some c
  integrity : s'.integrity = .none

section Rejected
variable {w : World} {fpos : Nat} {data : List Byte}

/-- A throw of the blocks leaves the counters of the file alone. -/
theorem write_file_of_error {now : Int} {e : Exception}
    (h : (w.writeBlocks fpos data).result = .error e) :
    (w.write now fpos data).world = (w.writeBlocks fpos data).world := by
  unfold World.write
  rw [Outcome.bind_of_error h]

/-- A throw in front of all blocks leaves more bytes counted than held. -/
theorem integrity_of_prependThrows (h : WellFormed w.file) (hs : Representable w.file)
    {s' : SparseVirtualFile} {added lost : Nat} (hpos : 0 < added)
    (hle : added + lost < 2 ^ 64) (hbytes : s'.bytesTotal = sizeAdd w.file.bytesTotal added)
    (htotal : Segments.total w.file.segments = lost + Segments.total s'.segments) :
    s'.integrity ≠ .none := by
  intro hnone
  have hsum := (SparseVirtualFile.integrity_none hnone).2.2
  have hcount := h.bytesTotal
  have hbound := hs.bytesTotal
  rw [sizeAdd_of_lt (by omega), hbytes] at hsum
  rcases Nat.lt_or_ge (w.file.bytesTotal + added) (2 ^ 64) with hfits | hwraps
  · rw [sizeAdd_of_lt hfits] at hsum
    omega
  · rw [sizeAdd, Wrap.add_of_ge hbound (by omega) hwraps] at hsum
    omega

/-- **A rejected write**, however far its data goes, loses nothing exactly when it is the first
byte of its range that is held and differs. -/
theorem diff_keeps_iff (w : World) (now : Int) (fpos : Nat) (data : List Byte)
    (h : WellFormed w.file) (hs : Representable w.file)
    (hc : w.file.config.compareForDiff = true) (hdata : data ≠ [])
    (hfpos : fpos < 2 ^ 64) (hlen : data.length < 2 ^ 64)
    (hthrows : ∃ m, (w.write now fpos data).result = .error (.diff m)) :
    RejectKeeps w.file (w.write now fpos data).world.file fpos data ↔
      ∃ b, w.file.held fpos = some b ∧ data.head? ≠ some b := by
  obtain ⟨m, hm⟩ := write_diff_iff.mp hthrows
  rw [write_file_of_error hm]
  have hsep := h.separated
  cases writeBlocks_cases fpos data w with
  | newBlock heq _ =>
    rw [heq] at hm
    exact absurd hm (writeNewBlock_not_diff fpos data w m)
  | newAppendOld iter rest heq hcut hlt hreach hend =>
    -- A range whose end comes round does not reach a block after its beginning.
    have hfit : fpos + data.length < 2 ^ 64 := by
      by_contra hwraps
      rw [sizeAdd, Wrap.add_of_ge hfpos hlen (by omega)] at hreach
      omega
    have hseen := (writeBlocks_diff_iff h hs hc hdata hfit).mp ⟨m, hm⟩
    have hbeyond := OrderedMap.lt_of_first hcut hlt
    have htrip := (seen_iff_of_prepend hsep hcut hbeyond hend).mp hseen
    obtain ⟨_, added, lost, hpos, hlost, hbytes, htotal⟩ :=
      writeNewAppendOld_throws hcut (hs.ahead_first hsep hcut hbeyond) hfit hc htrip
    rw [← heq] at hbytes htotal
    refine iff_of_false
      (fun hkeeps => integrity_of_prependThrows h hs hpos (by omega) hbytes htotal hkeeps.integrity) ?_
    rintro ⟨b, hb, _⟩
    obtain ⟨t, ht, htle, _⟩ := SparseVirtualFile.mem_of_held hb
    have := hbeyond t (hcut ▸ ht)
    omega
  | appendNewToOld pre base rest heq hcut hle hrest hstop hend =>
    have hbase : base ∈ w.file.svf.entries := by simp [hcut]
    obtain ⟨hwithin, hstop⟩ := within_of_reached (hs.size base hbase) hle hfpos hstop
    rw [held_fpos_iff hsep hcut hle hrest]
    by_cases hbaseTrip : BaseTrips fpos data base
    · have hsame : (w.writeAppendNewToOld fpos data base rest).world.file = w.file :=
        (writeAppendNewToOld_baseThrows rest hdata hle hstop (hs.size base hbase) hfpos (fun _ => hwithin) hc
          hbaseTrip).2
      rw [← heq] at hsame
      refine iff_of_true ?_ hbaseTrip
      rw [hsame]
      refine ⟨fun p b hb => hb, fun p b hnone hb => ?_, h.integrity hs⟩
      rw [hnone] at hb
      cases hb
    · obtain ⟨v', next, later, hentries, hposition, htouch⟩ := writeAppendNewToOld_thrown hcut hdata hle hstop
        hwithin (hs.ahead hsep (by rw [hcut, List.append_cons]) (lt_of_separated hsep hcut).2) hbaseTrip
        (heq ▸ hm)
      rw [← heq] at hentries
      refine iff_of_false (fun hkeeps => ?_) hbaseTrip
      refine SparseVirtualFile.integrity_ne_none hentries ?_ hkeeps.integrity
      rw [sizeAdd_of_lt (by simp only; omega)]
      exact htouch.ge

end Rejected

/-- Thrown out at its first byte. -/
theorem diff_keeps_iff_first :
    RejectKeeps twoBlocks.file (twoBlocks.write 0 1 [9]).world.file 1 [9] ↔
      ∃ b, twoBlocks.file.held 1 = some b ∧ ([9] : List Byte).head? ≠ some b :=
  diff_keeps_iff twoBlocks 0 1 [9] wellFormed_twoBlocks representable_twoBlocks (by decide)
    (by decide) (by decide) (by decide) ⟨_, rfl⟩

/-- A write thrown out at the second block has grown the first one up to it. -/
theorem not_diff_keeps : ¬ ∀ (w : World) (now : Int) (fpos : Nat) (data : List Byte),
    WellFormed w.file → Representable w.file → w.file.config.compareForDiff = true → data ≠ [] →
    fpos < 2 ^ 64 → data.length < 2 ^ 64 → (∃ m, (w.write now fpos data).result = .error (.diff m)) →
    RejectKeeps w.file (w.write now fpos data).world.file fpos data := by
  intro h
  have hkeeps := h twoBlocks 0 0 [0, 1, 2, 3, 9] wellFormed_twoBlocks representable_twoBlocks
    (by decide) (by decide) (by decide) (by decide) ⟨_, rfl⟩
  have hadjacent : (twoBlocks.write 0 0 [0, 1, 2, 3, 9]).world.file.integrity = .adjacentBlocks := by
    decide
  have hnone := hkeeps.integrity
  rw [hadjacent] at hnone
  cases hnone

end Svfs
