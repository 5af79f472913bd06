import Svfs.Query.Agree
import Svfs.Write.ReadBack

/-! A write that agrees with what is held.

Such a write lands in one block, the last to begin at or before its position, and every
range that could be read before still can, even where the write is put between two blocks
as a block of its own. Only a block that runs up to the end of the `size_t` range, or past
it, is in danger: its end looks to be before its start. Past that end a write goes by no
block that is there, and a write that reaches the block loses its tail or grows one whose
end is lost. `StaysClear` says which writes do neither, and `agreeing_write_iff` that it is
those that hide nothing. -/
namespace Svfs
open World

/-- Where some block runs out of the `size_t` range, the write begins by the end that block
seems to have, and either ends before it begins or is put between the blocks. -/
def SparseVirtualFile.StaysClear (s : SparseVirtualFile) (fpos len : Nat) : Prop :=
  ∀ last ∈ s.svf.entries, 2 ^ 64 ≤ last.1 + last.2.data.length →
    fpos + 2 ^ 64 ≤ last.1 + last.2.data.length ∧ (fpos + len < last.1 ∨ s.RunsIntoNext fpos len)

/-- What an agreeing write promises: it returns, what it wrote is had and read, all that
could be read still can, and writing it again changes nothing. A read counts that hands out
as many bytes as it was asked for. -/
structure AgreeingKept (w : World) (now : Int) (fpos : Nat) (data : List Byte) : Prop where
  returns : (w.write now fpos data).result = .ok ()
  has : (w.write now fpos data).world.file.has fpos data.length = true
  read : ∀ now', ((w.write now fpos data).world.read now' fpos data.length).result = .ok data
  keeps : ∀ now' q n bytes, 0 < n → n < 2 ^ 64 → q < 2 ^ 64 → bytes.length = n →
    (w.read now' q n).result = .ok bytes → ((w.write now fpos data).world.read now' q n).result = .ok bytes
  again : ∀ now', ((w.write now fpos data).world.write now' fpos data).world.file.segments =
      (w.write now fpos data).world.file.segments ∧
    ((w.write now fpos data).world.write now' fpos data).world.file.bytesTotal =
      (w.write now fpos data).world.file.bytesTotal

/-! ### Reading held bytes -/

section Reads
variable {s s' : SparseVirtualFile} {fpos len : Nat} {data bytes : List Byte} {iter : Nat × Val}

/-- Among separated blocks a range can be read if all of it is held. -/
theorem reads_iff (hsep : Segments.Separated s.segments) (hlen : 0 < len) :
    s.Reads fpos len bytes ↔ bytes.length = len ∧ ∀ i < len, s.held (fpos + i) ≠ none ∧
      s.held (fpos + i) = bytes[i]? := by
  constructor
  · rintro ⟨iter, hlast, hfits, rfl⟩
    have hle := hlast.le
    refine ⟨by rw [List.length_take, List.length_drop]; omega, fun i hi => ?_⟩
    have hheld := SparseVirtualFile.held_of_mem hsep hlast.mem (p := fpos + i) (by omega)
    rw [hheld, List.getElem?_take_of_lt hi, List.getElem?_drop,
      show fpos + i - iter.1 = fpos - iter.1 + i by omega]
    exact ⟨by rw [List.getElem?_eq_getElem (by omega)]; simp, rfl⟩
  · rintro ⟨hlength, hheld⟩
    obtain ⟨b, hb⟩ := Option.ne_none_iff_exists'.mp (hheld 0 hlen).1
    obtain ⟨iter, hiter, hle, hlt⟩ := SparseVirtualFile.mem_of_held hb
    rw [Nat.add_zero] at hle hlt
    have hlast := lastAt_of_separated hsep hiter hle hlt.le
    obtain ⟨pre, rest, hcut, hrest⟩ := hlast.cut
    have hfits := (SparseVirtualFile.allHeld_iff hsep hlen hcut hle hrest).mp fun p hp hp' => by
      have := (hheld (p - fpos) (by omega)).1
      rwa [Nat.add_sub_cancel' hp] at this
    refine ⟨iter, hlast, by omega, List.ext_getElem? fun i => ?_⟩
    rcases Nat.lt_or_ge i len with hi | hi
    · rw [← (hheld i hi).2, SparseVirtualFile.held_of_mem hsep hiter (by omega),
        List.getElem?_take_of_lt hi, List.getElem?_drop,
        show fpos + i - iter.1 = fpos - iter.1 + i by omega]
    · rw [List.getElem?_eq_none (by rw [List.length_take]; omega), List.getElem?_eq_none (by omega)]

/-- Bytes written over what they agree with hide nothing. -/
theorem reads_of_overlay (hsep : Segments.Separated s.segments) (hsep' : Segments.Separated s'.segments)
    (hagree : ¬ s.Conflict fpos data) (hheld : ∀ p, s'.held p = Segments.overlay s.held fpos data p)
    {q n : Nat} (hn : 0 < n) (h : s.Reads q n bytes) : s'.Reads q n bytes := by
  obtain ⟨hlength, hbytes⟩ := (reads_iff hsep hn).mp h
  refine (reads_iff hsep' hn).mpr ⟨hlength, fun i hi => ?_⟩
  obtain ⟨hne, heq⟩ := hbytes i hi
  obtain ⟨b, hb⟩ := Option.ne_none_iff_exists'.mp hne
  have hsame : s'.held (q + i) = some b := by
    rw [hheld, Segments.overlay_eq_some_iff]
    · exact .inr hb
    · intro y hp hp' hy
      by_contra hdiffers
      exact hagree ⟨q + i, y, hp, hp', hy, hdiffers⟩
  rw [hsame, ← heq, hb]
  exact ⟨by simp, rfl⟩

end Reads

/-! ### Where a write lands -/

/-- The data lies in the last block to begin at or before its position, which ends within
the `size_t` range; the other blocks were there before. -/
structure Landed (s s' : SparseVirtualFile) (fpos : Nat) (data : List Byte) (iter : Nat × Val) : Prop where
  lastAt : s'.svf.LastAt fpos iter
  stop : fpos + data.length ≤ iter.1 + iter.2.data.length
  within : iter.1 + iter.2.data.length < 2 ^ 64
  bytes : (iter.2.data.drop (fpos - iter.1)).take data.length = data
  others : ∀ t ∈ s'.svf.entries, t = iter ∨ t ∈ s.svf.entries

section Landed
variable {s s' : SparseVirtualFile} {fpos : Nat} {data : List Byte} {iter : Nat × Val}

theorem Landed.reads (h : Landed s s' fpos data iter) : s'.Reads fpos data.length data := by
  have hle := h.lastAt.le
  have hstop := h.stop
  exact ⟨iter, h.lastAt, by omega, h.bytes⟩

theorem Landed.size (h : Landed s s' fpos data iter) (hs : Representable s) :
    ∀ t ∈ s'.svf.entries, t.2.data.length < 2 ^ 64 := by
  intro t ht
  rcases h.others t ht with rfl | hold
  · have := h.within
    omega
  · exact hs.size t hold

theorem Landed.has (h : Landed s s' fpos data iter) (hfit : fpos + data.length < 2 ^ 64) :
    s'.has fpos data.length = true := by
  obtain ⟨pre, rest, hcut, hrest⟩ := h.lastAt.cut
  rw [SparseVirtualFile.has_of_cut hcut h.lastAt.le hrest, decide_eq_true_iff, sizeAdd_of_lt hfit,
    filePositionImmediatlyAfterBlock_of_lt h.within]
  exact h.stop

/-- The file then seems to end past the position written. -/
theorem Landed.le_end (h : Landed s s' fpos data iter) (hs : Representable s)
    (hclear : ∀ t ∈ s.svf.entries, 2 ^ 64 ≤ t.1 + t.2.data.length → fpos + 2 ^ 64 ≤ t.1 + t.2.data.length) :
    fpos ≤ s'.filePositionImmediatlyAfterEnd := by
  obtain ⟨pre, rest, hcut, hrest⟩ := h.lastAt.cut
  have hstop := h.stop
  have hwithin := h.within
  obtain ⟨front, last, hback⟩ : ∃ front last, iter :: rest = front ++ [last] :=
    (List.eq_nil_or_concat' (iter :: rest)).resolve_left (by simp)
  have hlast : last ∈ iter :: rest := by simp [hback]
  rw [SparseVirtualFile.end_of_concat (by rw [hcut, hback, List.append_assoc])]
  rcases List.mem_cons.mp hlast with rfl | hlast
  · rw [filePositionImmediatlyAfterBlock_of_lt hwithin]
    omega
  · have hmem : last ∈ s'.svf.entries := by simp [hcut, hlast]
    have hbeyond := hrest last hlast
    rcases h.others last hmem with rfl | hold
    · have := h.lastAt.le
      omega
    · rcases Nat.lt_or_ge (last.1 + last.2.data.length) (2 ^ 64) with hlt | hge
      · rw [filePositionImmediatlyAfterBlock_of_lt hlt]
        omega
      · have hafter := hs.after_of_wraps hold hge
        have := hclear last hold hge
        omega

end Landed

/-! ### The write in each of its ways -/

/-- A write that returned with the data landed in one block, and hid nothing. -/
structure Settled (w : World) (fpos : Nat) (data : List Byte) (o : Outcome Unit) : Prop where
  result : o.result = .ok ()
  landed : ∃ iter, Landed w.file o.world.file fpos data iter
  keeps : ∀ {q n bytes}, 0 < n → w.file.Reads q n bytes → o.world.file.Reads q n bytes

section Settled
variable {w : World} {fpos : Nat} {data : List Byte}

/-- Where a new block is written, no block reaches up to it. -/
theorem stop_lt_of_newBlock (hsep : Segments.Separated w.file.segments) (hs : Representable w.file)
    (hclear : ∀ t ∈ w.file.svf.entries, 2 ^ 64 ≤ t.1 + t.2.data.length → fpos + 2 ^ 64 ≤ t.1 + t.2.data.length)
    (hcase : w.file.PutsNew fpos data.length) {t : Nat × Val} (ht : t ∈ w.file.svf.entries)
    (hle : t.1 ≤ fpos) : t.1 + t.2.data.length < fpos := by
  -- A block whose end is computed to be before `fpos` ends there.
  have hexact : ∀ iter ∈ w.file.svf.entries, filePositionImmediatlyAfterBlock iter < fpos →
      iter.1 + iter.2.data.length < fpos := by
    intro iter hiter hpast
    rcases Nat.lt_or_ge (iter.1 + iter.2.data.length) (2 ^ 64) with hlt | hge
    · rwa [filePositionImmediatlyAfterBlock_of_lt hlt] at hpast
    · have hafter := hs.after_of_wraps hiter hge
      have := hclear iter hiter hge
      omega
  cases hcase with
  | first hempty =>
    rw [hempty] at ht
    cases ht
  | last hend =>
    obtain ⟨front, last, hback⟩ : ∃ front last, w.file.svf.entries = front ++ [last] :=
      (List.eq_nil_or_concat' w.file.svf.entries).resolve_left (List.ne_nil_of_mem ht)
    rw [SparseVirtualFile.end_of_concat hback] at hend
    have hlast := hexact last (by simp [hback]) hend
    rcases cases_of_cut hsep hback ht with ⟨_, hbefore⟩ | rfl | ⟨hnone, _⟩
    · omega
    · exact hlast
    · cases hnone
  | before iter rest hcut hlt _ =>
    rw [hcut] at ht
    have := OrderedMap.lt_of_first hcut hlt t ht
    omega
  | after pre iter rest hcut _ hrest hpast =>
    have hiter := hexact iter (by simp [hcut]) hpast
    rcases cases_of_cut hsep hcut ht with ⟨_, hbefore⟩ | rfl | ⟨hmem, _⟩
    · omega
    · exact hiter
    · have := hrest t hmem
      omega

/-- A new block past the blocks before it, whatever it runs into. -/
theorem settled_newBlock (hfit : fpos + data.length < 2 ^ 64)
    (hbefore : ∀ t ∈ w.file.svf.entries, t.1 ≤ fpos → t.1 + t.2.data.length < fpos) :
    Settled w fpos data (w.writeNewBlock fpos data) := by
  obtain ⟨pre, post, hcut, hpre, hpost⟩ := w.file.svf.cut_at fpos
  have hlt : ∀ t ∈ pre, t.1 < fpos := by
    intro t ht
    have := hbefore t (by simp [hcut, ht]) (hpre t ht)
    omega
  have hentries := writeNewBlock_entries data hcut hlt hpost
  have hmem := fun t => mem_writeNewBlock data hcut hlt hpost (t := t)
  refine ⟨(writeNewBlock_written data hcut hlt hpost).1.result,
    ⟨_, ?_, le_refl _, hfit, ?_, fun t ht => (hmem t).mp ht⟩, ?_⟩
  · exact OrderedMap.lastAt_of_cut hentries (le_refl _) hpost
  · simp
  · rintro q n bytes hn ⟨iter, hlast, hfits, hbytes⟩
    refine ⟨iter, ⟨(hmem iter).mpr (.inr hlast.mem), hlast.le, fun t ht htle => ?_⟩, hfits, hbytes⟩
    rcases (hmem t).mp ht with rfl | hold
    · -- A block that began at or before the new one ends before it, and so does what is read.
      have := hbefore iter hlast.mem
      have := hlast.le
      simp only at htle ⊢
      omega
    · exact hlast.last t hold htle

/-- A new block in front of those it reaches, if they end within the range. -/
theorem settled_prepend (hsep : Segments.Separated w.file.segments) (hs : Representable w.file)
    (hdata : data ≠ []) (hfit : fpos + data.length < 2 ^ 64) (hagree : ¬ w.file.Conflict fpos data)
    {iter : Nat × Val} {rest : List (Nat × Val)} (hcut : w.file.svf.entries = iter :: rest)
    (hlt : fpos < iter.1) (hreach : iter.1 ≤ fpos + data.length)
    (hstops : ∀ next ∈ iter :: rest, next.1 ≤ fpos + data.length →
      next.1 + next.2.data.length < 2 ^ 64) :
    Settled w fpos data (w.writeNewAppendOld fpos data (iter :: rest)) := by
  have hfronted := fronted_of_agree hsep hs hdata hfit hagree hcut hlt hreach hstops
  obtain ⟨remaining, hsuffix, hentries⟩ := hfronted.entries
  obtain ⟨more, hmore⟩ := Segments.absorb_prefix fpos data w.file.segments
  have hstop : fpos + (Segments.absorb fpos data w.file.segments).1.length ≤ 2 ^ 64 - 1 := by
    refine Segments.absorb_stop_le (by omega) fun seg hseg hle => ?_
    obtain ⟨next, hnext, rfl⟩ := mem_segmentsOf.mp hseg
    have := hstops next (hcut ▸ hnext) hle
    simp only [Segments.stop_mk]
    omega
  have hlast := OrderedMap.lastAt_of_cut (hentries.trans (List.nil_append _).symm) (le_refl fpos)
    fun next hnext => OrderedMap.lt_of_first hcut hlt next (hcut ▸ hsuffix.subset hnext)
  refine ⟨hfronted.written.result, ⟨_, hlast, ?_, ?_, ?_, fun t ht => ?_⟩, fun hn hreads => ?_⟩
  · simp only [hmore, List.length_append]
    omega
  · simp only
    omega
  · simp only [hmore, Nat.sub_self, List.drop_zero, List.take_left]
  · rw [hentries] at ht
    exact (List.mem_cons.mp ht).imp_right fun ht => hsuffix.subset ht
  · exact reads_of_overlay hsep (hfronted.separated hsep hdata hcut hlt) hagree
      (hfronted.held_eq hsep hcut hlt) hn hreads

/-- The block the write falls on, grown, if the blocks it reaches end within the range. -/
theorem settled_append (hsep : Segments.Separated w.file.segments) (hs : Representable w.file)
    (hdata : data ≠ []) (hfit : fpos + data.length < 2 ^ 64) (hagree : ¬ w.file.Conflict fpos data)
    {pre rest : List (Nat × Val)} {base : Nat × Val} (hcut : w.file.svf.entries = pre ++ base :: rest)
    (hle : base.1 ≤ fpos) (hrest : ∀ next ∈ rest, fpos < next.1) (hstop : fpos ≤ base.1 + base.2.data.length)
    (hwithin : base.1 + base.2.data.length < 2 ^ 64)
    (hstops : ∀ next ∈ rest, next.1 ≤ fpos + data.length → next.1 + next.2.data.length < 2 ^ 64) :
    Settled w fpos data (w.writeAppendNewToOld fpos data base rest) := by
  have hmem : base ∈ w.file.svf.entries := by simp [hcut]
  have hafter := (lt_of_separated hsep hcut).2
  have hoverlap : ∀ p, fpos ≤ p → p < fpos + data.length → p < base.1 + base.2.data.length →
      base.2.data[p - base.1]? = data[p - fpos]? := fun p hp hp' hheld =>
    agree_of_not_conflict hsep hagree hmem hle hp hp' hheld
  have hgrown := grown_of_agree hsep hs hdata hfit hagree hcut hle hstop
  obtain ⟨remaining, hsuffix, _, hentries⟩ := hgrown.entries
  have hbeyond : ∀ next ∈ remaining, fpos < next.1 := fun next hnext => hrest next (hsuffix.subset hnext)
  have hend : base.1 + base.2.data.length + (Segments.absorb (base.1 + base.2.data.length)
      (data.drop (base.1 + base.2.data.length - fpos)) (segmentsOf rest)).1.length ≤ 2 ^ 64 - 1 := by
    refine Segments.absorb_stop_le (by rw [List.length_drop]; omega) fun seg hseg hreach => ?_
    obtain ⟨next, hnext, rfl⟩ := mem_segmentsOf.mp hseg
    have hnext' := hafter next hnext
    rw [List.length_drop] at hreach
    have := hstops next hnext (by simp only at hreach; omega)
    simp only [Segments.stop_mk]
    omega
  have hlast := OrderedMap.lastAt_of_cut hentries hle hbeyond
  obtain ⟨more, hmore⟩ := Segments.absorb_prefix (base.1 + base.2.data.length)
    (data.drop (base.1 + base.2.data.length - fpos)) (segmentsOf rest)
  have hreads : (w.writeAppendNewToOld fpos data base rest).world.file.Reads fpos data.length data := by
    have hkept : keptThenWritten base fpos data = data := by
      refine keptThenWritten_of_agrees hle hstop fun i hheld hi => ?_
      have := hoverlap (fpos + i) (by omega) (by omega) hheld
      rwa [Nat.add_sub_cancel_left, show fpos + i - base.1 = fpos - base.1 + i by omega] at this
    have hgrownReads := reads_of_grown (hmore ▸ hentries) hle hstop hbeyond
    rwa [hkept] at hgrownReads
  obtain ⟨t, ht, hfits, hbytes⟩ := hreads
  obtain rfl := hlast.unique ht
  refine ⟨hgrown.written.result, ⟨_, hlast, ?_, ?_, hbytes, fun t ht => ?_⟩, fun hn hreads => ?_⟩
  · simp only at hfits ⊢
    omega
  · simp only [List.length_append]
    omega
  · rw [hentries] at ht
    rw [hcut]
    rcases List.mem_append.mp ht with ht | ht
    · exact .inr (List.mem_append_left _ ht)
    · refine (List.mem_cons.mp ht).imp_right fun ht => ?_
      exact List.mem_append_right _ (List.mem_cons_of_mem _ (hsuffix.subset ht))
  · exact reads_of_overlay hsep (hgrown.separated hsep hcut) hagree
      (hgrown.held_eq hsep hcut hle hstop hoverlap) hn hreads

/-- A write that agrees, and stays clear of a block that runs out of the range. -/
theorem settled_of_clear (hsep : Segments.Separated w.file.segments) (hs : Representable w.file)
    (hdata : data ≠ []) (hfit : fpos + data.length < 2 ^ 64) (hagree : ¬ w.file.Conflict fpos data)
    (hclear : w.file.StaysClear fpos data.length) : Settled w fpos data (w.writeBlocks fpos data) := by
  -- A block is only run into where the write is put between the blocks.
  have hstops : ∀ t ∈ w.file.svf.entries, t.1 ≤ fpos + data.length →
      ¬ w.file.RunsIntoNext fpos data.length → t.1 + t.2.data.length < 2 ^ 64 := by
    intro t ht hreach hrun
    by_contra hwraps
    rcases (hclear t ht (by omega)).2 with hbeyond | hbetween
    · omega
    · exact hrun hbetween
  cases writeBlocks_cases fpos data w with
  | newBlock heq hcase =>
    rw [heq]
    exact settled_newBlock hfit fun t ht hle =>
      stop_lt_of_newBlock hsep hs (fun t ht hwraps => (hclear t ht hwraps).1) hcase ht hle
  | newAppendOld iter rest heq hcut hlt hreach _ =>
    rw [heq]
    rw [sizeAdd_of_lt hfit] at hreach
    refine settled_prepend hsep hs hdata hfit hagree hcut hlt hreach fun next hnext hnextReach =>
      hstops next (hcut ▸ hnext) hnextReach ?_
    rintro ⟨⟨b, hb, hble⟩, _⟩
    obtain ⟨t, ht, rfl⟩ := SparseVirtualFile.mem_blocks.mp hb
    have := OrderedMap.lt_of_first hcut hlt t (hcut ▸ ht)
    simp only at hble
    omega
  | appendNewToOld pre base rest heq hcut hle hrest hstop _ =>
    rw [heq]
    have hmem : base ∈ w.file.svf.entries := by simp [hcut]
    obtain ⟨hwithin, hstop'⟩ := within_of_reached (hs.size base hmem) hle (by omega) hstop
    refine settled_append hsep hs hdata hfit hagree hcut hle hrest hstop' hwithin fun next hnext hnextReach =>
      hstops next (by simp [hcut, hnext]) hnextReach ?_
    rintro ⟨_, hbefore, _⟩
    have := hbefore _ (SparseVirtualFile.mem_blocks.mpr ⟨base, hmem, rfl⟩) hle
    simp only at this
    omega

/-- A write that falls on a block goes onto that block. -/
theorem writeBlocks_onto {iter : Nat × Val} (data : List Byte) (hlast : w.file.svf.LastAt fpos iter)
    (hstop : fpos ≤ filePositionImmediatlyAfterBlock iter)
    (hend : fpos ≤ w.file.filePositionImmediatlyAfterEnd) :
    ∃ rest, w.writeBlocks fpos data = w.writeAppendNewToOld fpos data iter rest := by
  have hle := hlast.le
  cases writeBlocks_cases fpos data w with
  | newBlock _ hcase =>
    exfalso
    cases hcase with
    | first hempty =>
      have := hlast.mem
      rw [hempty] at this
      cases this
    | last hpast =>
      omega
    | before first rest hcut hlt _ =>
      have := OrderedMap.lt_of_first hcut hlt iter (hcut ▸ hlast.mem)
      omega
    | after pre t rest hcut htle hrest hpast =>
      obtain rfl := hlast.unique (OrderedMap.lastAt_of_cut hcut htle hrest)
      omega
  | newAppendOld first rest _ hcut hlt _ _ =>
    have := OrderedMap.lt_of_first hcut hlt iter (hcut ▸ hlast.mem)
    omega
  | appendNewToOld pre base rest heq hcut hbase hrest _ _ =>
    obtain rfl := hlast.unique (OrderedMap.lastAt_of_cut hcut hbase hrest)
    exact ⟨rest, heq⟩

/-- A write that ends in the block it falls on changes neither the blocks nor their count,
unless it trips at its first byte. -/
theorem writeBlocks_inside {iter : Nat × Val} (hdata : data ≠ []) (hfit : fpos + data.length < 2 ^ 64)
    (hlast : w.file.svf.LastAt fpos iter) (hstop : fpos + data.length ≤ iter.1 + iter.2.data.length)
    (hwithin : iter.1 + iter.2.data.length < 2 ^ 64) (hend : fpos ≤ w.file.filePositionImmediatlyAfterEnd)
    (htrip : w.file.config.compareForDiff = true → ¬ BaseTrips fpos data iter) :
    (w.writeBlocks fpos data).result = .ok () ∧
      (w.writeBlocks fpos data).world.file.segments = w.file.segments ∧
      (w.writeBlocks fpos data).world.file.bytesTotal = w.file.bytesTotal := by
  have hle := hlast.le
  have hafter := filePositionImmediatlyAfterBlock_of_lt hwithin
  obtain ⟨rest, heq⟩ := writeBlocks_onto data hlast (by omega) hend
  have hcheck := checkBase_returns (w := w) hdata hle htrip
  have hdone : data.drop (iter.1 + iter.2.data.length - fpos) = [] := List.drop_of_length_le (by omega)
  rw [heq, writeAppendNewToOld_eq hle (by omega) (by omega) (by omega) fun _ => hwithin,
    Outcome.bind_of_ok hcheck, hdone, appendLoop_nil_data, Outcome.bind_returned]
  refine ⟨rfl, ?_, ?_⟩
  · have htouch : ((checkBase fpos data iter w).world.touch iter.1).file.segments =
        (checkBase fpos data iter w).world.file.segments := segmentsOf_modify _ _ fun _ => rfl
    exact htouch.trans (by rw [checkBase_file])
  · show (checkBase fpos data iter w).world.file.bytesTotal = _
    rw [checkBase_file]

/-- Bytes written once more where they are change nothing. -/
theorem writeBlocks_again {iter : Nat × Val} (hdata : data ≠ []) (hfit : fpos + data.length < 2 ^ 64)
    (hlast : w.file.svf.LastAt fpos iter) (hstop : fpos + data.length ≤ iter.1 + iter.2.data.length)
    (hwithin : iter.1 + iter.2.data.length < 2 ^ 64)
    (hbytes : (iter.2.data.drop (fpos - iter.1)).take data.length = data)
    (hend : fpos ≤ w.file.filePositionImmediatlyAfterEnd) :
    (w.writeBlocks fpos data).result = .ok () ∧
      (w.writeBlocks fpos data).world.file.segments = w.file.segments ∧
      (w.writeBlocks fpos data).world.file.bytesTotal = w.file.bytesTotal := by
  refine writeBlocks_inside hdata hfit hlast hstop hwithin hend fun _ htrips => htrips.2 ?_
  have hhead := congrArg List.head? hbytes
  rw [List.head?_take, if_neg (by simpa using hdata), List.head?_drop] at hhead
  exact hhead

/-- Such a write keeps its promise. -/
theorem agreeingKept_of_clear (now : Int) (hsep : Segments.Separated w.file.segments) (hs : Representable w.file)
    (hdata : data ≠ []) (hfit : fpos + data.length < 2 ^ 64) (hagree : ¬ w.file.Conflict fpos data)
    (hclear : w.file.StaysClear fpos data.length) : AgreeingKept w now fpos data := by
  obtain ⟨hresult, ⟨iter, hlanded⟩, hkeeps⟩ := settled_of_clear hsep hs hdata hfit hagree hclear
  have hwrite := write_eq now fpos data hresult
  have hsize := hlanded.size hs
  refine ⟨by rw [hwrite]; rfl, ?_, fun now' => ?_, fun now' q n bytes hn _ hq hlength hread => ?_, fun now' => ?_⟩
  · rw [hwrite]
    exact hlanded.has hfit
  · rw [hwrite]
    exact read_of_reads hlanded.reads (by omega) (.inl hfit)
  · rw [hwrite]
    exact read_of_reads (hkeeps hn (reads_of_read hread hlength hn hq)) hq (.inr hsize)
  · rw [hwrite, Outcome.returned_world]
    obtain ⟨hagain, hsegments, hbytes⟩ := writeBlocks_again
      (w := (w.writeBlocks fpos data).world.countWrite now data.length) hdata hfit hlanded.lastAt hlanded.stop
      hlanded.within hlanded.bytes (hlanded.le_end hs fun t ht hwraps => (hclear t ht hwraps).1)
    rw [write_eq now' fpos data hagain]
    exact ⟨hsegments, hbytes⟩

end Settled

/-! ### The block that runs out of the range -/

section Wraps
variable {w : World} {fpos : Nat} {data : List Byte} {last : Nat × Val}

/-- The last block is one that none begins after. -/
theorem SparseVirtualFile.end_of_last {s : SparseVirtualFile} (hmem : last ∈ s.svf.entries)
    (hlast : ∀ t ∈ s.svf.entries, t.1 ≤ last.1) :
    s.filePositionImmediatlyAfterEnd = filePositionImmediatlyAfterBlock last := by
  obtain ⟨pre, rest, hcut⟩ := List.append_of_mem hmem
  have hrest : rest = [] := by
    apply List.eq_nil_iff_forall_not_mem.mpr
    intro t ht
    have hle := hlast t (by simp [hcut, ht])
    exact absurd ((OrderedMap.cut_lt s.svf.sorted hcut).2 t ht) (not_lt.mpr hle)
  rw [hrest] at hcut
  exact end_of_concat hcut

/-- A block that runs out of the range is the last one. -/
theorem last_of_wraps (hsep : Segments.Separated w.file.segments) (hs : Representable w.file)
    (hlast : last ∈ w.file.svf.entries) (hwraps : 2 ^ 64 ≤ last.1 + last.2.data.length) {t : Nat × Val}
    (ht : t ∈ w.file.svf.entries) : t.1 ≤ last.1 := by
  obtain ⟨pre, rest, hcut⟩ := List.append_of_mem hlast
  rcases cases_of_cut hsep hcut ht with ⟨_, hlt⟩ | rfl | ⟨_, hlt⟩
  · omega
  · exact le_refl _
  · have := hs.position t ht
    omega

/-- One more byte than is written can be read there, from a block that goes on. -/
theorem reads_of_le {s : SparseVirtualFile} {n : Nat} (hlast : s.svf.LastAt fpos last)
    (hn : fpos + n ≤ last.1 + last.2.data.length) : ∃ bytes, bytes.length = n ∧ s.Reads fpos n bytes := by
  have hle := hlast.le
  refine ⟨_, ?_, last, hlast, by omega, rfl⟩
  rw [List.length_take, List.length_drop]
  omega

/-- What an agreeing write keeps, for the blocks. -/
theorem AgreeingKept.reads {now : Int} (h : AgreeingKept w now fpos data) (hs : Representable w.file) {q n : Nat}
    {bytes : List Byte} (hn : 0 < n) (hn' : n < 2 ^ 64) (hq : q < 2 ^ 64) (hlength : bytes.length = n)
    (hreads : w.file.Reads q n bytes) : (w.write now fpos data).world.file.Reads q n bytes :=
  reads_of_read (h.keeps now q n bytes hn hn' hq hlength (read_of_reads hreads hq (.inr hs.size)))
    hlength hn hq

theorem AgreeingKept.blocks {now : Int} (h : AgreeingKept w now fpos data) :
    (w.writeBlocks fpos data).result = .ok () := by
  have hreturns := h.returns
  cases hr : (w.writeBlocks fpos data).result with
  | ok u => rfl
  | error e =>
    rw [write, Outcome.bind_of_error hr] at hreturns
    cases hreturns

/-- A write that keeps its promise begins by the end the file seems to have. -/
theorem AgreeingKept.le_end {now : Int} (h : AgreeingKept w now fpos data)
    (hsep : Segments.Separated w.file.segments) (hs : Representable w.file) (hdata : data ≠ [])
    (hfit : fpos + data.length < 2 ^ 64) (hlast : last ∈ w.file.svf.entries) (hwraps : 2 ^ 64 ≤ last.1 + last.2.data.length) :
    fpos ≤ w.file.filePositionImmediatlyAfterEnd := by
  by_contra hpast
  have hlen := List.length_pos_iff.mpr hdata
  have hnew := writeBlocks_past data (not_le.mp hpast)
  have hwrite := write_eq now fpos data h.blocks
  have hresult := h.blocks
  rw [hnew] at hwrite hresult
  obtain ⟨hcut, hpre, hpost⟩ := OrderedMap.cut_of_absent (absent_of_newBlock hresult)
  have hentries := writeNewBlock_entries data hcut hpre hpost
  have hmem := fun t => mem_writeNewBlock data hcut hpre hpost (t := t)
  have htop := fun t => last_of_wraps hsep hs hlast hwraps (t := t)
  have hne := (OrderedMap.find?_eq_none_iff.mp (absent_of_newBlock hresult)) last hlast
  rcases Nat.lt_or_ge fpos last.1 with hbefore | hafter
  · -- The last block stays the last one, and the second write is a new block as well.
    have hsame : (w.write now fpos data).world.file.filePositionImmediatlyAfterEnd =
        w.file.filePositionImmediatlyAfterEnd := by
      rw [w.file.end_of_last hlast htop, hwrite]
      refine SparseVirtualFile.end_of_last ((hmem last).mpr (.inr hlast)) fun t ht => ?_
      rcases (hmem t).mp ht with rfl | hold
      · exact hbefore.le
      · exact htop t hold
    have hagain := (h.again now).2
    rw [write_bytesTotal, writeBlocks_past data (by omega), writeNewBlock_bytesTotal, hwrite] at hagain
    have htotal : (w.writeNewBlock fpos data).world.file.bytesTotal < 2 ^ 64 := by
      rw [writeNewBlock_bytesTotal]
      exact Wrap.add_lt
    have hagain : ((w.writeNewBlock fpos data).world.file.bytesTotal + data.length) % 2 ^ 64 =
      (w.writeNewBlock fpos data).world.file.bytesTotal := hagain
    omega
  · -- The new block stands in the way of the last one.
    have hat : w.file.svf.LastAt fpos last := ⟨hlast, hafter, fun t ht _ => htop t ht⟩
    obtain ⟨bytes, hlength, hreads⟩ := reads_of_le (n := data.length + 1) hat (by omega)
    obtain ⟨iter, hiter, hfits, _⟩ := h.reads hs (by omega) (by omega) (by omega) hlength hreads
    rw [hwrite] at hiter
    obtain rfl := hiter.unique (OrderedMap.lastAt_of_cut hentries (le_refl fpos) hpost)
    simp only at hfits
    omega

/-- In front of all blocks a write that reaches the last one is all that is left, and the
byte after it is lost. -/
theorem AgreeingKept.not_prepend {now : Int} (h : AgreeingKept w now fpos data)
    (hsep : Segments.Separated w.file.segments) (hs : Representable w.file)
    (hfit : fpos + data.length < 2 ^ 64) (hagree : ¬ w.file.Conflict fpos data)
    (hlast : last ∈ w.file.svf.entries) (hwraps : 2 ^ 64 ≤ last.1 + last.2.data.length)
    (hreach : last.1 ≤ fpos + data.length) {iter : Nat × Val} {rest : List (Nat × Val)}
    (hcut : w.file.svf.entries = iter :: rest) (hlt : fpos < iter.1) :
    w.writeBlocks fpos data ≠ w.writeNewAppendOld fpos data (iter :: rest) := by
  intro heq
  have hbeyond := OrderedMap.lt_of_first hcut hlt
  have hentries := (writeNewAppendOld_drops hcut (hs.ahead_first hsep hcut hbeyond) hfit
    (fun _ _ hnext htrip => not_differsAt_of_front hsep hagree hcut hlt hnext htrip.differs)
    (hcut ▸ hlast) hwraps hreach).2
  have hat : w.file.svf.LastAt (fpos + data.length) last :=
    ⟨hlast, hreach, fun t ht _ => last_of_wraps hsep hs hlast hwraps ht⟩
  obtain ⟨bytes, hlength, hreads⟩ := reads_of_le (n := 1) hat (by omega)
  obtain ⟨t, ht, hfits, _⟩ := h.reads hs (by omega) (by omega) hfit hlength hreads
  rw [write_eq now fpos data h.blocks, heq] at ht
  have hmem : t ∈ (w.writeNewAppendOld fpos data (iter :: rest)).world.file.svf.entries := ht.mem
  rw [hentries] at hmem
  rw [List.mem_singleton.mp hmem] at hfits
  simp only at hfits
  omega

/-- A block grown over the last one ends where that one does, which is computed to be
before its start. -/
theorem AgreeingKept.not_append {now : Int} (h : AgreeingKept w now fpos data)
    (hsep : Segments.Separated w.file.segments) (hs : Representable w.file) (hdata : data ≠ [])
    (hfit : fpos + data.length < 2 ^ 64) (hagree : ¬ w.file.Conflict fpos data)
    (hlast : last ∈ w.file.svf.entries) (hwraps : 2 ^ 64 ≤ last.1 + last.2.data.length)
    (hreach : last.1 ≤ fpos + data.length) {pre rest : List (Nat × Val)} {base : Nat × Val}
    (hcut : w.file.svf.entries = pre ++ base :: rest) (hle : base.1 ≤ fpos)
    (hrest : ∀ next ∈ rest, fpos < next.1) (hstop : fpos ≤ base.1 + base.2.data.length)
    (hwithin : base.1 + base.2.data.length < 2 ^ 64) :
    w.writeBlocks fpos data ≠ w.writeAppendNewToOld fpos data base rest := by
  intro heq
  have hsize := hs.size last hlast
  have hlater : last ∈ rest := by
    rcases cases_of_cut hsep hcut hlast with ⟨_, hbefore⟩ | rfl | ⟨hmem, _⟩
    · omega
    · omega
    · exact hmem
  have hbeyond := (lt_of_separated hsep hcut).2 last hlater
  obtain ⟨remaining, hsuffix, _, hentries⟩ :=
    (grown_of_agree hsep hs hdata hfit hagree hcut hle hstop).entries
  have hlen := List.length_drop (l := data) (i := base.1 + base.2.data.length - fpos)
  have hgrown : base.1 + base.2.data.length + (Segments.absorb (base.1 + base.2.data.length)
      (data.drop (base.1 + base.2.data.length - fpos)) (segmentsOf rest)).1.length =
      Segments.stop (last.1, last.2.data) :=
    Segments.absorb_stop_eq (separated_of_cut hsep hcut) (mem_segmentsOf.mpr ⟨last, hlater, rfl⟩)
      (by simp only; omega) (by simp only [Segments.stop_mk]; omega)
  rw [Segments.stop_mk] at hgrown
  have hhas := h.has
  rw [write_eq now fpos data h.blocks, heq] at hhas
  have hhas : (w.writeAppendNewToOld fpos data base rest).world.file.has fpos data.length = true := hhas
  rw [SparseVirtualFile.has_of_cut hentries hle fun next hnext => hrest next (hsuffix.subset hnext),
    decide_eq_true_iff, sizeAdd_of_lt hfit] at hhas
  have hsame : filePositionImmediatlyAfterBlock (base.1, ⟨base.2.data ++
      (Segments.absorb (base.1 + base.2.data.length) (data.drop (base.1 + base.2.data.length - fpos))
        (segmentsOf rest)).1, w.file.blockTouch⟩) = filePositionImmediatlyAfterBlock last := by
    refine congrArg (· % 2 ^ 64) ?_
    simp only [List.length_append]
    omega
  have hafter := hs.after_of_wraps hlast hwraps
  omega

/-- A write that keeps its promise and reaches the last block is put before it, between
the blocks. -/
theorem AgreeingKept.between_of_reached {now : Int} (h : AgreeingKept w now fpos data)
    (hsep : Segments.Separated w.file.segments) (hs : Representable w.file) (hdata : data ≠ [])
    (hfit : fpos + data.length < 2 ^ 64) (hagree : ¬ w.file.Conflict fpos data)
    (hlast : last ∈ w.file.svf.entries) (hwraps : 2 ^ 64 ≤ last.1 + last.2.data.length)
    (hend : fpos ≤ w.file.filePositionImmediatlyAfterEnd) (hlt : fpos < last.1)
    (hreach : last.1 ≤ fpos + data.length) : w.file.RunsIntoNext fpos data.length := by
  cases writeBlocks_cases fpos data w with
  | newBlock _ hcase =>
    cases hcase with
    | first hempty =>
      rw [hempty] at hlast
      cases hlast
    | last hpast =>
      omega
    | before iter rest hcut _ hshort =>
      rw [sizeAdd_of_lt hfit] at hshort
      have := OrderedMap.lt_of_first hcut hshort last (hcut ▸ hlast)
      omega
    | after pre iter rest hcut hle hrest hpast =>
      have hmem : iter ∈ w.file.svf.entries := by simp [hcut]
      refine ⟨⟨_, SparseVirtualFile.mem_blocks.mpr ⟨iter, hmem, rfl⟩, hle⟩, fun b hb hb' => ?_,
        _, SparseVirtualFile.mem_blocks.mpr ⟨last, hlast, rfl⟩, hlt, hreach⟩
      obtain ⟨t, ht, rfl⟩ := SparseVirtualFile.mem_blocks.mp hb
      have hstops := stop_lt_of_past hsep hs hcut hpast hend
      simp only at hb' ⊢
      rcases cases_of_cut hsep hcut ht with ⟨_, hlt'⟩ | rfl | ⟨hmem', _⟩
      · omega
      · exact hstops
      · have := hrest t hmem'
        omega
  | newAppendOld iter rest heq hcut hbefore _ _ =>
    exact absurd heq (h.not_prepend hsep hs hfit hagree hlast hwraps hreach hcut hbefore)
  | appendNewToOld pre base rest heq hcut hle hrest hstop _ =>
    have hmem : base ∈ w.file.svf.entries := by simp [hcut]
    obtain ⟨hwithin, hstop'⟩ := within_of_reached (hs.size base hmem) hle (by omega) hstop
    exact absurd heq (h.not_append hsep hs hdata hfit hagree hlast hwraps hreach hcut hle hrest hstop' hwithin)

end Wraps

/-- **An agreeing write hides nothing** exactly where it stays clear of a block that runs
out of the `size_t` range. -/
theorem agreeing_write_iff (w : World) (now : Int) (fpos : Nat) (data : List Byte)
    (hsep : Segments.Separated w.file.segments) (hs : Representable w.file) (hdata : data ≠ [])
    (hfit : fpos + data.length < 2 ^ 64) (hagree : ¬ w.file.Conflict fpos data) :
    AgreeingKept w now fpos data ↔ w.file.StaysClear fpos data.length := by
  refine ⟨fun h last hlast hwraps => ?_, agreeingKept_of_clear now hsep hs hdata hfit hagree⟩
  have hend := h.le_end hsep hs hdata hfit hlast hwraps
  have hafter := hs.after_of_wraps hlast hwraps
  have hseems := hend
  rw [w.file.end_of_last hlast fun t ht => last_of_wraps hsep hs hlast hwraps ht, hafter] at hseems
  have hsize := hs.size last hlast
  refine ⟨by omega, ?_⟩
  rcases Nat.lt_or_ge (fpos + data.length) last.1 with hbeyond | hreach
  · exact .inl hbeyond
  · exact .inr (h.between_of_reached hsep hs hdata hfit hagree hlast hwraps hend (by omega) hreach)

theorem agreeing_write_iff_between : AgreeingKept lastBlock 0 9 [9, 10] ↔ lastBlock.file.StaysClear 9 2 :=
  agreeing_write_iff lastBlock 0 9 [9, 10] separated_lastBlock representable_lastBlock (by decide) (by decide)
    (by decide)

/-- The byte that is there already cannot be written. -/
theorem not_agreeing_write : ¬ ∀ (w : World) (now : Int) (fpos : Nat) (data : List Byte),
    Segments.Separated w.file.segments → Representable w.file → data ≠ [] → fpos + data.length < 2 ^ 64 →
    ¬ w.file.Conflict fpos data → AgreeingKept w now fpos data := by
  intro h
  have hkept := h lastBlock 0 (2 ^ 64 - 2) [1] separated_lastBlock representable_lastBlock (by decide)
    (by decide) (by decide)
  have hthrows : (lastBlock.write 0 (2 ^ 64 - 2) [1]).result ≠ .ok () := by decide
  exact hthrows hkept.returns

end Svfs
