import Svfs.File.Command
import Svfs.Query.Read
import Svfs.Write.Diff

/-! Reading what was written.

After a write that returned, the last block that begins at or before its position has all
of the range, so that a read of it succeeds. What it reads is the data, but for the block
the write fell on: that one keeps its own bytes. Where differences are looked for, it is
for the write to throw (`Diff`); where they are not, that is how two writes of different
bytes end. -/
namespace Svfs
open World

/-- The block a write falls on, as the source finds it. -/
structure SparseVirtualFile.FallsOn (s : SparseVirtualFile) (fpos : Nat) (base : Nat × Val) : Prop where
  mem : base ∈ s.svf.entries
  start : base.1 ≤ fpos
  stop : fpos ≤ filePositionImmediatlyAfterBlock base
  within : fpos ≤ s.filePositionImmediatlyAfterEnd

/-- The bytes of a block from a position on, and past them those of the data. -/
def keptThenWritten (base : Nat × Val) (fpos : Nat) (data : List Byte) : List Byte :=
  (base.2.data.drop (fpos - base.1) ++ data.drop (base.1 + base.2.data.length - fpos)).take data.length

/-- The block agrees with the bytes written over it. -/
def AgreesWith (base : Nat × Val) (fpos : Nat) (data : List Byte) : Prop :=
  ∀ i, fpos + i < base.1 + base.2.data.length → i < data.length →
    base.2.data[fpos - base.1 + i]? = data[i]?

section ReadBack
variable {w : World} {fpos : Nat} {data : List Byte} {base : Nat × Val}

theorem keptThenWritten_of_agrees (hle : base.1 ≤ fpos) (hstop : fpos ≤ base.1 + base.2.data.length)
    (h : AgreesWith base fpos data) : keptThenWritten base fpos data = data := by
  apply List.ext_getElem?
  intro i
  unfold keptThenWritten
  rw [List.getElem?_take]
  split
  · rename_i hi
    rcases Nat.lt_or_ge (fpos + i) (base.1 + base.2.data.length) with hkept | hpast
    · rw [List.getElem?_append_left (by rw [List.length_drop]; omega), List.getElem?_drop]
      exact h i hkept hi
    · rw [List.getElem?_append_right (by rw [List.length_drop]; omega), List.getElem?_drop, List.length_drop]
      congr 1
      omega
  · rw [List.getElem?_eq_none (by omega)]

/-- A block of the data and more, put in at its position, reads as the data. -/
theorem reads_of_new {s : SparseVirtualFile} {pre rest : List (Nat × Val)} {more : List Byte} {touch : Nat}
    (hcut : s.svf.entries = pre ++ (fpos, ⟨data ++ more, touch⟩) :: rest)
    (hrest : ∀ next ∈ rest, fpos < next.1) : s.Reads fpos data.length data := by
  refine ⟨_, OrderedMap.lastAt_of_cut hcut (le_refl _) hrest, ?_, ?_⟩
  · rw [List.length_append]
    omega
  · rw [Nat.sub_self, List.drop_zero, List.take_left]

/-- A block grown by the data, and more, reads as it was and then as the data. -/
theorem reads_of_grown {s : SparseVirtualFile} {pre rest : List (Nat × Val)} {more : List Byte} {touch : Nat}
    (hcut : s.svf.entries = pre ++ (base.1, ⟨base.2.data ++
      (data.drop (base.1 + base.2.data.length - fpos) ++ more), touch⟩) :: rest)
    (hle : base.1 ≤ fpos) (hstop : fpos ≤ base.1 + base.2.data.length)
    (hrest : ∀ next ∈ rest, fpos < next.1) : s.Reads fpos data.length (keptThenWritten base fpos data) := by
  refine ⟨_, OrderedMap.lastAt_of_cut hcut hle hrest, ?_, ?_⟩
  · simp only [List.length_append, List.length_drop]
    omega
  · simp only
    rw [List.drop_append_of_le_length (by omega), ← List.append_assoc, List.take_append_of_le_length]
    · rfl
    · simp only [List.length_append, List.length_drop]
      omega

/-- No block starts after `fpos` in what is put behind a cut. -/
theorem fallsOn_unique (hsep : Segments.Separated w.file.segments) (hs : Representable w.file)
    {pre rest : List (Nat × Val)} (hcut : w.file.svf.entries = pre ++ base :: rest) (hle : base.1 ≤ fpos)
    (hrest : ∀ next ∈ rest, fpos < next.1) {t : Nat × Val} (h : w.file.FallsOn fpos t) : t = base := by
  rcases cases_of_cut hsep hcut h.mem with ⟨_, hlt⟩ | heq | ⟨hmem, _⟩
  · have hposition := hs.position base (by simp [hcut])
    have hstop := h.stop
    rw [filePositionImmediatlyAfterBlock_of_lt (by omega)] at hstop
    omega
  · exact heq
  · have := hrest t hmem
    have := h.start
    omega

/-- A write falls on no block where it puts a new one. -/
theorem not_fallsOn_of_newBlock (hsep : Segments.Separated w.file.segments) (hs : Representable w.file)
    (hcase : w.file.PutsNew fpos data.length) :
    ¬ w.file.FallsOn fpos base := by
  intro h
  have hmem := h.mem
  have hstart := h.start
  cases hcase with
  | first hempty =>
    rw [hempty] at hmem
    cases hmem
  | last hpast =>
    exact absurd h.within (by omega)
  | before iter rest hcut hlt _ =>
    rw [hcut] at hmem
    have := OrderedMap.lt_of_first hcut hlt base hmem
    omega
  | after pre iter rest hcut hle hrest hpast =>
    obtain rfl := fallsOn_unique hsep hs hcut hle hrest h
    exact absurd h.stop (by omega)

/-- A new block goes in where no block begins. -/
theorem absent_of_newBlock (h : (w.writeNewBlock fpos data).result = .ok ()) :
    w.file.svf.find? fpos = none := by
  rw [← OrderedMap.size_insert_eq_iff w.file.svf fpos ⟨data, w.file.blockTouch⟩]
  by_contra hsize
  simp [writeNewBlock, insertNew, hsize] at h

/-- A new block that went in is found. -/
theorem reads_of_newBlock (h : (w.writeNewBlock fpos data).result = .ok ()) :
    (w.writeNewBlock fpos data).world.file.Reads fpos data.length data := by
  obtain ⟨hcut, hpre, hpost⟩ := OrderedMap.cut_of_absent (absent_of_newBlock h)
  have hentries : (w.writeNewBlock fpos data).world.file.svf.entries =
      (w.file.svf.lowerBound fpos).before ++
        (fpos, ⟨data ++ [], w.file.blockTouch⟩) :: (w.file.svf.lowerBound fpos).after := by
    rw [writeNewBlock_entries data hcut hpre hpost, List.append_nil]
  exact reads_of_new hentries hpost

/-- A block put in front of those it reaches is found, whether or not the last of them runs
out of the range. -/
theorem reads_of_prepend (hsep : Segments.Separated w.file.segments) (hs : Representable w.file)
    (hfit : fpos + data.length < 2 ^ 64) {iter : Nat × Val} {rest : List (Nat × Val)}
    (hcut : w.file.svf.entries = iter :: rest) (hlt : fpos < iter.1) (hreach : iter.1 ≤ fpos + data.length)
    (h : (w.writeNewAppendOld fpos data (iter :: rest)).Returns) :
    (w.writeNewAppendOld fpos data (iter :: rest)).world.file.Reads fpos data.length data := by
  have hbeyond := OrderedMap.lt_of_first hcut hlt
  have hahead := hs.ahead_first hsep hcut hbeyond
  have hdata : data ≠ [] := List.ne_nil_of_length_pos (by omega)
  have htrip : w.file.config.compareForDiff = true →
      ∀ next ∈ iter :: rest, ¬ TripsAt fpos data next.2.data next := by
    intro hc next hnext htrips
    obtain ⟨a, ha⟩ := h
    obtain ⟨m, hm⟩ := (writeNewAppendOld_throws hcut hahead hfit hc ⟨next, hnext, htrips⟩).1
    rw [hm] at ha
    cases ha
  by_cases hstops : ∀ next ∈ iter :: rest, next.1 ≤ fpos + data.length →
    next.1 + next.2.data.length < 2 ^ 64
  · obtain ⟨remaining, hsuffix, hentries⟩ :=
      (writeNewAppendOld_fronted hcut hdata hahead hreach hfit hstops htrip).entries
    obtain ⟨more, hmore⟩ := Segments.absorb_prefix fpos data w.file.segments
    rw [hmore] at hentries
    rw [hcut] at hsuffix
    rw [← List.nil_append (_ :: remaining)] at hentries
    exact reads_of_new hentries fun next hnext => hbeyond next (hsuffix.subset hnext)
  · push Not at hstops
    obtain ⟨last, hlast, hle, hwraps⟩ := hstops
    have hentries : (w.writeNewAppendOld fpos data (iter :: rest)).world.file.svf.entries =
        [] ++ (fpos, ⟨data ++ [], w.file.blockTouch⟩) :: [] := by
      rw [(writeNewAppendOld_drops hcut hahead hfit htrip hlast hwraps hle).2, List.append_nil]
      rfl
    exact reads_of_new hentries (by simp)

/-- A block written onto is found, with its own bytes first. -/
theorem reads_of_append (hsep : Segments.Separated w.file.segments) (hs : Representable w.file)
    (hdata : data ≠ []) (hfit : fpos + data.length < 2 ^ 64) {pre rest : List (Nat × Val)}
    (hcut : w.file.svf.entries = pre ++ base :: rest) (hle : base.1 ≤ fpos)
    (hrest : ∀ next ∈ rest, fpos < next.1) (hstop : fpos ≤ base.1 + base.2.data.length)
    (hwithin : base.1 + base.2.data.length < 2 ^ 64)
    (h : (w.writeAppendNewToOld fpos data base rest).Returns) :
    (w.writeAppendNewToOld fpos data base rest).world.file.Reads fpos data.length
      (keptThenWritten base fpos data) := by
  obtain ⟨a, ha⟩ := h
  have hmem : base ∈ w.file.svf.entries := by simp [hcut]
  have hne := hsep.nonempty _ (SparseVirtualFile.mem_segments hmem)
  have hsize := hs.size base hmem
  have hahead := hs.ahead hsep (by rw [hcut, List.append_cons]) (lt_of_separated hsep hcut).2
  have hbaseTrip : w.file.config.compareForDiff = true → ¬ BaseTrips fpos data base := by
    intro hc htrips
    have hthrows : ∃ m, (w.writeAppendNewToOld fpos data base rest).result = .error (.diff m) :=
      (writeAppendNewToOld_baseThrows rest hdata hle hstop hsize (by omega) (by omega) hc htrips).1
    obtain ⟨m, hm⟩ := hthrows
    rw [hm] at ha
    cases ha
  have htrip : w.file.config.compareForDiff = true → ∀ next ∈ rest,
      ¬ TripsAt (base.1 + base.2.data.length) (data.drop (base.1 + base.2.data.length - fpos))
        base.2.data next := by
    intro hc next hnext htrips
    obtain ⟨m, hm⟩ := writeAppendNewToOld_throws hcut hdata hne hle hstop hwithin hahead hfit hc
      (hbaseTrip hc) ⟨next, hnext, htrips⟩
    rw [hm] at ha
    cases ha
  obtain ⟨remaining, hsuffix, _, hentries⟩ := (writeAppendNewToOld_grown hcut hdata hne hle hstop hsize
    hahead hfit hs.bytesTotal hbaseTrip htrip).entries
  obtain ⟨more, hmore⟩ := Segments.absorb_prefix (base.1 + base.2.data.length)
    (data.drop (base.1 + base.2.data.length - fpos)) (segmentsOf rest)
  rw [hmore] at hentries
  exact reads_of_grown hentries hle hstop fun next hnext => hrest next (hsuffix.subset hnext)

/-- What a write that returned left to be read back. -/
theorem reads_of_write (hsep : Segments.Separated w.file.segments) (hs : Representable w.file)
    (hdata : data ≠ []) (hfit : fpos + data.length < 2 ^ 64) (h : (w.writeBlocks fpos data).Returns) :
    ((∀ base, ¬ w.file.FallsOn fpos base) ∧
      (w.writeBlocks fpos data).world.file.Reads fpos data.length data) ∨
    ∃ base, w.file.FallsOn fpos base ∧ (∀ t, w.file.FallsOn fpos t → t = base) ∧
      fpos ≤ base.1 + base.2.data.length ∧
      (w.writeBlocks fpos data).world.file.Reads fpos data.length (keptThenWritten base fpos data) := by
  cases writeBlocks_cases fpos data w with
  | newBlock heq hcase =>
    rw [heq] at h ⊢
    obtain ⟨_, hok⟩ := h
    exact .inl ⟨fun base => not_fallsOn_of_newBlock hsep hs hcase, reads_of_newBlock hok⟩
  | newAppendOld iter rest heq hcut hlt hreach _ =>
    rw [heq] at h ⊢
    rw [sizeAdd_of_lt hfit] at hreach
    refine .inl ⟨fun base hbase => ?_, reads_of_prepend hsep hs hfit hcut hlt hreach h⟩
    have := OrderedMap.lt_of_first hcut hlt base (hcut ▸ hbase.mem)
    have := hbase.start
    omega
  | appendNewToOld pre base rest heq hcut hle hrest hstop hend =>
    rw [heq] at h ⊢
    have hmem : base ∈ w.file.svf.entries := by simp [hcut]
    obtain ⟨hwithin, hstop'⟩ := within_of_reached (hs.size base hmem) hle (by omega) hstop
    exact .inr ⟨base, ⟨hmem, hle, hstop, hend⟩, fun t ht => fallsOn_unique hsep hs hcut hle hrest ht, hstop',
      reads_of_append hsep hs hdata hfit hcut hle hrest hstop' hwithin h⟩

end ReadBack

/-- What is read back after a write: as many bytes as were written, which are those written
if the block the write fell on agrees with them; and with no look for differences those that
block holds, and then those written. -/
structure ReadsBack (w : World) (fpos : Nat) (data bytes : List Byte) : Prop where
  length : bytes.length = data.length
  agreed : (∀ base, w.file.FallsOn fpos base → AgreesWith base fpos data) → bytes = data
  unchecked : w.file.config.compareForDiff = false → ∀ base, w.file.FallsOn fpos base →
    bytes = keptThenWritten base fpos data

/-- **A write is read back.** -/
theorem write_reads_back (w : World) (now now' : Int) (fpos : Nat) (data : List Byte)
    (hsep : Segments.Separated w.file.segments) (hs : Representable w.file) (hdata : data ≠ [])
    (hfit : fpos + data.length < 2 ^ 64) (h : (w.write now fpos data).Returns) :
    ∃ bytes, ((w.write now fpos data).world.read now' fpos data.length).result = .ok bytes ∧
      ReadsBack w fpos data bytes := by
  have hblocks : (w.writeBlocks fpos data).result = .ok () := by
    obtain ⟨_, ha⟩ := h
    cases hr : (w.writeBlocks fpos data).result with
    | ok u => rfl
    | error e =>
      rw [write, Outcome.bind_of_error hr] at ha
      cases ha
  rw [write_eq now fpos data hblocks]
  rcases reads_of_write hsep hs hdata hfit ⟨_, hblocks⟩ with ⟨hnone, hreads⟩ |
    ⟨base, hbase, hunique, hstop, hreads⟩
  · refine ⟨data, read_of_reads hreads (by omega) (.inl hfit), rfl, fun _ => rfl, fun _ base hbase => ?_⟩
    exact absurd hbase (hnone base)
  · refine ⟨keptThenWritten base fpos data, read_of_reads hreads (by omega) (.inl hfit), ?_,
      fun hagree => ?_, fun _ t ht => ?_⟩
    · simp only [keptThenWritten, List.length_take, List.length_append, List.length_drop]
      have := hbase.start
      omega
    · exact keptThenWritten_of_agrees hbase.start hstop (hagree base hbase)
    · rw [hunique t ht]

/-- A file that does not look for differences. -/
def unchecked : World :=
  Run.run Command.step (World.new [] 0 {compareForDiff := false}) [.write 0 4 [1, 2], .write 0 8 [3, 4]]

theorem separated_unchecked : Segments.Separated unchecked.file.segments := ⟨by decide, by decide⟩

theorem representable_unchecked : Representable unchecked.file := ⟨by decide, by decide, by decide⟩

theorem write_reads_back_over : ∃ bytes,
    ((unchecked.write 0 5 [7, 8, 9, 10]).world.read 0 5 4).result = .ok bytes ∧
      ReadsBack unchecked 5 [7, 8, 9, 10] bytes :=
  write_reads_back unchecked 0 0 5 [7, 8, 9, 10] separated_unchecked representable_unchecked (by decide)
    (by decide) ⟨(), rfl⟩

/-- What differs from the block written onto is not there afterwards. -/
theorem not_write_reads_back : ¬ ∀ (w : World) (now now' : Int) (fpos : Nat) (data : List Byte),
    Segments.Separated w.file.segments → Representable w.file → data ≠ [] → fpos + data.length < 2 ^ 64 →
    (w.write now fpos data).Returns →
    ((w.write now fpos data).world.read now' fpos data.length).result = .ok data := by
  intro h
  have hread := h unchecked 0 0 5 [7, 8, 9, 10] separated_unchecked representable_unchecked (by decide)
    (by decide) ⟨(), rfl⟩
  have hkept : ((unchecked.write 0 5 [7, 8, 9, 10]).world.read 0 5 4).result = .ok [2, 8, 9, 10] := by decide
  rw [List.length_cons, List.length_cons, List.length_cons, List.length_cons, List.length_nil, hkept] at hread
  cases hread

end Svfs
