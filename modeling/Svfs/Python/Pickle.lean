import Svfs.Python.SparseVirtualFile
import Svfs.Query.Read
import Svfs.Write.Effect

/-! Unpickling restores the contents.

`__getstate__` reads the blocks of a file back as they are (`getstate_returns`);
`__setstate__` writes them to a new file of the default configuration, each of them past
the end of those before, so that each becomes a block of its own
(`setstateBlocks_returns`). -/
namespace Svfs

namespace World
variable {w : World}

/-- A read of just a block gives its bytes. -/
theorem read_block (now : Int) {seg : Segments.Segment Byte} (hseg : seg ∈ w.file.segments)
    (hsize : seg.2.length < 2 ^ 64) : (w.read now seg.1 seg.2.length).result = .ok seg.2 := by
  obtain ⟨iter, hiter, rfl⟩ := mem_segmentsOf.mp hseg
  replace hsize : iter.2.data.length < 2 ^ 64 := hsize
  rcases read_cases now iter.1 iter.2.data.length w with ⟨hnone, _⟩ | ⟨pre, found, rest, hcut, hle, hrest, heq⟩
  · exact absurd (hnone iter hiter) (lt_irrefl _)
  · -- The last block to begin at or before the position is the block itself.
    have hsame : iter = found := by
      obtain ⟨hbefore, _⟩ := OrderedMap.cut_lt w.file.svf.sorted hcut
      have hmem : iter ∈ pre ++ found :: rest := hcut ▸ hiter
      rcases List.mem_append.mp hmem with hmem | hmem
      · have := hbefore iter hmem
        omega
      · rcases List.mem_cons.mp hmem with heq | hmem
        · exact heq
        · exact absurd (hrest iter hmem) (lt_irrefl _)
    subst hsame
    have hoffset : sizeAdd 0 iter.2.data.length = iter.2.data.length := by
      rw [sizeAdd_of_lt (by omega), Nat.zero_add]
    rw [heq, if_pos rfl, readFrom_returns hoffset.le]
    simp

/-- A write past the end of every block adds its block at the end, wherever that ends. -/
theorem write_beyond (now : Int) {fpos : Nat} (data : List Byte) (hfpos : fpos < 2 ^ 64)
    (hbeyond : ∀ seg ∈ w.file.segments, Segments.stop seg < fpos) :
    (w.write now fpos data).result = .ok () ∧
      (w.write now fpos data).world.file.segments = w.file.segments ++ [(fpos, data)] ∧
      (w.write now fpos data).world.file.bytesTotal = sizeAdd w.file.bytesTotal data.length := by
  have hstop : ∀ t ∈ w.file.svf.entries, t.1 + t.2.data.length < fpos := fun t ht =>
    hbeyond _ (SparseVirtualFile.mem_segments ht)
  have hnew : w.writeBlocks fpos data = w.writeNewBlock fpos data := by
    rcases List.eq_nil_or_concat' w.file.svf.entries with hempty | ⟨front, last, hback⟩
    · rw [writeBlocks, if_pos]
      simp [OrderedMap.isEmpty, hempty]
    · have hlast := hstop last (by simp [hback])
      refine writeBlocks_past data ?_
      rw [SparseVirtualFile.end_of_concat hback, filePositionImmediatlyAfterBlock_of_lt (by omega)]
      exact hlast
  obtain ⟨hwritten, _⟩ := writeNewBlock_written (w := w) data (List.append_nil _).symm
    (fun t ht => (Nat.le_add_right ..).trans_lt (hstop t ht)) (by simp)
  have hbytes := writeNewBlock_bytesTotal fpos data w
  rw [← hnew] at hwritten hbytes
  rw [write_bytesTotal, write_eq now fpos data hwritten.result]
  exact ⟨rfl, hwritten.blocks, hbytes⟩

end World

namespace CpSparseVirtualFile

/-- A block as `__getstate__` gives it. -/
def segmentObject (seg : Segments.Segment Byte) : PyObject := blockObject seg.1 seg.2

/-- The items of the dict that `__getstate__` makes of a file. -/
def items (s : SparseVirtualFile) : List (String × PyObject) := [
  (pickleIdKey, fromOneByteKind s.id),
  (pickleFileModTimeKey, .float s.fileModTime),
  (pickleBlocksKey, .tuple (s.segments.map segmentObject)),
  (pickleVersionKey, .int pickleVersion)]

def pickled (s : SparseVirtualFile) : PyObject := .dict (items s)

/-- The blocks tuple of a pickled file. -/
def blocksOf : PyObject → Option PyObject
  | .dict items => PyObject.getItemString items pickleBlocksKey
  | _ => none

section Getstate
variable {self : CpSparseVirtualFile}

/-- A read that returns is handed on. -/
theorem svfReadAsPyBytes_of_read {now : Int} {fpos len : Nat} {data : List Byte}
    (h : (self.pSvf.read now fpos len).result = .ok data) : self.svfReadAsPyBytes now fpos len =
      ⟨.returned data, self.after _ (World.fixed_read now fpos len self.pSvf)⟩ := by
  simp only [svfReadAsPyBytes, h]

/-- The loop reads every block it is given, and leaves the bytes of the file and their count
alone. -/
theorem getstateBlocks_returns (clock : Nat → Int) {segs : List (Segments.Segment Byte)} (n : Nat)
    (hsegs : ∀ seg ∈ segs, seg ∈ self.pSvf.file.segments) (hsize : ∀ seg ∈ segs, seg.2.length < 2 ^ 64) :
    (getstateBlocks clock (segs.map fun seg => (seg.1, seg.2.length)) n self).result =
        .returned (segs.map segmentObject) ∧
      Fixed self.pSvf.file
        (getstateBlocks clock (segs.map fun seg => (seg.1, seg.2.length)) n self).self.pSvf.file ∧
      (getstateBlocks clock (segs.map fun seg => (seg.1, seg.2.length)) n self).self.pSvf.file.segments =
        self.pSvf.file.segments ∧
      (getstateBlocks clock (segs.map fun seg => (seg.1, seg.2.length)) n self).self.pSvf.file.bytesTotal =
        self.pSvf.file.bytesTotal := by
  induction segs generalizing n self with
  | nil => exact ⟨rfl, .refl _, rfl, rfl⟩
  | cons seg rest ih =>
    have hread := World.read_block (clock n) (hsegs seg (List.mem_cons_self ..))
      (hsize seg (List.mem_cons_self ..))
    obtain ⟨hsegments, hbytes, _⟩ := World.read_segments (clock n) seg.1 seg.2.length self.pSvf
    have hfixed := World.fixed_read (clock n) seg.1 seg.2.length self.pSvf
    have hlater : ∀ t ∈ rest, t ∈ (self.after _ hfixed).pSvf.file.segments := by
      intro t ht
      rw [after_pSvf, hsegments]
      exact hsegs t (List.mem_cons_of_mem _ ht)
    obtain ⟨hrest, hfixed', hsegments', hbytes'⟩ :=
      ih (n + 1) hlater fun t ht => hsize t (List.mem_cons_of_mem _ ht)
    simp only [List.map_cons, getstateBlocks, svfReadAsPyBytes_of_read hread]
    rw [PyOutcome.bind_of_returned hrest]
    exact ⟨rfl, hfixed.trans hfixed', hsegments'.trans hsegments, hbytes'.trans hbytes⟩

/-- **Pickling** raises nothing, and leaves the bytes of the file and their count alone. -/
theorem getstate_returns (clock : Nat → Int) (h : Representable self.pSvf.file) :
    ∃ self', self.getstate clock = ⟨.returned (pickled self.pSvf.file), self'⟩ ∧
      Fixed self.pSvf.file self'.pSvf.file ∧ self'.pSvf.file.segments = self.pSvf.file.segments ∧
      self'.pSvf.file.bytesTotal = self.pSvf.file.bytesTotal := by
  obtain ⟨hresult, hfixed, hkept⟩ := getstateBlocks_returns clock 0 (fun _ hseg => hseg)
    fun seg hseg => by
      obtain ⟨iter, hiter, rfl⟩ := mem_segmentsOf.mp hseg
      exact h.size iter hiter
  refine ⟨_, ?_, hfixed, hkept⟩
  unfold getstate
  rw [SparseVirtualFile.blocks_eq, PyOutcome.bind_of_returned hresult, hfixed.id, hfixed.fileModTime]
  rfl

end Getstate

section Setstate
variable {self : CpSparseVirtualFile}

theorem parseBlock_segmentObject {seg : Segments.Segment Byte} (h : seg.1 < 2 ^ 64) :
    parseBlock (segmentObject seg) = .ok seg := by
  simp only [segmentObject, blockObject, parseBlock, parseUnsignedLongLong_ofNat h]

/-- A block whose write returns is played back, and the loop goes on, -/
theorem setstateBlocks_cons {clock : Nat → Int} {n : Nat} {seg : Segments.Segment Byte}
    (hseg : seg.1 < 2 ^ 64) (hresult : (self.pSvf.write (clock n) seg.1 seg.2).result = .ok ())
    (rest : List PyObject) :
    setstateBlocks clock (segmentObject seg :: rest) n self = setstateBlocks clock rest (n + 1)
      (self.after _ (World.fixed_write (clock n) seg.1 seg.2 self.pSvf)) := by
  simp only [setstateBlocks, parseBlock_segmentObject hseg, hresult]

/-- and if it goes on, the write did return. -/
theorem write_of_setstateBlocks {clock : Nat → Int} {n : Nat} {seg : Segments.Segment Byte}
    {rest : List PyObject} (hseg : seg.1 < 2 ^ 64)
    (h : (setstateBlocks clock (segmentObject seg :: rest) n self).result = .returned ()) :
    (self.pSvf.write (clock n) seg.1 seg.2).result = .ok () := by
  cases hr : (self.pSvf.write (clock n) seg.1 seg.2).result with
  | ok u => rfl
  | error e =>
    simp only [setstateBlocks, parseBlock_segmentObject hseg, hr] at h
    cases h

/-- Blocks played back onto a file that ends before them are its blocks thereafter. -/
theorem setstateBlocks_returns (clock : Nat → Int) {segs : List (Segments.Segment Byte)} (n : Nat)
    (hcount : self.pSvf.file.bytesTotal = sizeAdd 0 (Segments.total self.pSvf.file.segments))
    (hsep : Segments.Separated (self.pSvf.file.segments ++ segs)) (hfpos : ∀ seg ∈ segs, seg.1 < 2 ^ 64) :
    (setstateBlocks clock (segs.map segmentObject) n self).result = .returned () ∧
      Fixed self.pSvf.file (setstateBlocks clock (segs.map segmentObject) n self).self.pSvf.file ∧
      (setstateBlocks clock (segs.map segmentObject) n self).self.pSvf.file.bytesTotal =
        sizeAdd 0 (Segments.total (self.pSvf.file.segments ++ segs)) ∧
      (setstateBlocks clock (segs.map segmentObject) n self).self.pSvf.file.segments =
        self.pSvf.file.segments ++ segs := by
  induction segs generalizing n self with
  | nil =>
    rw [List.append_nil]
    exact ⟨rfl, .refl _, hcount, rfl⟩
  | cons seg rest ih =>
    have hseg := hfpos seg (List.mem_cons_self ..)
    obtain ⟨_, _, hcross⟩ := Segments.separated_append.mp hsep
    obtain ⟨hresult, hsegments, hbytes⟩ := World.write_beyond (clock n) seg.2 hseg
      fun t ht => hcross t ht seg (List.mem_cons_self ..)
    have hfixed := World.fixed_write (clock n) seg.1 seg.2 self.pSvf
    have happend : self.pSvf.file.segments ++ seg :: rest =
        (self.after _ hfixed).pSvf.file.segments ++ rest := by
      rw [after_pSvf, hsegments, List.append_assoc]
      rfl
    have hcount' : (self.after _ hfixed).pSvf.file.bytesTotal =
        sizeAdd 0 (Segments.total (self.after _ hfixed).pSvf.file.segments) := by
      rw [after_pSvf, hbytes, hsegments, hcount, sizeAdd_assoc, Segments.total_append]
      simp
    obtain ⟨hrest, hfixed', hbytes', hsegments'⟩ := ih (n + 1) hcount' (happend ▸ hsep)
      fun t ht => hfpos t (List.mem_cons_of_mem _ ht)
    rw [List.map_cons, setstateBlocks_cons hseg hresult, happend]
    exact ⟨hrest, hfixed.trans hfixed', hbytes', hsegments'⟩

/-- A dict whose first three entries have the types asked for makes a new object, onto which
its blocks are played back. -/
theorem setstate_of_items {entries : List (String × PyObject)} {id : List Nat} {modTime : Float}
    {new : CpSparseVirtualFile} (clock : Nat → Int) (self : Option CpSparseVirtualFile)
    (hversion : PyObject.getItemString entries pickleVersionKey = some (.int pickleVersion))
    (hid : PyObject.getItemString entries pickleIdKey = some (.str id))
    (htime : PyObject.getItemString entries pickleFileModTimeKey = some (.float modTime))
    (hinit : init (.str id) modTime = some new) :
    setstate clock (.dict entries) self = setstateReplay clock entries new := by
  have hpickle : castInt (pyLongAsLong (.int pickleVersion)) = pickleVersion := by decide
  simp only [setstate, hversion, hpickle, ne_eq, not_true, if_false, hid, htime, hinit]

/-- **Unpickling** what a file pickles to raises nothing and makes a file of the default
configuration with its modification time and its blocks, over whatever the object held
before. -/
theorem setstate_pickled (clock : Nat → Int) {s : SparseVirtualFile} (hsep : Segments.Separated s.segments)
    (hs : Representable s) (hid : 0 ∉ s.id) (self : Option CpSparseVirtualFile) :
    ∃ s', setstate clock (pickled s) self = ⟨.returned .none, some s'⟩ ∧
      parseString (fromOneByteKind s.id) = some s'.pSvf.file.id ∧
      s'.pSvf.file.config = {} ∧ s'.pSvf.file.fileModTime = s.fileModTime ∧
      s'.pSvf.file.segments = s.segments ∧
      s'.pSvf.file.bytesTotal = sizeAdd 0 (Segments.total s.segments) := by
  obtain ⟨id, hparse⟩ := parseString_fromOneByteKind hid
  obtain ⟨new, hinit, hnew⟩ := init_eq hparse s.fileModTime {}
  have hempty : new.pSvf.file.segments = [] := by
    rw [hnew]
    rfl
  have hcount : new.pSvf.file.bytesTotal = sizeAdd 0 (Segments.total new.pSvf.file.segments) := by
    rw [hnew]
    rfl
  obtain ⟨hresult, hfixed, hbytes, hsegments⟩ := setstateBlocks_returns clock 0 hcount
    (by rw [hempty, List.nil_append]; exact hsep) fun seg hseg => by
      obtain ⟨iter, hiter, rfl⟩ := mem_segmentsOf.mp hseg
      exact hs.position iter hiter
  refine ⟨(setstateBlocks clock (s.segments.map segmentObject) 0 new).self, ?_, ?_, ?_, ?_, ?_, ?_⟩
  · have hblocks : PyObject.getItemString (items s) pickleBlocksKey =
        some (.tuple (s.segments.map segmentObject)) := rfl
    rw [pickled, setstate_of_items clock self rfl rfl rfl hinit]
    simp only [setstateReplay, hblocks, hresult]
  · rw [hparse, hfixed.id, hnew]
    rfl
  · rw [hfixed.config, hnew]
    rfl
  · rw [hfixed.fileModTime, hnew]
    rfl
  · rw [hsegments, hempty, List.nil_append]
  · rw [hbytes, hempty, List.nil_append]

end Setstate

/-! ### The round trip -/

/-- The second file has the contents of the first: its modification time, its blocks
with their bytes and their count, and nothing wrong with it. -/
structure Restores (s s' : SparseVirtualFile) : Prop where
  fileModTime : s'.fileModTime = s.fileModTime
  blocks : s'.blocks = s.blocks
  bytes : s'.segments = s.segments
  numBytes : s'.numBytes = s.numBytes
  integrity : s'.integrity = .none

/-- **Unpickling restores the contents.** What a well-formed `cSVF` pickles to makes,
of any object and without an error, one with the same contents, and that one pickles
to the same blocks again. -/
theorem unpickle_restores (self : CpSparseVirtualFile) (clock clock' clock'' : Nat → Int)
    (old : Option CpSparseVirtualFile) (h : Tidy self.pSvf.file) :
    ∃ state restored, (self.getstate clock).result = .returned state ∧
      setstate clock' state old = ⟨.returned .none, some restored⟩ ∧
      Restores self.pSvf.file restored.pSvf.file ∧
      ∃ state' blocks, (restored.getstate clock'').result = .returned state' ∧
        blocksOf state' = some blocks ∧ blocksOf state = some blocks := by
  obtain ⟨restored, hsetstate, _, _, htime, hsegments, hbytes⟩ :=
    setstate_pickled clock' h.separated h.representable self.id_ne_nul old
  have htidy : Tidy restored.pSvf.file := h.of_segments hsegments <| by
    rw [hbytes, ← h.bytesTotal, sizeAdd_of_lt (by have := h.representable.bytesTotal; omega), Nat.zero_add]
  obtain ⟨_, hgetstate, _⟩ := getstate_returns clock h.representable
  obtain ⟨_, hgetstate', _⟩ := getstate_returns clock'' htidy.representable
  refine ⟨_, restored, congrArg PyOutcome.result hgetstate, hsetstate,
    ⟨htime, ?_, hsegments, ?_, htidy.integrity⟩, _, _, congrArg PyOutcome.result hgetstate', rfl, ?_⟩
  · rw [SparseVirtualFile.blocks_eq, SparseVirtualFile.blocks_eq, hsegments]
  · show restored.pSvf.file.bytesTotal = self.pSvf.file.bytesTotal
    rw [htidy.bytesTotal, h.bytesTotal, hsegments]
  · rw [hsegments]
    rfl

/-- A `cSVF` of two blocks. -/
def twoBlockObject : CpSparseVirtualFile where
  pSvf := Run.run Command.step (World.new [105, 100] 1) [.write 0 6 [3], .write 0 0 [1, 2]]
  id_ne_nul := by decide

theorem tidy_twoBlockObject : Tidy twoBlockObject.pSvf.file :=
  ⟨⟨⟨by decide, by decide⟩, by decide⟩, by decide⟩

/-- It comes back as it was. -/
theorem unpickle_restores_twoBlockObject :
    ∃ state restored, (twoBlockObject.getstate fun n => n).result = .returned state ∧
      setstate (fun n => n + 2) state none = ⟨.returned .none, some restored⟩ ∧
      Restores twoBlockObject.pSvf.file restored.pSvf.file ∧
      ∃ state' blocks, (restored.getstate fun n => n + 4).result = .returned state' ∧
        blocksOf state' = some blocks ∧ blocksOf state = some blocks :=
  unpickle_restores twoBlockObject _ _ _ none tidy_twoBlockObject

end CpSparseVirtualFile
end Svfs
