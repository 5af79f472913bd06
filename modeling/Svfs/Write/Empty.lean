import Svfs.Write.Agreeing

/-! Writes of no bytes.

Nothing in `write` looks at the length of the data first. Where a block reaches the file
position an empty write is an append of nothing, which only touches the block
(`writeBlocks_nil_onto`). Anywhere else it is taken for a write of a new block, and puts a
block of no bytes in the map or finds that it cannot (`writeBlocks_nil_new`). -/
namespace Svfs

/-- What the code finds of a file position that a write goes onto a block at. -/
def SparseVirtualFile.Reaches (s : SparseVirtualFile) (fpos : Nat) : Prop :=
  ∃ iter, s.svf.LastAt fpos iter ∧ fpos ≤ filePositionImmediatlyAfterBlock iter ∧
    fpos ≤ s.filePositionImmediatlyAfterEnd

/-- In a tidy file that is a held position or the one after. -/
theorem SparseVirtualFile.reaches_iff {s : SparseVirtualFile} (h : Tidy s) {fpos : Nat} :
    s.Reaches fpos ↔ Segments.Attached (Segments.support s.segments) fpos := by
  rw [Segments.attached_support_iff h.separated.nonempty]
  constructor
  · rintro ⟨iter, hlast, hstop, _⟩
    rw [filePositionImmediatlyAfterBlock_of_lt (h.within iter hlast.mem)] at hstop
    exact ⟨_, mem_segments hlast.mem, hlast.le, hstop⟩
  · rintro ⟨seg, hseg, hle, hstop⟩
    obtain ⟨iter, hiter, rfl⟩ := mem_segmentsOf.mp hseg
    rw [Segments.stop_mk] at hstop
    refine ⟨iter, lastAt_of_separated h.separated hiter hle hstop, ?_,
      hstop.trans (World.stop_le_end (w := ⟨s, []⟩) h hiter)⟩
    rwa [filePositionImmediatlyAfterBlock_of_lt (h.within iter hiter)]

namespace World
variable {w : World} {fpos : Nat} {base : Nat × Val} {rest : List (Nat × Val)}

theorem writeAppendNewToOld_nil :
    (w.writeAppendNewToOld fpos [] base rest).result = .ok () ∧
      (w.writeAppendNewToOld fpos [] base rest).world.file = (w.touch base.1).file := by
  unfold writeAppendNewToOld
  dsimp only
  rw [Outcome.bind_of_ok (a := ()) (diffCheck_returns fun _ htrips => ?_)]
  · rw [List.drop_nil, appendLoop_nil_data, Outcome.bind_returned]
    refine ⟨rfl, ?_⟩
    show (touch _ base.1).file = _
    unfold touch
    rw [diffCheck_file]
    rfl
  · -- No bytes are compared, so that none differ.
    obtain ⟨hdiffers, _⟩ := htrips
    simp [memcmpDiffers] at hdiffers

/-- **On a block**, an empty write touches it. -/
theorem writeBlocks_nil_onto (h : w.file.Reaches fpos) :
    ∃ iter ∈ w.file.svf.entries, (w.writeBlocks fpos []).result = .ok () ∧
      (w.writeBlocks fpos []).world.file = (w.touch iter.1).file := by
  obtain ⟨iter, hlast, hstop, hend⟩ := h
  obtain ⟨rest, heq⟩ := writeBlocks_onto [] hlast hstop hend
  rw [heq]
  exact ⟨iter, hlast.mem, writeAppendNewToOld_nil⟩

/-- It returns and is counted; the bytes stay as they are. -/
theorem write_nil_onto (now : Int) (h : w.file.Reaches fpos) :
    (w.write now fpos []).result = .ok () ∧
      (w.write now fpos []).world.file.segments = w.file.segments ∧
      (w.write now fpos []).world.file.bytesTotal = w.file.bytesTotal ∧
      (w.write now fpos []).world.file.countWrite = sizeAdd w.file.countWrite 1 := by
  obtain ⟨iter, _, hresult, hfile⟩ := writeBlocks_nil_onto h
  rw [write_eq now fpos [] hresult]
  simp only [Outcome.returned_world, countWrite, hfile]
  exact ⟨rfl, segmentsOf_modify _ _ fun _ => rfl, rfl, rfl⟩

/-- **Anywhere else** it is a write of a new block. -/
theorem writeBlocks_nil_new (hfpos : fpos < 2 ^ 64) (h : ¬ w.file.Reaches fpos) :
    w.writeBlocks fpos [] = w.writeNewBlock fpos [] := by
  cases writeBlocks_cases fpos [] w with
  | newBlock heq _ =>
    exact heq
  | newAppendOld iter rest _ _ hlt hreach _ =>
    -- It is too short to reach the first block.
    rw [List.length_nil, sizeAdd_zero hfpos] at hreach
    omega
  | appendNewToOld pre iter rest _ hcut hle hrest hstop hend =>
    exact absurd ⟨iter, OrderedMap.lastAt_of_cut hcut hle hrest, hstop, hend⟩ h

/-- A new block that got into the map is one block more. -/
theorem size_writeNewBlock {data : List Byte} (h : (w.writeNewBlock fpos data).result = .ok ()) :
    (w.writeNewBlock fpos data).world.file.segments.length = w.file.segments.length + 1 := by
  unfold writeNewBlock insertNew at h ⊢
  dsimp only at h ⊢
  split at h
  · cases h
  · rename_i hsize
    rw [if_neg hsize]
    simp only [SparseVirtualFile.segments, segmentsOf, List.length_map]
    simp only [OrderedMap.size] at hsize
    exact (not_not.mp hsize).trans (Nat.add_comm 1 _)

/-- A block of no bytes is a fault. -/
theorem integrity_of_newBlock_nil (h : (w.writeNewBlock fpos []).result = .ok ()) :
    (w.writeNewBlock fpos []).world.file.integrity ≠ .none := by
  obtain ⟨hcut, hpre, hpost⟩ := OrderedMap.cut_of_absent (absent_of_newBlock h)
  intro hnone
  refine (SparseVirtualFile.integrity_none hnone).1 (fpos, ⟨[], w.file.blockTouch⟩) ?_ rfl
  exact (mem_writeNewBlock [] hcut hpre hpost).mpr (.inl rfl)

end World
end Svfs
