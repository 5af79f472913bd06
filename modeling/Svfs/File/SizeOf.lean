import Svfs.File.WellFormed

/-! The memory a file takes.

`size_of` adds up what the types of the library and the blocks take. How much a type takes
is up to the platform, so it is a parameter. Of a well-formed file the sum shows in the
number of its blocks and bytes (`WellFormed.sizeOf_eq`). -/
namespace Svfs

/-- The `sizeof` of the types. -/
structure Sizes where
  sparseVirtualFile : Nat
  sparseVirtualFileSystem : Nat
  fpos : Nat
  val : Nat

/-- `size_of`. -/
def SparseVirtualFile.sizeOf (sizes : Sizes) (s : SparseVirtualFile) : Nat :=
  s.svf.entries.foldl
    (fun ret iter => sizeAdd (sizeAdd (sizeAdd ret sizes.fpos) sizes.val) iter.2.data.length)
    (sizeAdd sizes.sparseVirtualFile s.id.length)

/-- What a file takes besides its bytes. -/
def Sizes.overhead (sizes : Sizes) (idLength numBlocks : Nat) : Nat :=
  sizes.sparseVirtualFile + idLength + numBlocks * (sizes.fpos + sizes.val)

theorem sum_map_blocks (a : Nat) (l : List (Nat × Val)) :
    (l.map fun iter => a + iter.2.data.length).sum = l.length * a + Segments.total (segmentsOf l) := by
  induction l with
  | nil => simp
  | cons iter rest ih =>
    rw [List.map_cons, List.sum_cons, ih, segmentsOf_cons, Segments.total_cons, List.length_cons, Nat.add_mul]
    simp only
    omega

theorem WellFormed.sizeOf_eq {s : SparseVirtualFile} (h : WellFormed s) (sizes : Sizes) :
    s.sizeOf sizes = (sizes.overhead s.id.length s.numBlocks + s.numBytes) % 2 ^ 64 := by
  have hfold : ∀ a : Nat, a < 2 ^ 64 → s.svf.entries.foldl
      (fun ret iter => sizeAdd (sizeAdd (sizeAdd ret sizes.fpos) sizes.val) iter.2.data.length) a =
        sizeAdd a (s.svf.entries.map fun iter => sizes.fpos + sizes.val + iter.2.data.length).sum := by
    intro a ha
    simp only [sizeAdd_assoc]
    exact Wrap.foldl_add _ _ ha
  have hbytes : s.bytesTotal = Segments.total (segmentsOf s.svf.entries) := h.bytesTotal
  rw [SparseVirtualFile.sizeOf, hfold _ Wrap.add_lt, sum_map_blocks, sizeAdd_assoc, ← hbytes]
  simp only [sizeAdd, Wrap.add, Sizes.overhead, SparseVirtualFile.numBlocks, SparseVirtualFile.numBytes,
    OrderedMap.size]
  congr 1
  omega

end Svfs
