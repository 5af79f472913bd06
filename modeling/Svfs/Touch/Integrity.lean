import Svfs.Touch.Marks

/-! What `integrity` decides.

In a file that ends within the `size_t` range no sum of the check wraps, and it reports
nothing exactly when the blocks are separated and their sizes add up
(`integrity_eq_none_iff`). The touches it never compares: the set it looks them up in stays
empty. So it decides the whole invariant but for a file whose only fault is that two blocks
bear one touch (`integrity_decides_iff`). -/
namespace Svfs

namespace SparseVirtualFile

/-- What the check is to decide: no block empty, each one starting past the end of the one
before it, no two with one touch, and `m_bytes_total` the sum of their sizes. -/
structure Intact (s : SparseVirtualFile) : Prop where
  nonempty : ∀ iter ∈ s.svf.entries, iter.2.data ≠ []
  apart : List.IsChain (fun a b => a.1 + a.2 < b.1) s.blocks
  distinct : s.Distinct
  bytesTotal : s.bytesTotal = Segments.total s.segments

section Decides
variable {s : SparseVirtualFile}

/-- The blocks are separated where each starts past the end of the one before it. -/
theorem separated_iff_blocks : Segments.Separated s.segments ↔
    (∀ iter ∈ s.svf.entries, iter.2.data ≠ []) ∧ List.IsChain (fun a b => a.1 + a.2 < b.1) s.blocks := by
  rw [blocks_eq, List.isChain_map, Segments.separated_iff_isChain]
  refine and_congr_left' ⟨fun h iter hiter => h _ (mem_segments hiter), fun h seg hseg => ?_⟩
  obtain ⟨iter, hiter, rfl⟩ := mem_segmentsOf.mp hseg
  exact h iter hiter

theorem intact_iff : Intact s ↔ WellFormed s ∧ s.Distinct := by
  constructor
  · intro h
    exact ⟨⟨separated_iff_blocks.mpr ⟨h.nonempty, h.apart⟩, h.bytesTotal⟩, h.distinct⟩
  · rintro ⟨⟨hsep, hbytes⟩, hdistinct⟩
    obtain ⟨hnonempty, hapart⟩ := separated_iff_blocks.mp hsep
    exact ⟨hnonempty, hapart, hdistinct, hbytes⟩

/-- Where no block ends past the range, nothing is reported of the well-formed files, and
of no other. -/
theorem integrity_eq_none_iff (hwithin : ∀ iter ∈ s.svf.entries, iter.1 + iter.2.data.length < 2 ^ 64) :
    s.integrity = .none ↔ WellFormed s := by
  refine ⟨fun h => ?_, fun h => Tidy.integrity ⟨h, hwithin⟩⟩
  obtain ⟨hnonempty, hchain, hsum⟩ := integrity_none h
  have hapart : List.IsChain (fun a b => a.1 + a.2 < b.1) s.blocks := by
    refine hchain.imp_of_mem_imp fun a b ha _ hlt => ?_
    obtain ⟨iter, hiter, rfl⟩ := List.mem_map.mp ha
    rwa [EndsBefore, sizeAdd_of_lt (hwithin iter hiter)] at hlt
  have hsep := separated_iff_blocks.mpr ⟨hnonempty, hapart⟩
  have hlt := SparseVirtualFile.total_lt hsep hwithin
  rw [sizeAdd_of_lt (by omega), Nat.zero_add] at hsum
  exact ⟨hsep, hsum.symm⟩

/-- **`integrity` decides the invariant** unless nothing is wrong but the touches. -/
theorem integrity_decides_iff (s : SparseVirtualFile)
    (hwithin : ∀ iter ∈ s.svf.entries, iter.1 + iter.2.data.length < 2 ^ 64) :
    (s.integrity = .none ↔ Intact s) ↔ (s.Distinct ∨ ¬ WellFormed s) := by
  rw [integrity_eq_none_iff hwithin, intact_iff]
  tauto

end Decides

/-- Two blocks of one byte with the touch 0. -/
def sameTouch : SparseVirtualFile :=
  {SparseVirtualFile.new [] 0 with
    svf := ⟨[(0, ⟨[1], 0⟩), (2, ⟨[1], 0⟩)], by decide⟩
    bytesTotal := 2
    blockTouch := 1}

theorem within_sameTouch : ∀ iter ∈ sameTouch.svf.entries, iter.1 + iter.2.data.length < 2 ^ 64 := by decide

theorem integrity_decides_iff_sameTouch :
    (sameTouch.integrity = .none ↔ Intact sameTouch) ↔ (sameTouch.Distinct ∨ ¬ WellFormed sameTouch) :=
  integrity_decides_iff sameTouch within_sameTouch

/-- A touch borne twice is not reported. -/
theorem not_integrity_decides : ¬ ∀ s : SparseVirtualFile,
    (∀ iter ∈ s.svf.entries, iter.1 + iter.2.data.length < 2 ^ 64) → (s.integrity = .none ↔ Intact s) := by
  intro h
  have hintact := (h sameTouch within_sameTouch).mp (by decide)
  have hsame := hintact.distinct (0, 0) (by decide) (2, 0) (by decide) rfl
  cases hsame

end SparseVirtualFile
end Svfs
