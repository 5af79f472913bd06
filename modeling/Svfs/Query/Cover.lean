import Svfs.Library.Greedy
import Svfs.Query.Merge

/-! `need_many` is the greedy cover of what is missing.

The requests are sorted and the gaps of one appended to those of the other, so that the
pieces merged may go backwards; what lies before the last piece kept was then asked for
by an earlier request, which has it among its gaps (`backfilled_gaps`). Where no
position overflows the merge is therefore the greedy cover of the positions asked for
and not held (`needMany_isCover`), and all that `need_many` promises follows from what
the greedy cover is. -/
namespace Svfs
namespace SparseVirtualFile
open Segments (gaps missing)

/-- The positions that requests ask for and the file does not hold. -/
def wanted (s : SparseVirtualFile) (rs : List SeekRead) : Set Nat :=
  {p | Covers rs p ∧ s.held p = none}

/-- No position overflows: not the end of a request, not that of a block which begins
before it, and not that of a greedy piece. -/
structure NoOverflow (s : SparseVirtualFile) (rs : List SeekRead) (greedyLength : Nat) : Prop where
  request : ∀ p, Covers rs p → p + 1 < 2 ^ 64
  block : ∀ p, Covers rs p → ∀ iter ∈ s.svf.entries, iter.1 ≤ p → iter.1 + iter.2.data.length < 2 ^ 64
  piece : ∀ p ∈ s.wanted rs, p + greedyLength < 2 ^ 64

section Overflow
variable {s : SparseVirtualFile} {rs rs' : List SeekRead} {greedyLength : Nat}

theorem NoOverflow.fit (h : NoOverflow s rs greedyLength) {r : SeekRead} (hr : r ∈ rs) (hlen : 0 < r.2) :
    r.1 + r.2 < 2 ^ 64 := by
  have := h.request (r.1 + r.2 - 1) ⟨r, hr, by omega, by omega⟩
  omega

theorem NoOverflow.endsWithin (h : NoOverflow s rs greedyLength) {r : SeekRead} (hr : r ∈ rs)
    (hlen : 0 < r.2) : s.EndsWithin (r.1 + r.2) :=
  fun iter hiter hlt => h.block (r.1 + r.2 - 1) ⟨r, hr, by omega, by omega⟩ iter hiter (by omega)

/-- What overflows is a matter of the positions asked for. -/
theorem NoOverflow.congr (h : NoOverflow s rs greedyLength) (hasked : ∀ p, Covers rs p ↔ Covers rs' p) :
    NoOverflow s rs' greedyLength :=
  ⟨fun p hp => h.request p ((hasked p).mpr hp), fun p hp => h.block p ((hasked p).mpr hp),
    fun p hp => h.piece p ⟨(hasked p).mpr hp.1, hp.2⟩⟩

/-- Less greed overflows less. -/
theorem NoOverflow.less {fewer : Nat} (h : NoOverflow s rs greedyLength) (hle : fewer ≤ greedyLength) :
    NoOverflow s rs fewer :=
  ⟨h.request, h.block, fun p hp => by
    have := h.piece p hp
    omega⟩

/-- Nothing overflows in a tidy file where no request comes near the end of the range. -/
theorem noOverflow_of_tidy (h : Tidy s) (hrs : ∀ r ∈ rs, r.1 + r.2 + greedyLength < 2 ^ 64) :
    NoOverflow s rs greedyLength := by
  refine ⟨?_, fun _ _ iter hiter _ => h.within iter hiter, ?_⟩
  · rintro p ⟨r, hr, _, hlt⟩
    have := hrs r hr
    omega
  · rintro p ⟨⟨r, hr, _, hlt⟩, _⟩
    have := hrs r hr
    omega

end Overflow

/-! ### The merge -/

section Merge
variable {kept pieces : List SeekRead} {r : SeekRead} {greedyLength : Nat}

/-- Where nothing wraps a turn of the merge takes one more piece in. -/
theorem minimiseStep_eq_add (hkept : ∀ last ∈ kept.head?, last.1 + last.2 < 2 ^ 64)
    (hr : r.1 + r.2 < 2 ^ 64) : minimiseStep greedyLength kept r = Greedy.add greedyLength kept r := by
  cases kept with
  | nil => rw [minimiseStep, Greedy.add, amountToRead_eq]
  | cons last rest =>
    have hlast := hkept last rfl
    simp only [minimiseStep, Greedy.add, amountToRead_eq, sizeAdd_of_lt hlast, sizeAdd_of_lt hr]
    split
    · rfl
    · split
      · rename_i hlonger
        rw [sizeSub_of_le hlonger.le hr, sizeAdd_of_lt (by omega), max_eq_right (by omega)]
        congr 2
        omega
      · rw [max_eq_left (by omega)]

theorem foldl_minimiseStep_eq (hkept : ∀ last ∈ kept.head?, last.1 + last.2 < 2 ^ 64)
    (hpieces : ∀ r ∈ pieces, r.1 + r.2 < 2 ^ 64 ∧ r.1 + greedyLength < 2 ^ 64) :
    pieces.foldl (minimiseStep greedyLength) kept = pieces.foldl (Greedy.add greedyLength) kept := by
  induction pieces generalizing kept with
  | nil => rfl
  | cons r rest ih =>
    obtain ⟨⟨hfit, hgreedy⟩, hothers⟩ := List.forall_mem_cons.mp hpieces
    rw [List.foldl_cons, List.foldl_cons, minimiseStep_eq_add hkept hfit]
    refine ih (fun last hlast => ?_) hothers
    cases Greedy.add_cases greedyLength kept r with
    | inl hopen =>
      rw [hopen.2] at hlast
      cases hlast
      dsimp only
      omega
    | inr hreach =>
      obtain ⟨t, others, rfl, _, heq⟩ := hreach
      have ht := hkept t rfl
      rw [heq] at hlast
      cases hlast
      dsimp only
      omega

end Merge

/-! ### The gaps of the requests -/

section Gaps
variable {l : List (Segments.Segment Byte)} {rs : List SeekRead} {D : Set Nat}

theorem positions_gaps (hplaced : Segments.Placed l) (lo hi : Nat) :
    Greedy.positions (gaps l lo hi) = missing l lo hi := by
  ext q
  constructor
  · rintro ⟨r, hr, hq, hq'⟩
    exact (hplaced.isRun_of_mem_gaps hr).inside q hq hq'
  · exact hplaced.gaps_cover

/-- What a later request repeats of the positions seen, it has seen. -/
theorem backfilled_gaps (hplaced : Segments.Placed l) (hsorted : rs.Pairwise fun a b => a.1 ≤ b.1)
    (hD : ∀ r ∈ rs, ∀ p ∈ D, ∀ q, r.1 ≤ q → q < p → Segments.lookup l q = none → q ∈ D) :
    Greedy.Backfilled D (rs.flatMap fun r => gaps l r.1 (r.1 + r.2)) := by
  induction rs generalizing D with
  | nil => trivial
  | cons r rest ih =>
    obtain ⟨hfirst, hothers⟩ := List.forall_mem_cons.mp hD
    obtain ⟨hhead, htail⟩ := List.pairwise_cons.mp hsorted
    rw [List.flatMap_cons, Greedy.backfilled_append, positions_gaps hplaced]
    refine ⟨Greedy.backfilled_of_sorted hplaced.gaps_sorted fun t ht q hq hq' p hp hlt => ?_,
      ih htail fun t ht p hp q hq hlt hnone => ?_⟩
    · have hmissing := (hplaced.isRun_of_mem_gaps ht).inside q hq hq'
      exact hfirst p hp q hmissing.1 hlt hmissing.2.2
    · rcases hp with hp | hp
      · exact .inl (hothers t ht p hp q hq hlt hnone)
      · exact .inr ⟨(hhead t ht).trans hq, hlt.trans hp.2.1, hnone⟩

theorem positions_flatMap_gaps (hplaced : Segments.Placed l) (rs : List SeekRead) :
    Greedy.positions (rs.flatMap fun r => gaps l r.1 (r.1 + r.2)) =
      {p | Covers rs p ∧ Segments.lookup l p = none} := by
  ext q
  simp only [Greedy.positions, List.mem_flatMap, Set.mem_ofPred_eq]
  constructor
  · rintro ⟨t, ⟨r, hr, ht⟩, hq, hq'⟩
    obtain ⟨hlo, hhi, hnone⟩ := (hplaced.isRun_of_mem_gaps ht).inside q hq hq'
    exact ⟨⟨r, hr, hlo, hhi⟩, hnone⟩
  · rintro ⟨⟨r, hr, hlo, hhi⟩, hnone⟩
    obtain ⟨t, ht, hrange⟩ := hplaced.gaps_cover ⟨hlo, hhi, hnone⟩
    exact ⟨t, ⟨r, hr, ht⟩, hrange⟩

end Gaps

/-! ### need_many -/

section Many
variable {s : SparseVirtualFile} {rs rs' : List SeekRead} {greedyLength : Nat}

theorem covers_sort (p : Nat) : Covers (sortSeekReads rs) p ↔ Covers rs p := by
  simp only [Covers, mem_sortSeekReads]

/-- Merging the gaps of requests in order covers what they want. -/
theorem minimise_isCover (hplaced : Segments.Placed s.segments) (hrs : ∀ r ∈ rs, 0 < r.2)
    (hsorted : rs.Pairwise fun a b => a.1 ≤ b.1) (h : NoOverflow s rs greedyLength) :
    Greedy.IsCover (s.wanted rs) greedyLength
      (minimiseSeekReads (rs.flatMap fun r => gaps s.segments r.1 (r.1 + r.2)) greedyLength) := by
  have hpieces : ∀ t ∈ rs.flatMap fun r => gaps s.segments r.1 (r.1 + r.2),
      0 < t.2 ∧ t.1 + t.2 < 2 ^ 64 ∧ t.1 + greedyLength < 2 ^ 64 := by
    intro t ht
    obtain ⟨r, hr, ht⟩ := List.mem_flatMap.mp ht
    have hfit := h.fit hr (hrs r hr)
    obtain ⟨hpiece, hlt⟩ := isPiece_of_mem_gaps hplaced hfit ht
    have hmem := hpiece.inside t.1 (le_refl _) (by have := hpiece.pos; omega)
    exact ⟨hpiece.pos, hpiece.fit, h.piece t.1 ⟨⟨r, hr, hpiece.after, hlt⟩, hmem⟩⟩
  have hcover := Greedy.isCover_of_backfilled (g := greedyLength) (fun t ht => (hpieces t ht).1)
    (backfilled_gaps hplaced hsorted fun _ _ _ hp => hp.elim)
  rw [positions_flatMap_gaps hplaced] at hcover
  have hkept : ∀ last ∈ ([] : List SeekRead).head?, last.1 + last.2 < 2 ^ 64 := by simp
  rw [minimiseSeekReads, foldl_minimiseStep_eq hkept fun t ht => (hpieces t ht).2]
  exact hcover

/-- **need_many** is the greedy cover of what its requests want. -/
theorem needMany_isCover_of_placed (hplaced : Segments.Placed s.segments) (hrs : ∀ r ∈ rs, 0 < r.2)
    (h : NoOverflow s rs greedyLength) :
    Greedy.IsCover (s.wanted rs) greedyLength (s.needMany rs greedyLength) := by
  have hcover := minimise_isCover hplaced (fun r hr => hrs r (mem_sortSeekReads.mp hr))
    (sortSeekReads_sorted rs) (h.congr fun p => (covers_sort p).symm)
  rw [needMany_eq hplaced (fun r hr => h.endsWithin hr (hrs r hr)) fun r hr =>
    ⟨hrs r hr, h.fit hr (hrs r hr)⟩]
  have hsame : s.wanted (sortSeekReads rs) = s.wanted rs := by
    ext p
    simp only [wanted, covers_sort]
  rwa [hsame] at hcover

theorem needMany_isCover (hsep : Segments.Separated s.segments) (hrs : ∀ r ∈ rs, 0 < r.2)
    (h : NoOverflow s rs greedyLength) :
    Greedy.IsCover (s.wanted rs) greedyLength (s.needMany rs greedyLength) :=
  needMany_isCover_of_placed hsep.placed hrs h

/-- What a list of pairs is to be as the answer to some requests: in order and apart,
each from a missing position on and as long as the greed wants, over all that is
missing, and without greed over nothing else. -/
structure ManyExact (s : SparseVirtualFile) (rs : List SeekRead) (greedyLength : Nat)
    (pieces : List SeekRead) : Prop where
  sorted : pieces.Pairwise fun a b => a.1 + a.2 < b.1
  starts : ∀ t ∈ pieces, t.1 ∈ s.wanted rs
  length : ∀ t ∈ pieces, greedyLength ≤ t.2
  cover : ∀ p ∈ s.wanted rs, Covers pieces p
  exact : greedyLength = 0 → ∀ p, Covers pieces p ↔ p ∈ s.wanted rs

/-- **need_many is exact** for any list of requests, whatever their order and however
they overlap. -/
theorem needMany_exact (s : SparseVirtualFile) (rs : List SeekRead) (greedyLength : Nat)
    (hsep : Segments.Separated s.segments) (hrs : ∀ r ∈ rs, 0 < r.2) (h : NoOverflow s rs greedyLength) :
    ManyExact s rs greedyLength (s.needMany rs greedyLength) := by
  have hcover := needMany_isCover hsep hrs h
  refine ⟨hcover.sorted, fun t ht => hcover.start_mem ht, fun t ht => hcover.le_length ht,
    fun p hp => hcover.covers hp, fun hzero p => ⟨?_, fun hp => hcover.covers hp⟩⟩
  rintro ⟨t, ht, hp, hp'⟩
  subst hzero
  exact hcover.inside ht hp hp'

/-- Three blocks with four positions or more between them. -/
def threeBlocks : World :=
  Run.run Command.step (World.new [] 0) [.write 0 8 [1, 2, 3, 4], .write 0 16 [5, 6, 7, 8],
    .write 0 32 [9, 10, 11, 12]]

theorem tidy_threeBlocks : Tidy threeBlocks.file where
  separated := ⟨by decide, by decide⟩
  bytesTotal := by decide
  within := by decide

theorem needMany_exact_first : ManyExact threeBlocks.file [(10, 20), (4, 8), (10, 20)] 3
    (threeBlocks.file.needMany [(10, 20), (4, 8), (10, 20)] 3) :=
  needMany_exact threeBlocks.file [(10, 20), (4, 8), (10, 20)] 3 tidy_threeBlocks.separated (by decide)
    (noOverflow_of_tidy tidy_threeBlocks (by decide))

/-- **need_many depends only on which bytes are asked for**: not on the order of the
requests, nor on how they are cut. -/
theorem needMany_eq_of_asked (s : SparseVirtualFile) (rs rs' : List SeekRead) (greedyLength : Nat)
    (hsep : Segments.Separated s.segments) (hrs : ∀ r ∈ rs, 0 < r.2) (hrs' : ∀ r ∈ rs', 0 < r.2)
    (hasked : ∀ p, Covers rs p ↔ Covers rs' p) (h : NoOverflow s rs greedyLength) :
    s.needMany rs greedyLength = s.needMany rs' greedyLength := by
  have hcover := needMany_isCover hsep hrs h
  have hcover' := needMany_isCover hsep hrs' (h.congr hasked)
  have hsame : s.wanted rs' = s.wanted rs := by
    ext p
    simp only [wanted, hasked]
  rw [hsame] at hcover'
  exact hcover.unique hcover'

theorem needMany_eq_of_asked_first :
    threeBlocks.file.needMany [(4, 20)] 3 = threeBlocks.file.needMany [(10, 14), (4, 6), (8, 4)] 3 :=
  needMany_eq_of_asked threeBlocks.file [(4, 20)] [(10, 14), (4, 6), (8, 4)] 3 tidy_threeBlocks.separated
    (by decide) (by decide)
    (fun p => by simp only [Covers, List.mem_cons, List.not_mem_nil, or_false, exists_eq_or_imp,
      exists_eq_left]; omega) (noOverflow_of_tidy tidy_threeBlocks (by decide))

/-- **A larger greedy length never costs more requests.** -/
theorem needMany_length_le (s : SparseVirtualFile) (rs : List SeekRead) (less greedyLength : Nat)
    (hsep : Segments.Separated s.segments) (hrs : ∀ r ∈ rs, 0 < r.2) (hle : less ≤ greedyLength)
    (h : NoOverflow s rs greedyLength) :
    (s.needMany rs greedyLength).length ≤ (s.needMany rs less).length :=
  (needMany_isCover hsep hrs (h.less hle)).length_le (needMany_isCover hsep hrs h) hle

theorem needMany_length_le_first : (threeBlocks.file.needMany [(4, 20), (24, 16)] 8).length ≤
    (threeBlocks.file.needMany [(4, 20), (24, 16)] 3).length :=
  needMany_length_le threeBlocks.file [(4, 20), (24, 16)] 3 8 tidy_threeBlocks.separated (by decide)
    (by decide) (noOverflow_of_tidy tidy_threeBlocks (by decide))

end Many

end SparseVirtualFile
end Svfs
