import Svfs.Query.Cover

/-! Merging any list of pairs.

Where no position overflows, `_minimise_seek_reads` takes pairs that come in order to
pairs that are apart and over all of theirs, whatever the lengths, and however they lie
within one another, touch or repeat (`minimise_merged`).

It leaves a list alone exactly if each pair ends, as the machine computes it, before the
next begins and none is shorter than the greed wants (`minimise_eq_self_iff`). The first
holds of whatever it returns (`minimise_endsBefore`), so that merging settles at once
unless it returned a pair that is too short. That takes a pair which lies before the last
one kept, and an end that wraps: in order or without overflow there is none. -/
namespace Svfs
namespace SparseVirtualFile

/-! ### Lists it leaves alone -/

section Apart
variable {greedyLength : Nat} {kept pieces : List SeekRead} {r : SeekRead}

/-- What is kept stays apart. -/
theorem minimiseStep_endsBefore (h : kept.reverse.IsChain EndsBefore) :
    (minimiseStep greedyLength kept r).reverse.IsChain EndsBefore := by
  rw [List.isChain_reverse] at h ⊢
  cases minimiseStep_cases greedyLength kept r with
  | inl hopen =>
    obtain ⟨hpast, heq⟩ := hopen
    rw [heq]
    exact List.isChain_cons.mpr ⟨hpast, h⟩
  | inr hreach =>
    obtain ⟨last, rest, size, rfl, _, heq, _⟩ := hreach
    rw [heq]
    obtain ⟨hlast, hrest⟩ := List.isChain_cons.mp h
    exact List.isChain_cons.mpr ⟨hlast, hrest⟩

/-- **Whatever the merge returns is apart**, its ends as the machine computes them. -/
theorem minimise_endsBefore (seekReads : List SeekRead) (greedyLength : Nat) :
    (minimiseSeekReads seekReads greedyLength).IsChain EndsBefore := by
  have hfold : ∀ kept : List SeekRead, kept.reverse.IsChain EndsBefore →
      (seekReads.foldl (minimiseStep greedyLength) kept).reverse.IsChain EndsBefore := by
    induction seekReads with
    | nil => exact fun kept h => h
    | cons r rest ih => exact fun kept h => ih _ (minimiseStep_endsBefore h)
  exact hfold [] .nil

/-- Pairs that are apart and long enough are kept as they are. -/
theorem foldl_minimiseStep_of_endsBefore (hapart : pieces.IsChain EndsBefore)
    (hlength : ∀ t ∈ pieces, greedyLength ≤ t.2)
    (hkept : ∀ last ∈ kept.head?, ∀ r ∈ pieces.head?, EndsBefore last r) :
    pieces.foldl (minimiseStep greedyLength) kept = pieces.reverse ++ kept := by
  induction pieces generalizing kept with
  | nil => rfl
  | cons r rest ih =>
    obtain ⟨hhead, htail⟩ := List.isChain_cons.mp hapart
    obtain ⟨hfirst, hothers⟩ := List.forall_mem_cons.mp hlength
    have hstep : minimiseStep greedyLength kept r = r :: kept := by
      cases minimiseStep_cases greedyLength kept r with
      | inl hopen => rw [hopen.2, max_eq_left hfirst]
      | inr hreach =>
        obtain ⟨last, _, _, rfl, hnot, _⟩ := hreach
        exact absurd (hkept last rfl r rfl) hnot
    have hnext : ∀ last ∈ (r :: kept).head?, ∀ t ∈ rest.head?, EndsBefore last t := by
      intro last hlast
      cases hlast
      exact hhead
    rw [List.foldl_cons, hstep, ih htail hothers hnext, List.reverse_cons, List.append_assoc,
      List.singleton_append]

theorem length_minimiseStep_le (greedyLength : Nat) (kept : List SeekRead) (r : SeekRead) :
    (minimiseStep greedyLength kept r).length ≤ kept.length + 1 := by
  cases minimiseStep_cases greedyLength kept r with
  | inl hopen => rw [hopen.2, List.length_cons]
  | inr hreach =>
    obtain ⟨last, rest, size, rfl, _, heq, _⟩ := hreach
    rw [heq, List.length_cons, List.length_cons]
    omega

theorem length_foldl_minimiseStep_le (greedyLength : Nat) (pieces kept : List SeekRead) :
    (pieces.foldl (minimiseStep greedyLength) kept).length ≤ kept.length + pieces.length := by
  induction pieces generalizing kept with
  | nil => exact le_refl _
  | cons r rest ih =>
    have hstep := length_minimiseStep_le greedyLength kept r
    have hrest := ih (minimiseStep greedyLength kept r)
    rw [List.foldl_cons, List.length_cons]
    omega

/-- If every pair was kept, then as long as the greed wants. -/
theorem foldl_minimiseStep_of_length
    (h : (pieces.foldl (minimiseStep greedyLength) kept).length = kept.length + pieces.length) :
    pieces.foldl (minimiseStep greedyLength) kept =
      (pieces.map fun r => (r.1, max r.2 greedyLength)).reverse ++ kept := by
  induction pieces generalizing kept with
  | nil => rfl
  | cons r rest ih =>
    have hbound := length_foldl_minimiseStep_le greedyLength rest (minimiseStep greedyLength kept r)
    rw [List.foldl_cons, List.length_cons] at h
    cases minimiseStep_cases greedyLength kept r with
    | inl hopen =>
      rw [hopen.2] at h
      rw [List.foldl_cons, hopen.2, ih (by rw [h, List.length_cons]; omega), List.map_cons,
        List.reverse_cons, List.append_assoc, List.singleton_append]
    | inr hreach =>
      obtain ⟨last, others, size, rfl, _, heq, _⟩ := hreach
      rw [heq] at h hbound
      simp only [List.length_cons] at h hbound
      omega

/-- **What the merge leaves alone**: pairs that are apart, none shorter than the greed
wants. -/
theorem minimise_eq_self_iff (seekReads : List SeekRead) (greedyLength : Nat) :
    minimiseSeekReads seekReads greedyLength = seekReads ↔
      seekReads.IsChain EndsBefore ∧ ∀ t ∈ seekReads, greedyLength ≤ t.2 := by
  constructor
  · intro h
    refine ⟨h ▸ minimise_endsBefore seekReads greedyLength, fun t ht => ?_⟩
    have hlength : (seekReads.foldl (minimiseStep greedyLength) []).length =
        ([] : List SeekRead).length + seekReads.length := by
      rw [← List.length_reverse, ← minimiseSeekReads, h, List.length_nil, Nat.zero_add]
    have hsame : (seekReads.map fun r => (r.1, max r.2 greedyLength)) = seekReads := by
      rw [minimiseSeekReads, foldl_minimiseStep_of_length hlength, List.append_nil,
        List.reverse_reverse] at h
      exact h
    rw [← hsame] at ht
    obtain ⟨r, _, rfl⟩ := List.mem_map.mp ht
    exact le_max_right _ _
  · intro h
    have hnone : ∀ last ∈ ([] : List SeekRead).head?, ∀ r ∈ seekReads.head?, EndsBefore last r := by simp
    rw [minimiseSeekReads, foldl_minimiseStep_of_endsBefore h.1 h.2 hnone, List.append_nil,
      List.reverse_reverse]

end Apart

/-! ### Pairs in order, and pairs that do not overflow -/

section Sound
variable {greedyLength : Nat} {kept seekReads : List SeekRead} {r : SeekRead}

/-- No position overflows: neither the end of a pair nor that of a greedy one in its place. -/
def EndsFit (seekReads : List SeekRead) (greedyLength : Nat) : Prop :=
  ∀ r ∈ seekReads, r.1 + r.2 < 2 ^ 64 ∧ r.1 + greedyLength < 2 ^ 64

theorem minimise_eq_foldl_add (h : EndsFit seekReads greedyLength) :
    minimiseSeekReads seekReads greedyLength = (seekReads.foldl (Greedy.add greedyLength) []).reverse := by
  have hnone : ∀ last ∈ ([] : List SeekRead).head?, last.1 + last.2 < 2 ^ 64 := by simp
  rw [minimiseSeekReads, foldl_minimiseStep_eq hnone h]

/-- **The merge is sound**: pairs in order are merged. -/
theorem minimise_merged (hsorted : seekReads.Pairwise fun a b => a.1 ≤ b.1)
    (h : EndsFit seekReads greedyLength) :
    Greedy.Merged greedyLength seekReads (minimiseSeekReads seekReads greedyLength) := by
  rw [minimise_eq_foldl_add h]
  exact Greedy.merged_of_sorted hsorted

theorem le_length_of_endsFit (h : EndsFit seekReads greedyLength) :
    ∀ t ∈ minimiseSeekReads seekReads greedyLength, greedyLength ≤ t.2 := by
  have hnone : ∀ t ∈ ([] : List SeekRead), greedyLength ≤ t.2 := by simp
  rw [minimise_eq_foldl_add h]
  exact fun t ht => Greedy.le_length_foldl hnone t (List.mem_reverse.mp ht)

/-- A pair that begins no earlier than the last one, and not past the end of it, does not
make that one shorter. An end that wraps lies before the beginning, so that every pair from
there on is past it. -/
theorem grown_of_not_endsBefore {last : SeekRead} {size : Nat} (hlast : last.1 < 2 ^ 64 ∧ last.2 < 2 ^ 64)
    (hle : last.1 ≤ r.1) (hnot : ¬ EndsBefore last r)
    (hsize : sizeAdd r.1 r.2 ≤ sizeAdd last.1 last.2 ∧ size = last.2 ∨
      sizeAdd last.1 last.2 < sizeAdd r.1 r.2 ∧
        size = sizeAdd last.2 (sizeSub (sizeAdd r.1 r.2) (sizeAdd last.1 last.2))) :
    last.2 ≤ size ∧ size < 2 ^ 64 := by
  have hfit : last.1 + last.2 < 2 ^ 64 := by
    by_contra hover
    have hwrap : sizeAdd last.1 last.2 = last.1 + last.2 - 2 ^ 64 :=
      Wrap.add_of_ge hlast.1 hlast.2 (Nat.le_of_not_lt hover)
    unfold EndsBefore at hnot
    omega
  rcases hsize with ⟨_, rfl⟩ | ⟨hlonger, rfl⟩
  · exact ⟨le_refl _, hlast.2⟩
  · have hstop : sizeAdd r.1 r.2 < 2 ^ 64 := Wrap.add_lt
    rw [sizeAdd_of_lt hfit] at hlonger ⊢
    rw [sizeSub_of_le hlonger.le hstop, sizeAdd_of_lt (by omega)]
    exact ⟨Nat.le_add_right _ _, by omega⟩

theorem le_length_foldl_of_sorted (hg : greedyLength < 2 ^ 64)
    (hsize : ∀ r ∈ seekReads, r.1 < 2 ^ 64 ∧ r.2 < 2 ^ 64)
    (hsorted : seekReads.Pairwise fun a b => a.1 ≤ b.1) (hkept : ∀ t ∈ kept, greedyLength ≤ t.2)
    (hlast : ∀ last ∈ kept.head?, (last.1 < 2 ^ 64 ∧ last.2 < 2 ^ 64) ∧ ∀ r ∈ seekReads, last.1 ≤ r.1) :
    ∀ t ∈ seekReads.foldl (minimiseStep greedyLength) kept, greedyLength ≤ t.2 := by
  induction seekReads generalizing kept with
  | nil => exact hkept
  | cons r rest ih =>
    obtain ⟨hr, hothers⟩ := List.forall_mem_cons.mp hsize
    obtain ⟨hhead, htail⟩ := List.pairwise_cons.mp hsorted
    rw [List.foldl_cons]
    cases minimiseStep_cases greedyLength kept r with
    | inl hopen =>
      rw [hopen.2]
      refine ih hothers htail (List.forall_mem_cons.mpr ⟨le_max_right _ _, hkept⟩) fun last hl => ?_
      cases hl
      exact ⟨⟨hr.1, max_lt hr.2 hg⟩, hhead⟩
    | inr hreach =>
      obtain ⟨last, others, size, rfl, hnot, heq, hlonger⟩ := hreach
      obtain ⟨hlt, hbefore⟩ := hlast last rfl
      obtain ⟨hfirst, hafter⟩ := List.forall_mem_cons.mp hbefore
      obtain ⟨hle, hfit⟩ := grown_of_not_endsBefore hlt hfirst hnot hlonger
      obtain ⟨hlong, hlongs⟩ := List.forall_mem_cons.mp hkept
      rw [heq]
      refine ih hothers htail (List.forall_mem_cons.mpr ⟨hlong.trans hle, hlongs⟩) fun t ht => ?_
      cases ht
      exact ⟨⟨hlt.1, hfit⟩, hafter⟩

/-- In order, whatever overflows. -/
theorem le_length_of_sorted (hg : greedyLength < 2 ^ 64)
    (hsize : ∀ r ∈ seekReads, r.1 < 2 ^ 64 ∧ r.2 < 2 ^ 64)
    (hsorted : seekReads.Pairwise fun a b => a.1 ≤ b.1) :
    ∀ t ∈ minimiseSeekReads seekReads greedyLength, greedyLength ≤ t.2 := by
  have hnone : ∀ t ∈ ([] : List SeekRead), greedyLength ≤ t.2 := by simp
  have hfold := le_length_foldl_of_sorted hg hsize hsorted hnone (by simp)
  exact fun t ht => hfold t (List.mem_reverse.mp ht)

/-- Merging again changes nothing. -/
def Settles (seekReads : List SeekRead) (greedyLength : Nat) : Prop :=
  minimiseSeekReads (minimiseSeekReads seekReads greedyLength) greedyLength =
    minimiseSeekReads seekReads greedyLength

/-- **Merging settles at once** exactly if no pair it returned is too short. -/
theorem settles_iff (seekReads : List SeekRead) (greedyLength : Nat) :
    Settles seekReads greedyLength ↔ ∀ t ∈ minimiseSeekReads seekReads greedyLength, greedyLength ≤ t.2 :=
  (minimise_eq_self_iff _ greedyLength).trans (and_iff_right (minimise_endsBefore seekReads greedyLength))

/-- **The greedy merge is sound and settles.** In order and without overflow, pairs are
merged; and merging again changes nothing exactly if no pair returned is too short, which is
so without overflow, whatever the order, and in order, whatever overflows. -/
theorem minimise_sound_and_settles (seekReads : List SeekRead) (greedyLength : Nat)
    (hg : greedyLength < 2 ^ 64) (hsize : ∀ r ∈ seekReads, r.1 < 2 ^ 64 ∧ r.2 < 2 ^ 64) :
    (seekReads.Pairwise (fun a b => a.1 ≤ b.1) → EndsFit seekReads greedyLength →
      Greedy.Merged greedyLength seekReads (minimiseSeekReads seekReads greedyLength)) ∧
    (Settles seekReads greedyLength ↔
      ∀ t ∈ minimiseSeekReads seekReads greedyLength, greedyLength ≤ t.2) ∧
    (EndsFit seekReads greedyLength → Settles seekReads greedyLength) ∧
    (seekReads.Pairwise (fun a b => a.1 ≤ b.1) → Settles seekReads greedyLength) := by
  have hiff := settles_iff seekReads greedyLength
  exact ⟨minimise_merged, hiff, fun h => hiff.mpr (le_length_of_endsFit h),
    fun hsorted => hiff.mpr (le_length_of_sorted hg hsize hsorted)⟩

/-- Nested, touching, repeated and empty pairs. -/
def pairsInOrder : List SeekRead := [(1, 2), (1, 2), (3, 9), (4, 0), (12, 1), (40, 3), (44, 20)]

theorem minimise_sound_and_settles_inOrder :
    Greedy.Merged 5 pairsInOrder (minimiseSeekReads pairsInOrder 5) ∧ Settles pairsInOrder 5 := by
  have h := minimise_sound_and_settles pairsInOrder 5 (by decide) (by decide)
  exact ⟨h.1 (by decide) (by unfold EndsFit; decide), h.2.2.1 (by unfold EndsFit; decide)⟩

/-- Out of order, and the end of the first pair wraps: that of the second is beyond it, and
the sum of the lengths wraps as well. -/
theorem not_settles_wrapped :
    ¬ ∀ (seekReads : List SeekRead) (greedyLength : Nat), greedyLength < 2 ^ 64 →
      (∀ r ∈ seekReads, r.1 < 2 ^ 64 ∧ r.2 < 2 ^ 64) → Settles seekReads greedyLength := by
  intro h
  have heq := h [(10, 2 ^ 64 - 5), (0, 20)] 100 (by decide) (by decide)
  exact absurd heq (by unfold Settles; decide)

end Sound

end SparseVirtualFile
end Svfs
