import Svfs.Library.Segments

/-! The gaps a list of segments leaves in a range.

`gaps l lo hi` walks the segments once and lists what none of them is over. For
segments in order, touching as they may, the gaps are exactly the maximal runs of the
positions missing (`mem_gaps_iff`), in order and with a position held between any two
(`gaps_sorted`). -/
namespace Segments

universe u
variable {α : Type u}

/-- The positions of `[lo, hi)` that no segment is over. -/
def missing (l : List (Segment α)) (lo hi : Nat) : Set Nat :=
  {p | lo ≤ p ∧ p < hi ∧ lookup l p = none}

/-- All of `[lo, hi)`, if there is any of it. -/
def whole (lo hi : Nat) : List (Nat × Nat) := if lo < hi then [(lo, hi - lo)] else []

/-- The gaps in `[lo, hi)`: a start and a length for each. -/
def gaps : List (Segment α) → Nat → Nat → List (Nat × Nat)
  | [], lo, hi => whole lo hi
  | s :: rest, lo, hi =>
    if hi ≤ s.1 then whole lo hi
    else whole lo s.1 ++ gaps rest (max lo (stop s)) hi

variable {l pre rest : List (Segment α)} {s : Segment α} {lo hi p : Nat}

theorem mem_whole {g : Nat × Nat} : g ∈ whole lo hi ↔ lo < hi ∧ g = (lo, hi - lo) := by
  unfold whole
  split
  · simp [*]
  · simp [*]

theorem whole_of_le (h : hi ≤ lo) : whole lo hi = [] := if_neg (by omega)

theorem gaps_of_le (h : hi ≤ lo) : gaps l lo hi = [] := by
  induction l generalizing lo with
  | nil => exact whole_of_le h
  | cons s rest ih =>
    unfold gaps
    split
    · exact whole_of_le h
    · rw [whole_of_le (by omega), ih (by omega), List.nil_append]

/-- Segments that end before the range do not matter. -/
theorem gaps_append (hpre : ∀ s ∈ pre, s.2 ≠ [] ∧ stop s ≤ lo) : gaps (pre ++ l) lo hi = gaps l lo hi := by
  induction pre with
  | nil => rfl
  | cons s rest ih =>
    obtain ⟨hne, hstop⟩ := hpre s (List.mem_cons_self ..)
    have hlt := lt_stop hne
    by_cases hrange : hi ≤ lo
    · rw [gaps_of_le hrange, gaps_of_le hrange]
    · rw [List.cons_append, gaps, if_neg (by omega), whole_of_le (by omega), max_eq_left hstop,
        List.nil_append]
      exact ih fun t ht => hpre t (List.mem_cons_of_mem _ ht)

/-- A segment that the range begins in cuts the range at its end. -/
theorem gaps_inside (hlo : s.1 ≤ lo) (hhi : lo ≤ stop s) : gaps (s :: rest) lo hi = gaps rest (stop s) hi := by
  by_cases hrange : hi ≤ lo
  · rw [gaps_of_le hrange, gaps_of_le (by omega)]
  · rw [gaps, if_neg (by omega), whole_of_le hlo, max_eq_right hhi, List.nil_append]

/-- What is missing lies before the first segment, or past it in what the rest leaves. -/
theorem mem_missing_cons (h : Placed (s :: rest)) :
    p ∈ missing (s :: rest) lo hi ↔
      (lo ≤ p ∧ p < hi ∧ p < s.1) ∨ p ∈ missing rest (max lo (stop s)) hi := by
  obtain ⟨hne, hrest, _⟩ := h.of_cons
  have hlt := lt_stop hne
  show (lo ≤ p ∧ p < hi ∧ lookup (s :: rest) p = none) ↔
    _ ∨ (max lo (stop s) ≤ p ∧ p < hi ∧ lookup rest p = none)
  by_cases hp : s.1 ≤ p ∧ p < stop s
  · obtain ⟨x, hx⟩ := getElem?_of_mem hp
    rw [lookup_cons_of_mem hp, hx]
    simp only [reduceCtorEq, and_false, false_iff]
    omega
  · rw [lookup_cons_of_not_mem hp]
    rcases Nat.lt_or_ge p s.1 with hbefore | hafter
    · have hnone : lookup rest p = none := lookup_eq_none_of_lt fun t ht => by
        have := hrest t ht
        omega
      simp only [hnone, and_true]
      omega
    · constructor
      · rintro ⟨hlo, hhi, hnone⟩
        exact .inr ⟨by omega, hhi, hnone⟩
      · rintro (⟨_, _, hlt'⟩ | ⟨hmax, hhi, hnone⟩)
        · omega
        · exact ⟨by omega, hhi, hnone⟩

/-- Two maximal runs over one position are the same. -/
theorem IsRun.eq_of_mem {H : Set Nat} {lo' hi' : Nat} (h : IsRun H lo hi) (h' : IsRun H lo' hi')
    (hp : lo ≤ p ∧ p < hi) (hp' : lo' ≤ p ∧ p < hi') : lo = lo' ∧ hi = hi' := by
  have hle : ∀ {a b c d : Nat}, IsRun H a b → IsRun H c d → a ≤ p ∧ p < b → c ≤ p ∧ p < d →
      a ≤ c ∧ d ≤ b := by
    intro a b c d hab hcd hp hp'
    constructor
    · by_contra hlt
      exact hab.left (a - 1) (by omega) (hcd.inside (a - 1) (by omega) (by omega))
    · by_contra hlt
      exact hab.right (hcd.inside b (by omega) (by omega))
  obtain ⟨hlo, hhi⟩ := hle h h' hp hp'
  obtain ⟨hlo', hhi'⟩ := hle h' h hp' hp
  omega

/-! ### What the gaps are -/

theorem Placed.gaps_cover (h : Placed l) (hp : p ∈ missing l lo hi) :
    ∃ g ∈ gaps l lo hi, g.1 ≤ p ∧ p < g.1 + g.2 := by
  induction l generalizing lo with
  | nil =>
    obtain ⟨hlo, hhi, _⟩ := hp
    exact ⟨(lo, hi - lo), mem_whole.mpr ⟨by omega, rfl⟩, hlo, by simp only; omega⟩
  | cons s rest ih =>
    unfold gaps
    rcases (mem_missing_cons h).mp hp with ⟨hlo, hhi, hbefore⟩ | hlater
    · split
      · exact ⟨(lo, hi - lo), mem_whole.mpr ⟨by omega, rfl⟩, hlo, by simp only; omega⟩
      · exact ⟨(lo, s.1 - lo), List.mem_append_left _ (mem_whole.mpr ⟨by omega, rfl⟩), hlo,
          by simp only; omega⟩
    · obtain ⟨g, hg, hrange⟩ := ih h.of_cons.2.2 hlater
      have := lt_stop h.of_cons.1
      have hhi := hlater.2.1
      have hlo := hlater.1
      rw [if_neg (by omega)]
      exact ⟨g, List.mem_append_right _ hg, hrange⟩

/-- What is whole up to where the positions stop is a run of them. -/
theorem isRun_of_mem_whole {M : Set Nat} (hlo : ∀ p ∈ M, lo ≤ p) (hinside : ∀ p, lo ≤ p → p < hi → p ∈ M)
    (hstop : hi ∉ M) {g : Nat × Nat} (hg : g ∈ whole lo hi) : IsRun M g.1 (g.1 + g.2) := by
  obtain ⟨hlt, rfl⟩ := mem_whole.mp hg
  have hend : lo + (hi - lo) = hi := by omega
  dsimp only
  rw [hend]
  refine ⟨hlt, hinside, fun p hp hmem => ?_, hstop⟩
  have := hlo p hmem
  omega

/-- Every gap is a maximal run of what is missing. -/
theorem Placed.isRun_of_mem_gaps (h : Placed l) {g : Nat × Nat} (hg : g ∈ gaps l lo hi) :
    IsRun (missing l lo hi) g.1 (g.1 + g.2) := by
  induction l generalizing lo with
  | nil =>
    have hmissing : ∀ p, lo ≤ p → p < hi → p ∈ missing ([] : List (Segment α)) lo hi :=
      fun p hp hp' => ⟨hp, hp', rfl⟩
    exact isRun_of_mem_whole (fun p hp => hp.1) hmissing (fun hmem => Nat.lt_irrefl _ hmem.2.1) hg
  | cons s rest ih =>
    obtain ⟨hne, hrest, hplaced⟩ := h.of_cons
    have hlts := lt_stop hne
    -- Up to the segment, or to the end of the range if that comes first, all is missing.
    have hwhole : ∀ {b : Nat}, b ≤ s.1 → b ≤ hi → (b = hi ∨ b = s.1) → g ∈ whole lo b →
        IsRun (missing (s :: rest) lo hi) g.1 (g.1 + g.2) := by
      intro b hbs hbhi hb hg
      refine isRun_of_mem_whole (fun p hp => hp.1)
        (fun p hp hp' => (mem_missing_cons h).mpr (.inl ⟨hp, by omega, by omega⟩)) (fun hmem => ?_) hg
      rcases (mem_missing_cons h).mp hmem with hbefore | hlater
      · omega
      · have := hlater.1
        have := hlater.2.1
        omega
    unfold gaps at hg
    split at hg
    · rename_i hreach
      exact hwhole hreach (le_refl _) (.inl rfl) hg
    · rename_i hreach
      rcases List.mem_append.mp hg with hg | hg
      · exact hwhole (le_refl _) (by omega) (.inr rfl) hg
      · have hrun := ih hplaced hg
        have hfirst := hrun.inside g.1 (le_refl _) hrun.lt
        refine ⟨hrun.lt, fun p hp hp' => (mem_missing_cons h).mpr (.inr (hrun.inside p hp hp')),
          fun p hp hmem => ?_, fun hmem => ?_⟩
        · rcases (mem_missing_cons h).mp hmem with hbefore | hlater
          · -- The position just before would lie before the segment.
            have := hfirst.1
            omega
          · exact hrun.left p hp hlater
        · rcases (mem_missing_cons h).mp hmem with hbefore | hlater
          · have := hfirst.1
            have := hrun.lt
            omega
          · exact hrun.right hlater

/-- The gaps are the maximal runs of the positions missing. -/
theorem Placed.mem_gaps_iff (h : Placed l) {g : Nat × Nat} :
    g ∈ gaps l lo hi ↔ IsRun (missing l lo hi) g.1 (g.1 + g.2) := by
  refine ⟨h.isRun_of_mem_gaps, fun hrun => ?_⟩
  obtain ⟨g', hg', hrange⟩ := h.gaps_cover (hrun.inside g.1 (le_refl _) hrun.lt)
  obtain ⟨hstart, hend⟩ := hrun.eq_of_mem (h.isRun_of_mem_gaps hg') ⟨le_refl _, hrun.lt⟩ hrange
  rwa [Prod.ext hstart (by omega)]

/-- They come in order, and do not touch. -/
theorem Placed.gaps_sorted (h : Placed l) : (gaps l lo hi).Pairwise fun a b => a.1 + a.2 < b.1 := by
  have hone : ∀ lo hi, (whole lo hi).Pairwise fun a b => a.1 + a.2 < b.1 := by
    intro lo hi
    unfold whole
    split <;> simp
  induction l generalizing lo with
  | nil => exact hone lo hi
  | cons s rest ih =>
    obtain ⟨hne, _, hplaced⟩ := h.of_cons
    have hlts := lt_stop hne
    unfold gaps
    split
    · exact hone lo hi
    · refine List.pairwise_append.mpr ⟨hone lo s.1, ih hplaced, fun a ha b hb => ?_⟩
      obtain ⟨hlt, rfl⟩ := mem_whole.mp ha
      have hrun := hplaced.isRun_of_mem_gaps hb
      have := (hrun.inside b.1 (le_refl _) hrun.lt).1
      simp only
      omega

/-! Separated segments are in order. -/

theorem isRun_of_mem_gaps (h : Separated l) {g : Nat × Nat} (hg : g ∈ gaps l lo hi) :
    IsRun (missing l lo hi) g.1 (g.1 + g.2) := h.placed.isRun_of_mem_gaps hg

theorem mem_gaps_iff (h : Separated l) {g : Nat × Nat} :
    g ∈ gaps l lo hi ↔ IsRun (missing l lo hi) g.1 (g.1 + g.2) := h.placed.mem_gaps_iff

end Segments
