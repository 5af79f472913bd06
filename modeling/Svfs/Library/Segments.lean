import Mathlib.Data.List.Basic
import Mathlib.Data.List.Pairwise
import Mathlib.Data.Set.Card
import Mathlib.Order.Lattice.Nat
import Mathlib.Order.Interval.Finset.Nat
import Mathlib.Order.Interval.Set.Basic

/-! Segments: a partial function on positions held as runs of values.

A segment is a start and the values from there on. A list of segments denotes a
partial function (`lookup`), and a *separated* list — no segment empty, each one
ending strictly before the next begins — is the only list that denotes its
function (`Separated.ext`): its segments are exactly the maximal runs of the
positions held (`Separated.isRun_iff`) and their lengths add up to how many there
are (`Separated.total_eq`).

`overlay` writes a run over a partial function. `absorb` is the same write on a
list of segments that all begin at or after the run: it swallows every segment
the run reaches and keeps the overhang of the last one (`lookup_absorb`,
`separated_absorb`). -/
namespace Segments

universe u
variable {α : Type u}

/-- A start, and the values from there on. -/
abbrev Segment (α : Type u) := Nat × List α

/-- The position immediately after a segment. -/
def stop (s : Segment α) : Nat := s.1 + s.2.length

@[simp] theorem stop_mk (start : Nat) (data : List α) : stop (start, data) = start + data.length := rfl

/-- The value at a position: that of the first segment over it. -/
def lookup : List (Segment α) → Nat → Option α
  | [], _ => none
  | s :: rest, p => if s.1 ≤ p ∧ p < stop s then s.2[p - s.1]? else lookup rest p

/-- How many values a list of segments holds. -/
def total (l : List (Segment α)) : Nat := (l.map fun s => s.2.length).sum

@[simp] theorem total_nil : total ([] : List (Segment α)) = 0 := rfl

@[simp] theorem total_cons (s : Segment α) (rest : List (Segment α)) :
    total (s :: rest) = s.2.length + total rest := by
  simp [total]

@[simp] theorem total_append (a b : List (Segment α)) : total (a ++ b) = total a + total b := by
  simp [total]

theorem total_perm {a b : List (Segment α)} (h : a.Perm b) : total a = total b := (h.map _).sum_nat

/-! ### Looking up -/

theorem lookup_cons_of_mem {s : Segment α} {rest : List (Segment α)} {p : Nat}
    (h : s.1 ≤ p ∧ p < stop s) : lookup (s :: rest) p = s.2[p - s.1]? := if_pos h

theorem lookup_cons_of_not_mem {s : Segment α} {rest : List (Segment α)} {p : Nat}
    (h : ¬ (s.1 ≤ p ∧ p < stop s)) : lookup (s :: rest) p = lookup rest p := if_neg h

/-- Inside a segment there is a value. -/
theorem getElem?_of_mem {s : Segment α} {p : Nat} (h : s.1 ≤ p ∧ p < stop s) :
    ∃ x, s.2[p - s.1]? = some x := by
  have hlt : p - s.1 < s.2.length := by
    simp only [stop] at h
    omega
  exact ⟨_, List.getElem?_eq_getElem hlt⟩

/-- A position is held exactly when some segment is over it. -/
theorem lookup_ne_none_iff {l : List (Segment α)} {p : Nat} :
    lookup l p ≠ none ↔ ∃ s ∈ l, s.1 ≤ p ∧ p < stop s := by
  induction l with
  | nil => simp [lookup]
  | cons s rest ih =>
    by_cases h : s.1 ≤ p ∧ p < stop s
    · obtain ⟨x, hx⟩ := getElem?_of_mem h
      rw [lookup_cons_of_mem h, hx]
      simp [h]
    · rw [lookup_cons_of_not_mem h, ih]
      simp [h]

theorem lookup_eq_none_iff {l : List (Segment α)} {p : Nat} :
    lookup l p = none ↔ ∀ s ∈ l, s.1 ≤ p → stop s ≤ p := by
  rw [← not_iff_not, ← ne_eq, lookup_ne_none_iff]
  push Not
  rfl

theorem lookup_append (a b : List (Segment α)) (p : Nat) :
    lookup (a ++ b) p = (lookup a p).or (lookup b p) := by
  induction a with
  | nil => simp [lookup]
  | cons s rest ih =>
    by_cases h : s.1 ≤ p ∧ p < stop s
    · obtain ⟨x, hx⟩ := getElem?_of_mem h
      rw [List.cons_append, lookup_cons_of_mem h, lookup_cons_of_mem h, hx, Option.some_or]
    · rw [List.cons_append, lookup_cons_of_not_mem h, lookup_cons_of_not_mem h, ih]

theorem lookup_eq_none_of_lt {l : List (Segment α)} {p : Nat} (h : ∀ s ∈ l, p < s.1) :
    lookup l p = none :=
  lookup_eq_none_iff.mpr fun s hs hle => absurd (h s hs) (not_lt.mpr hle)

theorem lookup_eq_none_of_stop_le {l : List (Segment α)} {p : Nat} (h : ∀ s ∈ l, stop s ≤ p) :
    lookup l p = none :=
  lookup_eq_none_iff.mpr fun s hs _ => h s hs

/-! ### Separated lists -/

/-- No segment empty, and at least one position missing between any two. -/
structure Separated (l : List (Segment α)) : Prop where
  nonempty : ∀ s ∈ l, s.2 ≠ []
  apart : l.Pairwise fun a b => stop a < b.1

theorem separated_nil : Separated ([] : List (Segment α)) := ⟨by simp, .nil⟩

theorem lt_stop {s : Segment α} (h : s.2 ≠ []) : s.1 < stop s := by
  have := List.length_pos_iff.mpr h
  simp only [stop]
  omega

theorem separated_cons {s : Segment α} {rest : List (Segment α)} :
    Separated (s :: rest) ↔ s.2 ≠ [] ∧ (∀ t ∈ rest, stop s < t.1) ∧ Separated rest := by
  constructor
  · intro h
    exact ⟨h.nonempty s (List.mem_cons_self ..), fun t ht => List.rel_of_pairwise_cons h.apart ht,
      fun t ht => h.nonempty t (List.mem_cons_of_mem _ ht), h.apart.of_cons⟩
  · rintro ⟨hs, hrest, h⟩
    refine ⟨fun t ht => ?_, List.pairwise_cons.mpr ⟨hrest, h.apart⟩⟩
    rcases List.mem_cons.mp ht with rfl | ht
    · exact hs
    · exact h.nonempty t ht

theorem separated_append {a b : List (Segment α)} :
    Separated (a ++ b) ↔ Separated a ∧ Separated b ∧ ∀ s ∈ a, ∀ t ∈ b, stop s < t.1 := by
  constructor
  · intro h
    obtain ⟨ha, hb, hcross⟩ := List.pairwise_append.mp h.apart
    exact ⟨⟨fun s hs => h.nonempty s (List.mem_append_left _ hs), ha⟩,
      ⟨fun s hs => h.nonempty s (List.mem_append_right _ hs), hb⟩, hcross⟩
  · rintro ⟨ha, hb, hcross⟩
    refine ⟨fun s hs => ?_, List.pairwise_append.mpr ⟨ha.apart, hb.apart, hcross⟩⟩
    rcases List.mem_append.mp hs with hs | hs
    · exact ha.nonempty s hs
    · exact hb.nonempty s hs

/-- No segment empty, and none past the beginning of the next, which it may touch. -/
structure Placed (l : List (Segment α)) : Prop where
  nonempty : ∀ s ∈ l, s.2 ≠ []
  apart : l.Pairwise fun a b => stop a ≤ b.1

theorem Separated.placed {l : List (Segment α)} (h : Separated l) : Placed l :=
  ⟨h.nonempty, h.apart.imp fun hlt => hlt.le⟩

theorem Placed.sublist {a b : List (Segment α)} (h : Placed b) (hab : a.Sublist b) : Placed a :=
  ⟨fun s hs => h.nonempty s (hab.subset hs), h.apart.sublist hab⟩

theorem Placed.of_cons {s : Segment α} {rest : List (Segment α)} (h : Placed (s :: rest)) :
    s.2 ≠ [] ∧ (∀ t ∈ rest, stop s ≤ t.1) ∧ Placed rest :=
  ⟨h.nonempty s (List.mem_cons_self ..), fun _ ht => List.rel_of_pairwise_cons h.apart ht,
    h.sublist (List.sublist_cons_self s rest)⟩

/-- It is enough that each segment ends before the next one begins. -/
theorem separated_iff_isChain {l : List (Segment α)} :
    Separated l ↔ (∀ s ∈ l, s.2 ≠ []) ∧ l.IsChain fun a b => stop a < b.1 := by
  have : IsTrans (Segment α) fun a b => stop a < b.1 :=
    ⟨fun a b c hab hbc => hab.trans ((Nat.le_add_right b.1 b.2.length).trans_lt hbc)⟩
  rw [List.isChain_iff_pairwise]
  exact ⟨fun h => ⟨h.nonempty, h.apart⟩, fun h => ⟨h.1, h.2⟩⟩

theorem Separated.sublist {a b : List (Segment α)} (h : Separated b) (hab : a.Sublist b) :
    Separated a :=
  ⟨fun s hs => h.nonempty s (hab.subset hs), h.apart.sublist hab⟩

/-- In a separated list a segment over a position gives its value. -/
theorem Separated.lookup_of_mem {l : List (Segment α)} (h : Separated l) {s : Segment α}
    (hs : s ∈ l) {p : Nat} (hp : s.1 ≤ p ∧ p < stop s) : lookup l p = s.2[p - s.1]? := by
  induction l with
  | nil => cases hs
  | cons t rest ih =>
    obtain ⟨_, hrest, hsep⟩ := separated_cons.mp h
    rcases List.mem_cons.mp hs with rfl | hs
    · exact lookup_cons_of_mem hp
    · have := hrest s hs
      rw [lookup_cons_of_not_mem (by omega), ih hsep hs]

/-- The position after a segment of a separated list is missing. -/
theorem Separated.lookup_stop {l : List (Segment α)} (h : Separated l) {s : Segment α}
    (hs : s ∈ l) : lookup l (stop s) = none := by
  induction l with
  | nil => cases hs
  | cons t rest ih =>
    obtain ⟨_, hrest, hsep⟩ := separated_cons.mp h
    rcases List.mem_cons.mp hs with rfl | hs
    · rw [lookup_cons_of_not_mem (by omega)]
      exact lookup_eq_none_of_lt hrest
    · have := hrest s hs
      have := lt_stop (hsep.nonempty s hs)
      rw [lookup_cons_of_not_mem (by omega), ih hsep hs]

/-- Two segments of a separated list over one position are the same. -/
theorem Separated.eq_of_mem {l : List (Segment α)} (h : Separated l) {s t : Segment α} (hs : s ∈ l)
    (ht : t ∈ l) {p : Nat} (hsp : s.1 ≤ p ∧ p < stop s) (htp : t.1 ≤ p ∧ p < stop t) : s = t := by
  induction l with
  | nil => cases hs
  | cons x rest ih =>
    obtain ⟨_, hrest, hsep⟩ := separated_cons.mp h
    rcases List.mem_cons.mp hs with rfl | hs' <;> rcases List.mem_cons.mp ht with rfl | ht'
    · rfl
    · have := hrest t ht'
      omega
    · have := hrest s hs'
      omega
    · exact ih hsep hs' ht'

section Heads
variable {s t : Segment α} {as bs : List (Segment α)}

/-- A separated list with the function of another begins no later than that one. -/
theorem Separated.start_le (ha : Separated (s :: as)) (ht : t.2 ≠ [])
    (h : ∀ p, lookup (s :: as) p = lookup (t :: bs) p) : s.1 ≤ t.1 := by
  have htlt := lt_stop ht
  obtain ⟨x, hx⟩ := getElem?_of_mem (s := t) ⟨le_refl _, htlt⟩
  have hheld := h t.1
  rw [lookup_cons_of_mem (s := t) ⟨le_refl _, htlt⟩, hx] at hheld
  obtain ⟨v, hv, hle, _⟩ := lookup_ne_none_iff.mp (by rw [hheld]; simp : lookup (s :: as) t.1 ≠ none)
  rcases List.mem_cons.mp hv with rfl | hv
  · exact hle
  · have := (separated_cons.mp ha).2.1 v hv
    have := lt_stop (separated_cons.mp ha).1
    omega

/-- Its first segment ends no earlier, if it begins with that one's. -/
theorem Separated.stop_le (ha : Separated (s :: as)) (hstart : s.1 = t.1)
    (h : ∀ p, lookup (s :: as) p = lookup (t :: bs) p) : stop t ≤ stop s := by
  have hslt := lt_stop (separated_cons.mp ha).1
  by_contra hcon
  have hnone := ha.lookup_stop (List.mem_cons_self ..)
  obtain ⟨x, hx⟩ := getElem?_of_mem (s := t) (p := stop s) ⟨by omega, by omega⟩
  rw [h, lookup_cons_of_mem ⟨by omega, by omega⟩, hx] at hnone
  cases hnone

/-- The first segments of two separated lists with one function are the same. -/
theorem Separated.head_eq (ha : Separated (s :: as)) (hb : Separated (t :: bs))
    (h : ∀ p, lookup (s :: as) p = lookup (t :: bs) p) : s = t := by
  have hs := (separated_cons.mp ha).1
  have ht := (separated_cons.mp hb).1
  have hstart : s.1 = t.1 :=
    le_antisymm (ha.start_le ht h) (hb.start_le hs fun p => (h p).symm)
  have hstop : stop s = stop t :=
    le_antisymm (hb.stop_le hstart.symm fun p => (h p).symm) (ha.stop_le hstart h)
  refine Prod.ext hstart (List.ext_getElem? fun i => ?_)
  simp only [stop] at hstop
  by_cases hi : i < s.2.length
  · have hbyte := h (s.1 + i)
    rw [lookup_cons_of_mem ⟨by omega, by simp only [stop]; omega⟩,
      lookup_cons_of_mem ⟨by omega, by simp only [stop]; omega⟩] at hbyte
    simpa [hstart] using hbyte
  · rw [List.getElem?_eq_none (by omega), List.getElem?_eq_none (by omega)]

end Heads

/-- A separated list is determined by the function it denotes. -/
theorem Separated.ext {a b : List (Segment α)} (ha : Separated a) (hb : Separated b)
    (h : ∀ p, lookup a p = lookup b p) : a = b := by
  have hnil : ∀ {s : Segment α} {as : List (Segment α)}, Separated (s :: as) →
      ¬ ∀ p, lookup (s :: as) p = none := by
    intro s as hsep hnone
    have hslt := lt_stop (separated_cons.mp hsep).1
    obtain ⟨x, hx⟩ := getElem?_of_mem (s := s) ⟨le_refl _, hslt⟩
    have hheld := hnone s.1
    rw [lookup_cons_of_mem ⟨le_refl _, hslt⟩, hx] at hheld
    cases hheld
  induction a generalizing b with
  | nil =>
    cases b with
    | nil => rfl
    | cons t bs => exact absurd (fun p => (h p).symm) (hnil hb)
  | cons s as ih =>
    cases b with
    | nil => exact absurd h (hnil ha)
    | cons t bs =>
      obtain rfl := ha.head_eq hb h
      obtain ⟨_, has, hsep⟩ := separated_cons.mp ha
      obtain ⟨_, hbs, hsep'⟩ := separated_cons.mp hb
      have hrest : ∀ p, lookup as p = lookup bs p := by
        intro p
        by_cases hp : s.1 ≤ p ∧ p < stop s
        · rw [lookup_eq_none_of_lt fun t ht => hp.2.trans (has t ht),
            lookup_eq_none_of_lt fun t ht => hp.2.trans (hbs t ht)]
        · have hsame := h p
          rwa [lookup_cons_of_not_mem hp, lookup_cons_of_not_mem hp] at hsame
      rw [ih hsep hsep' hrest]

/-! ### Maximal runs -/

/-- `[lo, hi)` is a maximal run of positions of `H`. -/
structure IsRun (H : Set Nat) (lo hi : Nat) : Prop where
  lt : lo < hi
  inside : ∀ p, lo ≤ p → p < hi → p ∈ H
  left : ∀ p, p + 1 = lo → p ∉ H
  right : hi ∉ H

/-- The positions a list of segments holds. -/
def support (l : List (Segment α)) : Set Nat := {p | lookup l p ≠ none}

theorem mem_support_iff {l : List (Segment α)} {p : Nat} :
    p ∈ support l ↔ ∃ s ∈ l, s.1 ≤ p ∧ p < stop s := lookup_ne_none_iff

/-- The segments of a separated list are the maximal runs of what it holds. -/
theorem Separated.isRun_iff {l : List (Segment α)} (h : Separated l) {lo hi : Nat} :
    IsRun (support l) lo hi ↔ ∃ s ∈ l, s.1 = lo ∧ stop s = hi := by
  constructor
  · intro hrun
    obtain ⟨s, hs, hlo, hlo'⟩ := mem_support_iff.mp (hrun.inside lo (le_refl _) hrun.lt)
    have hstart : s.1 = lo := by
      by_contra hne
      refine hrun.left (lo - 1) (by omega) (mem_support_iff.mpr ⟨s, hs, ?_, ?_⟩) <;> omega
    have hle : stop s ≤ hi := by
      by_contra hcon
      exact hrun.right (mem_support_iff.mpr ⟨s, hs, by have := hrun.lt; omega, by omega⟩)
    have hge : hi ≤ stop s := by
      by_contra hcon
      exact hrun.inside (stop s) (by omega) (by omega) (h.lookup_stop hs)
    exact ⟨s, hs, hstart, by omega⟩
  · rintro ⟨s, hs, rfl, rfl⟩
    refine ⟨lt_stop (h.nonempty s hs), fun p hp hp' => mem_support_iff.mpr ⟨s, hs, hp, hp'⟩, ?_,
      fun hmem => hmem (h.lookup_stop hs)⟩
    intro p hp hmem
    obtain ⟨t, ht, htp, htp'⟩ := mem_support_iff.mp hmem
    -- A segment over the position before `s` would touch `s`.
    rcases Nat.lt_or_ge (p + 1) (stop t) with hlt | hge
    · have hslt := lt_stop (h.nonempty s hs)
      have := h.eq_of_mem hs ht (p := p + 1) ⟨by omega, by omega⟩ ⟨by omega, hlt⟩
      subst this
      omega
    · have hnone := h.lookup_stop ht
      rw [show stop t = s.1 by omega] at hnone
      exact lookup_ne_none_iff.mpr ⟨s, hs, le_refl _, lt_stop (h.nonempty s hs)⟩ hnone

theorem support_cons (s : Segment α) (rest : List (Segment α)) :
    support (s :: rest) = Set.Ico s.1 (stop s) ∪ support rest := by
  ext p
  simp [mem_support_iff]

theorem support_nil : support ([] : List (Segment α)) = ∅ := by
  ext p
  simp [mem_support_iff]

/-- A position that is held, or that comes just after one that is. -/
def Attached (H : Set Nat) (pos : Nat) : Prop := pos ∈ H ∨ ∃ p ∈ H, p + 1 = pos

theorem attached_support_iff {l : List (Segment α)} (h : ∀ s ∈ l, s.2 ≠ []) {pos : Nat} :
    Attached (support l) pos ↔ ∃ s ∈ l, s.1 ≤ pos ∧ pos ≤ stop s := by
  constructor
  · rintro (hpos | ⟨p, hp, rfl⟩)
    · obtain ⟨s, hs, hle, hlt⟩ := mem_support_iff.mp hpos
      exact ⟨s, hs, hle, hlt.le⟩
    · obtain ⟨s, hs, hle, hlt⟩ := mem_support_iff.mp hp
      exact ⟨s, hs, by omega, hlt⟩
  · rintro ⟨s, hs, hle, hstop⟩
    have hlt := lt_stop (h s hs)
    rcases hstop.lt_or_eq with hinside | rfl
    · exact .inl (mem_support_iff.mpr ⟨s, hs, hle, hinside⟩)
    · exact .inr ⟨stop s - 1, mem_support_iff.mpr ⟨s, hs, by omega, by omega⟩, by omega⟩

/-- A range that begins apart from the held positions before it and reaches others after it,
be it that it ends just before them. -/
def RunsInto (H : Set Nat) (pos len : Nat) : Prop :=
  (∃ p ∈ H, p < pos) ∧ ¬ Attached H pos ∧ ∃ q ∈ H, pos < q ∧ q ≤ pos + len

theorem runsInto_support_iff {l : List (Segment α)} (h : ∀ s ∈ l, s.2 ≠ []) {pos len : Nat} :
    RunsInto (support l) pos len ↔ (∃ s ∈ l, s.1 ≤ pos) ∧ (∀ s ∈ l, s.1 ≤ pos → stop s < pos) ∧
      ∃ s ∈ l, pos < s.1 ∧ s.1 ≤ pos + len := by
  rw [RunsInto, attached_support_iff h]
  constructor
  · rintro ⟨⟨p, hp, hlt⟩, hapart, q, hq, hposq, hqlen⟩
    obtain ⟨s, hs, hle, _⟩ := mem_support_iff.mp hp
    obtain ⟨t, ht, htle, htlt⟩ := mem_support_iff.mp hq
    have hstops : ∀ s ∈ l, s.1 ≤ pos → stop s < pos := fun s hs hle => by
      by_contra hreach
      exact hapart ⟨s, hs, hle, by omega⟩
    refine ⟨⟨s, hs, by omega⟩, hstops, t, ht, ?_, by omega⟩
    by_contra hbefore
    have := hstops t ht (by omega)
    omega
  · rintro ⟨⟨s, hs, hle⟩, hstops, t, ht, hlt, hlen⟩
    have hfirst : ∀ s ∈ l, s.1 ∈ support l := fun s hs =>
      mem_support_iff.mpr ⟨s, hs, le_refl _, lt_stop (h s hs)⟩
    refine ⟨⟨s.1, hfirst s hs, ?_⟩, ?_, t.1, hfirst t ht, hlt, hlen⟩
    · have := hstops s hs hle
      have := lt_stop (h s hs)
      omega
    · rintro ⟨s', hs', hle', hreach⟩
      have := hstops s' hs' hle'
      omega

theorem support_finite (l : List (Segment α)) : (support l).Finite := by
  induction l with
  | nil => rw [support_nil]; exact Set.finite_empty
  | cons s rest ih => rw [support_cons]; exact (Set.finite_Ico _ _).union ih

/-- A separated list holds as many values as positions. -/
theorem Separated.total_eq {l : List (Segment α)} (h : Separated l) :
    total l = (support l).ncard := by
  induction l with
  | nil => simp [support_nil]
  | cons s rest ih =>
    obtain ⟨_, hrest, hsep⟩ := separated_cons.mp h
    have hdisj : Disjoint (Set.Ico s.1 (stop s)) (support rest) := by
      rw [Set.disjoint_left]
      intro p hp hmem
      obtain ⟨t, ht, htp, _⟩ := mem_support_iff.mp hmem
      have := hrest t ht
      have := hp.2
      omega
    have hcard : (Set.Ico s.1 (stop s)).ncard = s.2.length := by
      rw [← Finset.coe_Ico, Set.ncard_coe_finset, Nat.card_Ico]
      simp only [stop]
      omega
    rw [support_cons, Set.ncard_union_eq hdisj (Set.finite_Ico _ _) (support_finite rest), hcard,
      total_cons, ih hsep]

/-- Separated segments that all end by `bound` hold no more than `bound` values. -/
theorem Separated.total_le {l : List (Segment α)} (h : Separated l) {bound : Nat}
    (hstop : ∀ s ∈ l, stop s ≤ bound) : total l ≤ bound := by
  have hsub : support l ⊆ Set.Iio bound := by
    intro p hp
    obtain ⟨s, hs, _, hlt⟩ := mem_support_iff.mp hp
    exact hlt.trans_le (hstop s hs)
  have hcard : (Set.Iio bound).ncard = bound := by
    rw [← Finset.coe_Iio, Set.ncard_coe_finset, Nat.card_Iio]
  calc total l = (support l).ncard := h.total_eq
    _ ≤ (Set.Iio bound).ncard := Set.ncard_le_ncard hsub (Set.finite_Iio bound)
    _ = bound := hcard

/-- Taking segments away takes away the positions under them. -/
theorem Separated.support_sublist {l l' : List (Segment α)} (h : Separated l) (hsub : l'.Sublist l) :
    support l' = support l \ {p | ∃ s ∈ l, s ∉ l' ∧ s.1 ≤ p ∧ p < stop s} := by
  ext p
  simp only [Set.mem_sdiff, Set.mem_ofPred_eq, mem_support_iff]
  constructor
  · rintro ⟨s, hs, hp⟩
    refine ⟨⟨s, hsub.subset hs, hp⟩, ?_⟩
    rintro ⟨t, ht, hnot, hp'⟩
    rw [h.eq_of_mem (hsub.subset hs) ht hp hp'] at hs
    exact hnot hs
  · rintro ⟨⟨s, hs, hp⟩, hnot⟩
    by_contra hcon
    exact hnot ⟨s, hs, fun hs' => hcon ⟨s, hs', hp⟩, hp⟩

/-- and leaves the values at the others. -/
theorem Separated.lookup_sublist {l l' : List (Segment α)} (h : Separated l) (hsub : l'.Sublist l)
    {p : Nat} {x : α} (hp : lookup l' p = some x) : lookup l p = some x := by
  obtain ⟨s, hs, hsp⟩ := lookup_ne_none_iff.mp (by rw [hp]; simp : lookup l' p ≠ none)
  rw [(h.sublist hsub).lookup_of_mem hs hsp] at hp
  rw [h.lookup_of_mem (hsub.subset hs) hsp, hp]

/-! ### Writing a run -/

/-- The run `data` at `pos` written over the partial function `f`. -/
def overlay (f : Nat → Option α) (pos : Nat) (data : List α) (p : Nat) : Option α :=
  if pos ≤ p ∧ p < pos + data.length then data[p - pos]? else f p

theorem overlay_of_mem {f : Nat → Option α} {pos : Nat} {data : List α} {p : Nat}
    (h : pos ≤ p ∧ p < pos + data.length) : overlay f pos data p = data[p - pos]? := if_pos h

theorem overlay_of_not_mem {f : Nat → Option α} {pos : Nat} {data : List α} {p : Nat}
    (h : ¬ (pos ≤ p ∧ p < pos + data.length)) : overlay f pos data p = f p := if_neg h

/-- A segment gives a value at a position. -/
def Gives (s : Segment α) (p : Nat) (x : α) : Prop := s.1 ≤ p ∧ s.2[p - s.1]? = some x

theorem Gives.lt_stop {s : Segment α} {p : Nat} {x : α} (h : Gives s p x) : p < stop s := by
  obtain ⟨hlt, _⟩ := List.getElem?_eq_some_iff.mp h.2
  have := h.1
  simp only [stop]
  omega

theorem mem_support_iff_gives {l : List (Segment α)} {p : Nat} :
    p ∈ support l ↔ ∃ s ∈ l, ∃ x, Gives s p x := by
  rw [mem_support_iff]
  constructor
  · rintro ⟨s, hs, hp⟩
    obtain ⟨x, hx⟩ := getElem?_of_mem hp
    exact ⟨s, hs, x, hp.1, hx⟩
  · rintro ⟨s, hs, x, hx⟩
    exact ⟨s, hs, hx.1, hx.lt_stop⟩

theorem Gives.bounds {k p : Nat} {l : List α} {x : α} (h : Gives (k, l) p x) : k ≤ p ∧ p < k + l.length :=
  ⟨h.1, h.lt_stop⟩

/-- A separated list denotes the union of what its segments give. -/
theorem Separated.lookup_eq_some_iff {l : List (Segment α)} (h : Separated l) {p : Nat} {x : α} :
    lookup l p = some x ↔ ∃ s ∈ l, Gives s p x := by
  constructor
  · intro hx
    obtain ⟨s, hs, hp⟩ := lookup_ne_none_iff.mp (by rw [hx]; simp : lookup l p ≠ none)
    rw [h.lookup_of_mem hs hp] at hx
    exact ⟨s, hs, hp.1, hx⟩
  · rintro ⟨s, hs, hgives⟩
    rw [h.lookup_of_mem hs ⟨hgives.1, hgives.lt_stop⟩, hgives.2]

/-- A run written over a function it agrees with makes the union of the two. -/
theorem overlay_eq_some_iff {f : Nat → Option α} {pos : Nat} {data : List α} {p : Nat} {x : α}
    (hagree : ∀ y, pos ≤ p → p < pos + data.length → f p = some y → data[p - pos]? = some y) :
    overlay f pos data p = some x ↔ Gives (pos, data) p x ∨ f p = some x := by
  by_cases hp : pos ≤ p ∧ p < pos + data.length
  · rw [overlay_of_mem hp]
    constructor
    · exact fun hx => .inl ⟨hp.1, hx⟩
    · rintro (hgives | hx)
      · exact hgives.2
      · exact hagree x hp.1 hp.2 hx
  · rw [overlay_of_not_mem hp]
    constructor
    · exact .inr
    · rintro (hgives | hx)
      · exact absurd ⟨hgives.1, hgives.lt_stop⟩ hp
      · exact hx

theorem support_overlay {l l' : List (Segment α)} {pos : Nat} {data : List α}
    (h : ∀ p, lookup l' p = overlay (lookup l) pos data p) :
    support l' = support l ∪ Set.Ico pos (pos + data.length) := by
  ext p
  simp only [support, Set.mem_ofPred_eq, Set.mem_union, Set.mem_Ico, h]
  by_cases hp : pos ≤ p ∧ p < pos + data.length
  · rw [overlay_of_mem hp, List.getElem?_eq_getElem (by omega)]
    simp [hp]
  · rw [overlay_of_not_mem hp]
    simp [hp]

/-- Write the run `data` at `pos` on segments that begin at or after it: those it
covers go, and the one it ends in lends it its overhang. -/
def absorb (pos : Nat) (data : List α) : List (Segment α) → List α × List (Segment α)
  | [] => (data, [])
  | s :: rest =>
    if pos + data.length < s.1 then (data, s :: rest)
    else if stop s ≤ pos + data.length then absorb pos data rest
    else (data ++ s.2.drop (pos + data.length - s.1), rest)

theorem absorb_cons_of_lt {pos : Nat} {data : List α} {s : Segment α} {rest : List (Segment α)}
    (h : pos + data.length < s.1) : absorb pos data (s :: rest) = (data, s :: rest) := if_pos h

/-- A segment the run covers is gone. -/
theorem absorb_cons_of_covered {pos : Nat} {data : List α} {s : Segment α} {rest : List (Segment α)}
    (h : s.1 ≤ pos + data.length) (hstop : stop s ≤ pos + data.length) :
    absorb pos data (s :: rest) = absorb pos data rest := by
  rw [absorb, if_neg (by omega), if_pos hstop]

/-- The segment the run ends in lends it the values past the run. -/
theorem absorb_cons_of_overhang {pos : Nat} {data : List α} {s : Segment α} {rest : List (Segment α)}
    (h : s.1 ≤ pos + data.length) (hstop : pos + data.length < stop s) :
    absorb pos data (s :: rest) = (data ++ s.2.drop (pos + data.length - s.1), rest) := by
  rw [absorb, if_neg (by omega), if_neg (by omega)]

theorem absorb_of_lt {pos : Nat} {data : List α} {l : List (Segment α)}
    (h : ∀ s ∈ l, pos + data.length < s.1) : absorb pos data l = (data, l) := by
  cases l with
  | nil => rfl
  | cons s rest => simp [absorb, h s (List.mem_cons_self ..)]

/-- A run that ends in a segment, or at its end, is done there. -/
theorem absorb_cons_of_ends {pos : Nat} {data : List α} {s : Segment α} {rest : List (Segment α)}
    (h : s.1 ≤ pos + data.length) (hstop : pos + data.length ≤ stop s)
    (hrest : ∀ t ∈ rest, stop s < t.1) :
    absorb pos data (s :: rest) = (data ++ s.2.drop (pos + data.length - s.1), rest) := by
  rcases hstop.lt_or_eq with hlt | heq
  · exact absorb_cons_of_overhang h hlt
  · rw [absorb_cons_of_covered h heq.ge, absorb_of_lt fun t ht => heq ▸ hrest t ht,
      List.drop_of_length_le (by simp only [stop] at heq; omega), List.append_nil]

/-- Absorbing works from the end of the run: its front only comes along. -/
theorem absorb_append (pos : Nat) (front back : List α) (l : List (Segment α)) :
    absorb pos (front ++ back) l =
      (front ++ (absorb (pos + front.length) back l).1, (absorb (pos + front.length) back l).2) := by
  induction l with
  | nil => rfl
  | cons s rest ih =>
    have hreach : pos + (front ++ back).length = pos + front.length + back.length := by
      rw [List.length_append]
      omega
    simp only [absorb, hreach, ih]
    split
    · rfl
    · split
      · rfl
      · rw [List.append_assoc]

/-- A run that goes on past a segment goes on from its end. -/
theorem absorb_cons_of_passed {pos : Nat} {data : List α} {s : Segment α} {rest : List (Segment α)}
    (h : s.1 ≤ pos + data.length) (hstop : stop s ≤ pos + data.length) (hpos : pos ≤ stop s) :
    absorb pos data (s :: rest) =
      (data.take (stop s - pos) ++ (absorb (stop s) (data.drop (stop s - pos)) rest).1,
        (absorb (stop s) (data.drop (stop s - pos)) rest).2) := by
  have hfront : (data.take (stop s - pos)).length = stop s - pos := by
    rw [List.length_take]
    omega
  rw [absorb_cons_of_covered h hstop]
  conv_lhs => rw [← List.take_append_drop (stop s - pos) data]
  rw [absorb_append, hfront, show pos + (stop s - pos) = stop s by omega]

/-- The run itself comes first. -/
theorem absorb_prefix (pos : Nat) (data : List α) (l : List (Segment α)) :
    ∃ more, (absorb pos data l).1 = data ++ more := by
  induction l with
  | nil => exact ⟨[], (List.append_nil _).symm⟩
  | cons s rest ih =>
    unfold absorb
    split
    · exact ⟨[], (List.append_nil _).symm⟩
    · split
      · exact ih
      · exact ⟨_, rfl⟩

/-- What comes of the run ends where the segments it reaches do, or before. -/
theorem absorb_stop_le {pos bound : Nat} {data : List α} {l : List (Segment α)}
    (hdata : pos + data.length ≤ bound)
    (hl : ∀ s ∈ l, s.1 ≤ pos + data.length → stop s ≤ bound) :
    pos + (absorb pos data l).1.length ≤ bound := by
  induction l with
  | nil => exact hdata
  | cons s rest ih =>
    unfold absorb
    split
    · exact hdata
    · rename_i hreach
      split
      · exact ih fun t ht => hl t (List.mem_cons_of_mem _ ht)
      · have hstop := hl s (List.mem_cons_self ..) (by omega)
        simp only [stop] at hstop
        rw [List.length_append, List.length_drop]
        omega

/-- A run that ends inside a segment ends with it. -/
theorem absorb_stop_eq {pos : Nat} {data : List α} {l : List (Segment α)} {s : Segment α}
    (hl : Separated l) (hs : s ∈ l) (hreach : s.1 ≤ pos + data.length)
    (hover : pos + data.length < stop s) : pos + (absorb pos data l).1.length = stop s := by
  induction l with
  | nil => cases hs
  | cons t rest ih =>
    obtain ⟨_, hrest, hsep⟩ := separated_cons.mp hl
    rcases List.mem_cons.mp hs with rfl | hs
    · rw [absorb_cons_of_overhang hreach hover, List.length_append, List.length_drop]
      simp only [stop] at hover ⊢
      omega
    · have hbefore := hrest s hs
      have hlt := lt_stop (hl.nonempty t (List.mem_cons_self ..))
      rw [absorb_cons_of_covered (by omega) (by omega)]
      exact ih hsep hs

section Absorb
variable {pos : Nat} {data : List α} {l : List (Segment α)}

/-- Absorbing on segments is overlaying on what they denote. -/
theorem lookup_absorb (hl : Separated l) (hpos : ∀ s ∈ l, pos ≤ s.1) (p : Nat) :
    lookup ((pos, (absorb pos data l).1) :: (absorb pos data l).2) p =
      overlay (lookup l) pos data p := by
  induction l with
  | nil => rfl
  | cons s rest ih =>
    obtain ⟨_, hrest, hsep⟩ := separated_cons.mp hl
    have hs := hpos s (List.mem_cons_self ..)
    simp only [absorb]
    split
    · rfl
    · rename_i hreach
      split
      · rename_i hcovered
        rw [ih hsep fun t ht => hpos t (List.mem_cons_of_mem _ ht)]
        by_cases hp : pos ≤ p ∧ p < pos + data.length
        · rw [overlay_of_mem hp, overlay_of_mem hp]
        · rw [overlay_of_not_mem hp, overlay_of_not_mem hp, lookup_cons_of_not_mem (by omega)]
      · rename_i hcovered
        simp only [stop] at hcovered
        have hlen : (data ++ s.2.drop (pos + data.length - s.1)).length = stop s - pos := by
          simp only [List.length_append, List.length_drop, stop]
          omega
        by_cases hp : pos ≤ p ∧ p < pos + data.length
        · rw [overlay_of_mem hp, lookup_cons_of_mem (by rw [stop_mk, hlen]; simp only [stop]; omega),
            List.getElem?_append_left (by omega)]
        · rw [overlay_of_not_mem hp]
          by_cases hps : s.1 ≤ p ∧ p < stop s
          · rw [lookup_cons_of_mem hps, lookup_cons_of_mem (by rw [stop_mk, hlen]; simp only; omega),
              List.getElem?_append_right (by simp only; omega), List.getElem?_drop]
            congr 1
            simp only
            omega
          · rw [lookup_cons_of_not_mem hps, lookup_cons_of_not_mem (by rw [stop_mk, hlen]; simp only; omega)]

theorem separated_absorb (hl : Separated l) (hpos : ∀ s ∈ l, pos ≤ s.1) (hdata : data ≠ []) :
    Separated ((pos, (absorb pos data l).1) :: (absorb pos data l).2) := by
  induction l with
  | nil => exact separated_cons.mpr ⟨hdata, by simp [absorb], separated_nil⟩
  | cons s rest ih =>
    obtain ⟨_, hrest, hsep⟩ := separated_cons.mp hl
    have hs := hpos s (List.mem_cons_self ..)
    simp only [absorb]
    split
    · rename_i hreach
      refine separated_cons.mpr ⟨hdata, fun t ht => ?_, hl⟩
      rcases List.mem_cons.mp ht with rfl | ht
      · exact hreach
      · have := hrest t ht
        have := lt_stop (hl.nonempty s (List.mem_cons_self ..))
        simp only [stop_mk]
        omega
    · split
      · exact ih hsep fun t ht => hpos t (List.mem_cons_of_mem _ ht)
      · rename_i hcovered
        simp only [stop] at hcovered
        refine separated_cons.mpr ⟨by simp [hdata], fun t ht => ?_, hsep⟩
        have := hrest t ht
        simp only [stop_mk, List.length_append, List.length_drop]
        simp only [stop] at this
        omega

end Absorb

/-! ### Writing into a list of segments -/

section Write
variable {pos : Nat} {data : List α} {pre post : List (Segment α)}

/-- A run that touches no segment goes between those before it and those after it. -/
theorem separated_insert (hdata : data ≠ []) (h : Separated (pre ++ post))
    (hpre : ∀ s ∈ pre, stop s < pos) (hpost : ∀ s ∈ post, pos + data.length < s.1) :
    Separated (pre ++ (pos, data) :: post) := by
  obtain ⟨hsepPre, hsepPost, hcross⟩ := separated_append.mp h
  refine separated_append.mpr ⟨hsepPre, separated_cons.mpr ⟨hdata, hpost, hsepPost⟩, fun s hs t ht => ?_⟩
  rcases List.mem_cons.mp ht with rfl | ht
  · exact hpre s hs
  · exact hcross s hs t ht

theorem lookup_insert (hpre : ∀ s ∈ pre, stop s < pos) (p : Nat) :
    lookup (pre ++ (pos, data) :: post) p = overlay (lookup (pre ++ post)) pos data p := by
  rw [lookup_append]
  by_cases hp : pos ≤ p ∧ p < pos + data.length
  · rw [overlay_of_mem hp, lookup_cons_of_mem hp, lookup_eq_none_of_stop_le fun s hs =>
      ((hpre s hs).trans_le hp.1).le, Option.none_or]
  · rw [overlay_of_not_mem hp, lookup_cons_of_not_mem hp, lookup_append]

/-- Segments ahead of a write that lies beyond them stay. -/
theorem lookup_after {l l' : List (Segment α)} (hpre : ∀ s ∈ pre, stop s ≤ pos)
    (h : ∀ p, lookup l' p = overlay (lookup l) pos data p) (p : Nat) :
    lookup (pre ++ l') p = overlay (lookup (pre ++ l)) pos data p := by
  rw [lookup_append, h]
  by_cases hp : pos ≤ p ∧ p < pos + data.length
  · rw [overlay_of_mem hp, overlay_of_mem hp, lookup_eq_none_of_stop_le fun s hs =>
      (hpre s hs).trans hp.1, Option.none_or]
  · rw [overlay_of_not_mem hp, overlay_of_not_mem hp, lookup_append]

variable {start : Nat} {held : List α} {rest : List (Segment α)}

/-- A segment grown by a run that begins in it, or at its end: the part of the run
past the segment is absorbed. -/
theorem absorb_extend (start : Nat) (held more : List α) (rest : List (Segment α)) :
    (start, held ++ (absorb (start + held.length) more rest).1) ::
        (absorb (start + held.length) more rest).2 =
      (start, (absorb start (held ++ more) rest).1) :: (absorb start (held ++ more) rest).2 := by
  rw [absorb_append]

theorem separated_extend (h : Separated ((start, held) :: rest)) (more : List α) :
    Separated ((start, held ++ (absorb (start + held.length) more rest).1) ::
      (absorb (start + held.length) more rest).2) := by
  obtain ⟨hheld, hrest, hsep⟩ := separated_cons.mp h
  rw [absorb_extend]
  refine separated_absorb hsep (fun s hs => ?_) (by simp [show held ≠ [] from hheld])
  have := hrest s hs
  simp only [stop_mk] at this
  omega

/-- Growing a segment writes the run, and the values of the segment over it. -/
theorem lookup_grow (h : Separated ((start, held) :: rest)) (hstart : start ≤ pos)
    (hstop : pos ≤ start + held.length) (p : Nat) :
    lookup ((start, held ++ (absorb (start + held.length)
        (data.drop (start + held.length - pos)) rest).1) ::
      (absorb (start + held.length) (data.drop (start + held.length - pos)) rest).2) p =
      overlay (overlay (lookup rest) pos data) start held p := by
  obtain ⟨_, hrest, hsep⟩ := separated_cons.mp h
  rw [absorb_extend, lookup_absorb hsep fun s hs => by
    have := hrest s hs
    simp only [stop_mk] at this
    omega]
  have hlength : (held ++ data.drop (start + held.length - pos)).length =
      held.length + (data.length - (start + held.length - pos)) := by
    rw [List.length_append, List.length_drop]
  by_cases hheld : start ≤ p ∧ p < start + held.length
  · rw [overlay_of_mem (by omega), overlay_of_mem hheld, List.getElem?_append_left (by omega)]
  · rw [overlay_of_not_mem hheld]
    by_cases hp : pos ≤ p ∧ p < pos + data.length
    · rw [overlay_of_mem (by omega), overlay_of_mem hp, List.getElem?_append_right (by omega),
        List.getElem?_drop]
      congr 1
      omega
    · rw [overlay_of_not_mem (by omega), overlay_of_not_mem hp]

/-- That is the run, if it agrees with what the segment holds already. -/
theorem lookup_extend (h : Separated ((start, held) :: rest)) (hstart : start ≤ pos)
    (hstop : pos ≤ start + held.length)
    (hagree : ∀ p, pos ≤ p → p < pos + data.length → p < start + held.length →
      held[p - start]? = data[p - pos]?) (p : Nat) :
    lookup ((start, held ++ (absorb (start + held.length)
        (data.drop (start + held.length - pos)) rest).1) ::
      (absorb (start + held.length) (data.drop (start + held.length - pos)) rest).2) p =
      overlay (lookup ((start, held) :: rest)) pos data p := by
  rw [lookup_grow h hstart hstop]
  by_cases hheld : start ≤ p ∧ p < start + held.length
  · rw [overlay_of_mem hheld]
    by_cases hp : pos ≤ p ∧ p < pos + data.length
    · rw [overlay_of_mem hp, hagree p hp.1 hp.2 hheld.2]
    · rw [overlay_of_not_mem hp, lookup_cons_of_mem hheld]
  · rw [overlay_of_not_mem hheld]
    by_cases hp : pos ≤ p ∧ p < pos + data.length
    · rw [overlay_of_mem hp, overlay_of_mem hp]
    · rw [overlay_of_not_mem hp, overlay_of_not_mem hp, lookup_cons_of_not_mem hheld]

/-- A run reaches the segments that begin at or before its end, and absorbs just those. -/
theorem absorb_reached {reached later : List (Segment α)} (h : Separated (reached ++ later))
    (hreached : ∀ s ∈ reached, s.1 ≤ pos + data.length)
    (hlater : ∀ s ∈ later, pos + data.length < s.1) : (absorb pos data (reached ++ later)).2 = later := by
  induction reached with
  | nil => rw [List.nil_append, absorb_of_lt hlater]
  | cons s others ih =>
    obtain ⟨_, hothers, hsep⟩ := separated_cons.mp h
    have hs := hreached s (List.mem_cons_self ..)
    rw [List.cons_append]
    rcases Nat.lt_or_ge (pos + data.length) (stop s) with hover | hcovered
    · have hnone : others = [] := by
        apply List.eq_nil_iff_forall_not_mem.mpr
        intro t ht
        have := hothers t (List.mem_append_left _ ht)
        have := hreached t (List.mem_cons_of_mem _ ht)
        omega
      rw [absorb_cons_of_overhang hs hover, hnone, List.nil_append]
    · rw [absorb_cons_of_covered hs hcovered]
      exact ih hsep fun t ht => hreached t (List.mem_cons_of_mem _ ht)

end Write

end Segments
