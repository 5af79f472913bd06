import Svfs.Library.Segments

/-! Segments one after the other.

`Stacked P top` is less than `Separated`: segments that are not empty and lie in order below
`top`, touching as they may, with nothing in them but what may stand where it stands. A segment
may be put in, grown or taken out without a look at the others but its neighbours. -/
namespace Segments

universe u
variable {α : Type u} {P Q : Nat → α → Prop}

/-- What a segment gives, `P` lets stand there. -/
def Bears (P : Nat → α → Prop) (s : Segment α) : Prop := ∀ p x, Gives s p x → P p x

theorem Bears.mono {s : Segment α} (h : Bears P s) (hmono : ∀ p x, P p x → Q p x) : Bears Q s :=
  fun p x hx => hmono p x (h p x hx)

section Parts
variable {k : Nat} {a b : List α}

theorem gives_append {p : Nat} {x : α} :
    Gives (k, a ++ b) p x ↔ Gives (k, a) p x ∨ Gives (k + a.length, b) p x := by
  simp only [Gives]
  rcases Nat.lt_or_ge (p - k) a.length with hlt | hge
  · rw [List.getElem?_append_left hlt]
    refine (or_iff_left ?_).symm
    rintro ⟨hle, hx⟩
    omega
  · rw [List.getElem?_append_right hge, List.getElem?_eq_none hge, show p - k - a.length = p - (k + a.length) by omega]
    constructor
    · rintro ⟨hle, hx⟩
      refine .inr ⟨?_, hx⟩
      omega
    · rintro (⟨_, hx⟩ | ⟨hle, hx⟩)
      · cases hx
      · exact ⟨by omega, hx⟩

theorem bears_append : Bears P (k, a ++ b) ↔ Bears P (k, a) ∧ Bears P (k + a.length, b) := by
  simp only [Bears, gives_append]
  constructor
  · exact fun h => ⟨fun p x hx => h p x (.inl hx), fun p x hx => h p x (.inr hx)⟩
  · exact fun h p x hx => hx.elim (h.1 p x) (h.2 p x)

theorem bears_nil (P : Nat → α → Prop) (k : Nat) : Bears P (k, []) := by
  intro p x hx
  cases hx.2

theorem Bears.take (h : Bears P (k, a)) (n : Nat) : Bears P (k, a.take n) :=
  (bears_append.mp (show Bears P (k, a.take n ++ a.drop n) by rwa [List.take_append_drop])).1

theorem Bears.drop (h : Bears P (k, a)) (n : Nat) : Bears P (k + n, a.drop n) := by
  rcases Nat.lt_or_ge n a.length with hlt | hge
  · have hparts := bears_append.mp (show Bears P (k, a.take n ++ a.drop n) by rwa [List.take_append_drop])
    rw [List.length_take, min_eq_left hlt.le] at hparts
    exact hparts.2
  · rw [List.drop_of_length_le hge]
    exact bears_nil P _

end Parts

/-- Segments in order below `top`, none empty, none reaching past the beginning of the next. -/
structure Stacked (P : Nat → α → Prop) (top : Nat) (l : List (Segment α)) : Prop where
  nonempty : ∀ s ∈ l, s.2 ≠ []
  below : ∀ s ∈ l, stop s < top
  bears : ∀ s ∈ l, Bears P s
  apart : l.Pairwise fun a b => stop a ≤ b.1

section Stacked
variable {top : Nat} {l a b : List (Segment α)} {s : Segment α}

theorem stacked_nil : Stacked P top [] := ⟨nofun, nofun, nofun, .nil⟩

theorem Stacked.placed (h : Stacked P top l) : Placed l := ⟨h.nonempty, h.apart⟩

theorem Stacked.sublist (h : Stacked P top l) (ha : a.Sublist l) : Stacked P top a :=
  ⟨fun s hs => h.nonempty s (ha.subset hs), fun s hs => h.below s (ha.subset hs),
    fun s hs => h.bears s (ha.subset hs), h.apart.sublist ha⟩

theorem Stacked.mono (h : Stacked P top l) (hmono : ∀ p x, P p x → Q p x) : Stacked Q top l :=
  ⟨h.nonempty, h.below, fun s hs => (h.bears s hs).mono hmono, h.apart⟩

/-- What lies around one of them. -/
theorem Stacked.around (h : Stacked P top (a ++ s :: b)) :
    (∀ t ∈ a, stop t ≤ s.1) ∧ ∀ t ∈ b, stop s ≤ t.1 := by
  obtain ⟨_, hb, hcross⟩ := List.pairwise_append.mp h.apart
  exact ⟨fun t ht => hcross t ht s (List.mem_cons_self ..), fun t ht => List.rel_of_pairwise_cons hb ht⟩

/-- One more, where the others leave room for it. -/
theorem Stacked.insert (h : Stacked P top (a ++ b)) (hs : s.2 ≠ []) (htop : stop s < top) (hbears : Bears P s)
    (hbefore : ∀ t ∈ a, stop t ≤ s.1) (hafter : ∀ t ∈ b, stop s ≤ t.1) : Stacked P top (a ++ s :: b) := by
  have hall : ∀ {R : Segment α → Prop}, R s → (∀ t ∈ a ++ b, R t) → ∀ t ∈ a ++ s :: b, R t := by
    intro R hR hrest t ht
    rcases List.mem_append.mp ht with ht | ht
    · exact hrest t (List.mem_append_left _ ht)
    · rcases List.mem_cons.mp ht with rfl | ht
      · exact hR
      · exact hrest t (List.mem_append_right _ ht)
  refine ⟨hall hs h.nonempty, hall htop h.below, hall hbears h.bears, ?_⟩
  obtain ⟨ha, hb, hcross⟩ := List.pairwise_append.mp h.apart
  refine List.pairwise_append.mpr ⟨ha, List.pairwise_cons.mpr ⟨hafter, hb⟩, fun t ht v hv => ?_⟩
  rcases List.mem_cons.mp hv with rfl | hv
  · exact hbefore t ht
  · exact hcross t ht v hv

/-- One grown into the room it has. -/
theorem Stacked.grow {data data' : List α} {k : Nat} (h : Stacked P top (a ++ (k, data) :: b))
    (hdata : Bears P (k + data.length, data')) (htop : k + (data ++ data').length < top)
    (hafter : ∀ t ∈ b, k + (data ++ data').length ≤ t.1) : Stacked P top (a ++ (k, data ++ data') :: b) := by
  have hmem : (k, data) ∈ a ++ (k, data) :: b := by simp
  apply (h.sublist ((List.Sublist.refl a).append (List.sublist_cons_self _ b))).insert
  · exact List.append_ne_nil_of_left_ne_nil (h.nonempty _ hmem) _
  · exact htop
  · exact bears_append.mpr ⟨h.bears _ hmem, hdata⟩
  · exact h.around.1
  · exact hafter

/-- What one of them gives is found. -/
theorem Stacked.lookup_of_gives (h : Stacked P top l) (hs : s ∈ l) {p : Nat} {x : α} (hx : Gives s p x) :
    lookup l p = some x := by
  induction l with
  | nil => cases hs
  | cons t rest ih =>
    rcases List.mem_cons.mp hs with rfl | hs
    · rw [lookup_cons_of_mem ⟨hx.1, hx.lt_stop⟩]
      exact hx.2
    · have hafter : stop t ≤ s.1 := List.rel_of_pairwise_cons h.apart hs
      rw [lookup_cons_of_not_mem fun hp => absurd hx.1 (not_le.mpr (hp.2.trans_le hafter))]
      exact ih (h.sublist (List.sublist_cons_self t rest)) hs

/-- What is found in them may stand there. -/
theorem Stacked.lookup (h : Stacked P top l) {p : Nat} {x : α} (hx : lookup l p = some x) : P p x := by
  induction l with
  | nil => cases hx
  | cons s rest ih =>
    by_cases hp : s.1 ≤ p ∧ p < stop s
    · rw [lookup_cons_of_mem hp] at hx
      exact h.bears s (List.mem_cons_self ..) p x ⟨hp.1, hx⟩
    · rw [lookup_cons_of_not_mem hp] at hx
      exact ih (h.sublist (List.sublist_cons_self s rest)) hx

end Stacked
end Segments
