import Mathlib.Data.List.Basic
import Svfs.Library.Run

/-! Parties that take turns at something they share.

Each party has a state of its own, and `act` is what it does when it is its turn: any order
of turns is an interleaving of the parties. What each turn lowers, as long as there is any of
it left, is gone after so many turns (`run_le`). -/
namespace Turns

universe u v
variable {π : Type u} {σ : Type v}

structure Shared (π : Type u) (σ : Type v) where
  parties : List π
  common : σ

/-- The party with this number acts, if there is one. -/
def turn (act : π → σ → π × σ) (i : Nat) (s : Shared π σ) : Shared π σ :=
  match s.parties[i]? with
  | none => s
  | some p => ⟨s.parties.set i (act p s.common).1, (act p s.common).2⟩

/-- A measure of the party with this number. -/
def rankAt (rank : π → Nat) (i : Nat) (s : Shared π σ) : Nat := s.parties[i]?.elim 0 rank

section Turn
variable {act : π → σ → π × σ} {i j : Nat} {s : Shared π σ} {p p' : π} {l : List π} {rank : π → Nat}

theorem turn_of_none (h : s.parties[i]? = none) : turn act i s = s := by rw [turn, h]

theorem turn_of_some (h : s.parties[i]? = some p) :
    turn act i s = ⟨s.parties.set i (act p s.common).1, (act p s.common).2⟩ := by rw [turn, h]

theorem forall_mem_set {P : π → Prop} (h : ∀ q ∈ l, P q) (hp : P p') : ∀ q ∈ l.set i p', P q := by
  intro q hq
  cases List.mem_or_eq_of_mem_set hq with
  | inl hold => exact h q hold
  | inr hnew => exact hnew ▸ hp

/-- What the turn of a party leaves alone in it, it leaves alone in all. -/
theorem map_set_of_eq {β : Type*} {f : π → β} (h : l[i]? = some p) (hsame : f p' = f p) :
    (l.set i p').map f = l.map f := by
  have hself : l.set i p = l := by
    rw [← (List.getElem?_eq_some_iff.mp h).2]
    exact List.set_getElem_self _
  rw [List.map_set, hsame, ← List.map_set, hself]

theorem rankAt_of_some (h : s.parties[i]? = some p) : rankAt rank i s = rank p := by
  rw [rankAt, h]
  rfl

theorem rankAt_turn_self (h : s.parties[i]? = some p) :
    rankAt rank i (turn act i s) = rank (act p s.common).1 := by
  rw [turn_of_some h, rankAt, List.getElem?_set_self (List.getElem?_eq_some_iff.mp h).1]
  rfl

theorem rankAt_turn_of_ne (h : j ≠ i) : rankAt rank j (turn act i s) = rankAt rank j s := by
  cases hp : s.parties[i]? with
  | none => rw [turn_of_none hp]
  | some p => rw [turn_of_some hp, rankAt, List.getElem?_set_ne h.symm, rankAt]

/-- A turn that lowers the rank of the party whose it is lowers just that. -/
theorem rankAt_turn_le (hact : ∀ p, s.parties[i]? = some p → rank (act p s.common).1 ≤ rank p - 1) :
    rankAt rank j (turn act i s) ≤ rankAt rank j s - if i = j then 1 else 0 := by
  by_cases hj : j = i
  · subst hj
    rw [if_pos rfl]
    cases hp : s.parties[j]? with
    | none =>
      rw [turn_of_none hp, rankAt, hp]
      exact Nat.zero_le _
    | some p =>
      rw [rankAt_turn_self hp, rankAt_of_some hp]
      exact hact p hp
  · rw [rankAt_turn_of_ne hj, if_neg (Ne.symm hj)]
    exact Nat.le_refl _

end Turn

/-- What some inputs of a run lower, and none raises. -/
theorem run_le {ι τ : Type*} {step : ι → τ → τ} {A : ι → τ → Prop} {P : τ → Prop} {μ : τ → Nat} (lowers : ι → Bool)
    (hstep : ∀ m t, A m t → P t → P (step m t) ∧ μ (step m t) ≤ μ t - if lowers m then 1 else 0)
    {t : τ} {ms : List ι} (h : P t) (ha : Run.Along step A t ms) :
    μ (Run.run step t ms) ≤ μ t - ms.countP lowers := by
  induction ms generalizing t with
  | nil => exact Nat.le_refl _
  | cons m rest ih =>
    obtain ⟨hnext, hle⟩ := hstep m t ha.1 h
    have hrest := ih hnext ha.2
    rw [List.countP_cons]
    simp only [Run.run]
    omega

end Turns
