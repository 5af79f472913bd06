import Svfs.Library.Starts

/-! Regions that are filled from their starts.

Pieces that each lie in a region, and of which each comes after all that its region has
before it, never run into what is there (`Filled.not_runsInto`): a region is held up to some
position, and no two regions touch. So it does not matter how several sequences of such
pieces are mixed, and there is a run for each region that was begun (`Filled.starts_eq`). -/
namespace Regions
open Demand (range take starts)
open Segments (Attached RunsInto)

/-- Where a region begins, and where it ends. -/
abbrev Region := Nat × Nat

/-- No region is empty, and between any two there is a position of neither. -/
structure Apart (rs : List Region) : Prop where
  nonempty : ∀ r ∈ rs, r.1 < r.2
  apart : ∀ r ∈ rs, ∀ r' ∈ rs, r = r' ∨ r.2 < r'.1 ∨ r'.2 < r.1

/-- A piece within a region of which all before the piece is in `D`. -/
def Grounded (rs : List Region) (t : Nat × Nat) (D : Set Nat) : Prop :=
  ∃ r ∈ rs, r.1 ≤ t.1 ∧ t.1 + t.2 ≤ r.2 ∧ Set.Ico r.1 t.1 ⊆ D

/-- Of each region just a beginning is held. -/
structure Filled (rs : List Region) (H : Set Nat) : Prop where
  inside : ∀ p ∈ H, ∃ r ∈ rs, r.1 ≤ p ∧ p < r.2
  front : ∀ r ∈ rs, ∀ p ∈ H, r.1 ≤ p → p < r.2 → Set.Ico r.1 p ⊆ H

variable {rs : List Region} {D D' H : Set Nat} {t : Nat × Nat} {ts : List (Nat × Nat)}

theorem Grounded.mono (h : Grounded rs t D) (hle : D ⊆ D') : Grounded rs t D' := by
  obtain ⟨r, hr, hstart, hstop, hbefore⟩ := h
  exact ⟨r, hr, hstart, hstop, hbefore.trans hle⟩

/-- What others have put there does not hinder a sequence of pieces. -/
theorem along_mono (h : Run.Along take (Grounded rs) D ts) (hle : D ⊆ D') :
    Run.Along take (Grounded rs) D' ts := by
  induction ts generalizing D D' with
  | nil => trivial
  | cons t rest ih => exact ⟨h.1.mono hle, ih h.2 (Set.union_subset_union_left _ hle)⟩

theorem filled_empty (rs : List Region) : Filled rs ∅ := ⟨fun _ hp => hp.elim, fun _ _ _ hp => hp.elim⟩

section Filled
variable (hrs : Apart rs)
include hrs

/-- A position lies in one region only. -/
theorem Apart.eq_of_mem {r r' : Region} (hr : r ∈ rs) (hr' : r' ∈ rs) {p : Nat} (hp : r.1 ≤ p ∧ p < r.2)
    (hp' : r'.1 ≤ p ∧ p < r'.2) : r = r' := by
  rcases hrs.apart r hr r' hr' with heq | hbefore | hafter
  · exact heq
  · omega
  · omega

/-- **A grounded piece** runs into nothing, -/
theorem Filled.not_runsInto (h : Filled rs H) (ht : Grounded rs t H) : ¬ RunsInto H t.1 t.2 := by
  obtain ⟨r, hr, hstart, hstop, _⟩ := ht
  rintro ⟨_, hapart, q, hq, hlt, hle⟩
  obtain ⟨r', hr', hq'⟩ := h.inside q hq
  rcases hrs.apart r hr r' hr' with rfl | hbefore | hafter
  · exact hapart (.inl (h.front r hr q hq hq'.1 hq'.2 ⟨hstart, hlt⟩))
  · omega
  · omega

/-- and leaves its region filled a little further. -/
theorem Filled.take (h : Filled rs H) (ht : Grounded rs t H) : Filled rs (take t H) := by
  obtain ⟨r, hr, hstart, hstop, hbefore⟩ := ht
  refine ⟨fun p hp => ?_, fun r' hr' p hp hle hlt q hq => ?_⟩
  · cases hp with
    | inl hold => exact h.inside p hold
    | inr hnew => exact ⟨r, hr, hstart.trans hnew.1, hnew.2.trans_le hstop⟩
  · cases hp with
    | inl hold => exact .inl (h.front r' hr' p hold hle hlt hq)
    | inr hnew =>
      obtain rfl := hrs.eq_of_mem hr' hr ⟨hle, hlt⟩ ⟨hstart.trans hnew.1, hnew.2.trans_le hstop⟩
      rcases Nat.lt_or_ge q t.1 with hearlier | hlater
      · exact .inl (hbefore ⟨hq.1, hearlier⟩)
      · exact .inr ⟨hlater, hq.2.trans hnew.2⟩

/-- There is a run for each region that was begun. -/
theorem Filled.starts_eq (h : Filled rs H) : starts H = {x | x ∈ H ∧ ∃ r ∈ rs, r.1 = x} := by
  ext x
  constructor
  · rintro ⟨hx, hleft⟩
    obtain ⟨r, hr, hle, hlt⟩ := h.inside x hx
    refine ⟨hx, r, hr, ?_⟩
    by_contra hne
    exact hleft (x - 1) (by omega) (h.front r hr x hx hle hlt ⟨by omega, by omega⟩)
  · rintro ⟨hx, r, hr, rfl⟩
    refine ⟨hx, fun p hp hmem => ?_⟩
    obtain ⟨r', hr', hle, hlt⟩ := h.inside p hmem
    have hne := hrs.nonempty r hr
    rcases hrs.apart r hr r' hr' with rfl | hbefore | hafter <;> omega

end Filled
end Regions
