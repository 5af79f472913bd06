import Mathlib.Order.Bounds.Basic
import Svfs.Library.Greedy
import Svfs.Library.Run
import Svfs.Library.Segments

/-! Demands on a set of positions.

A demand is a start and a length, and a set of positions serves it if it has them all.
Otherwise what is missing is fetched: just that, or with greed for more than the demand so
many positions from the first missing one on. `serve` is what the set has become after a
demand, whether or not it was a hit.

What the set has after some demands is what it had and what was demanded, and more only
where greed fetched it (`run_serve_of_le`). Demands that come in order of their starts are
never stranded behind positions they would run into (`along_of_sorted`). -/
namespace Demand
open Segments (Attached RunsInto)

/-- The positions of a demand, or of a piece of one. -/
def range (d : Nat × Nat) : Set Nat := Set.Ico d.1 (d.1 + d.2)

/-- One piece taken in. -/
def take (t : Nat × Nat) (H : Set Nat) : Set Nat := H ∪ range t

/-- All of the demand is there. -/
def Hit (H : Set Nat) (d : Nat × Nat) : Prop := range d ⊆ H

/-- What is fetched for a demand. -/
def fetched (g : Nat) (H : Set Nat) (d : Nat × Nat) : Set Nat :=
  if d.2 < g then {q | ∃ p, IsLeast (range d \ H) p ∧ p ≤ q ∧ q < p + g} else range d \ H

def serve (g : Nat) (d : Nat × Nat) (H : Set Nat) : Set Nat := H ∪ fetched g H d

/-- The first of what is fetched begins apart from what lies before it, and runs into what
lies after it. -/
def Stranded (g : Nat) (d : Nat × Nat) (H : Set Nat) : Prop := RunsInto H d.1 (max d.2 g)

open Classical in
/-- The demands that are hits, each at its turn. -/
noncomputable def hits (g : Nat) : Set Nat → List (Nat × Nat) → Nat
  | _, [] => 0
  | H, d :: rest => (if Hit H d then 1 else 0) + hits g (serve g d H) rest

variable {g p q : Nat} {H : Set Nat} {d : Nat × Nat} {ds : List (Nat × Nat)}

theorem mem_range : q ∈ range d ↔ d.1 ≤ q ∧ q < d.1 + d.2 := Iff.rfl

theorem not_hit_iff : ¬ Hit H d ↔ ∃ q ∈ range d, q ∉ H := Set.not_subset

/-- There is a first missing position where any is missing. -/
theorem exists_first (h : ¬ Hit H d) : ∃ p, IsLeast (range d \ H) p := by
  classical
  obtain ⟨q, hq, hnot⟩ := not_hit_iff.mp h
  have hsome : ∃ p, p ∈ range d \ H := ⟨q, hq, hnot⟩
  exact ⟨Nat.find hsome, Nat.find_spec hsome, fun p hp => Nat.find_min' hsome hp⟩

theorem fetched_of_le (h : g ≤ d.2) : fetched g H d = range d \ H := if_neg (not_lt.mpr h)

theorem fetched_of_lt (h : d.2 < g) (hp : IsLeast (range d \ H) p) :
    fetched g H d = Set.Ico p (p + g) := by
  rw [fetched, if_pos h]
  ext q
  constructor
  · rintro ⟨p', hp', hq⟩
    rwa [hp.unique hp']
  · intro hq
    exact ⟨p, hp, hq⟩

/-- Nothing is fetched for a hit. -/
theorem fetched_of_hit (h : Hit H d) : fetched g H d = ∅ := by
  unfold fetched
  split
  · apply Set.eq_empty_iff_forall_notMem.mpr
    rintro q ⟨p, ⟨⟨hp, hnot⟩, _⟩, _⟩
    exact hnot (h hp)
  · exact Set.sdiff_eq_empty.mpr h

theorem serve_of_hit (h : Hit H d) : serve g d H = H := by
  rw [serve, fetched_of_hit h, Set.union_empty]

/-- What is missing of a demand is fetched. -/
theorem missing_subset_fetched : range d \ H ⊆ fetched g H d := by
  intro q hq
  by_cases hg : d.2 < g
  · obtain ⟨p, hp⟩ := exists_first (not_hit_iff.mpr ⟨q, hq⟩)
    have hle := hp.2 hq
    have hfirst := hp.1.1
    rw [mem_range] at hfirst
    have hlast := hq.1
    rw [mem_range] at hlast
    rw [fetched_of_lt hg hp]
    exact ⟨hle, by omega⟩
  · rwa [fetched_of_le (not_lt.mp hg)]

/-- Served is served. -/
theorem hit_serve : Hit (serve g d H) d := by
  intro q hq
  by_cases hheld : q ∈ H
  · exact .inl hheld
  · exact .inr (missing_subset_fetched ⟨hq, hheld⟩)

/-! ### Runs of demands -/

/-- Without greed for more than any demand just the demands are fetched. -/
theorem run_serve_of_le (hg : ∀ d ∈ ds, g ≤ d.2) :
    Run.run (serve g) H ds = H ∪ {p | ∃ d ∈ ds, p ∈ range d} := by
  induction ds generalizing H with
  | nil => simp [Run.run]
  | cons d rest ih =>
    obtain ⟨hd, hrest⟩ := List.forall_mem_cons.mp hg
    have hserve : serve g d H = H ∪ range d := by rw [serve, fetched_of_le hd, Set.union_sdiff_self]
    rw [Run.run, ih hrest, hserve]
    ext p
    simp [or_assoc]

/-! ### Pieces -/

theorem run_take (H : Set Nat) (ts : List (Nat × Nat)) : Run.run take H ts = H ∪ Greedy.positions ts := by
  induction ts generalizing H with
  | nil => rw [Run.run, Greedy.positions_nil, Set.union_empty]
  | cons t rest ih =>
    rw [Run.run, ih, ← List.singleton_append, Greedy.positions_append, Greedy.positions_singleton, take, range,
      Set.union_assoc]

theorem runsInto_mono {pos len len' : Nat} (h : RunsInto H pos len) (hle : len ≤ len') : RunsInto H pos len' := by
  obtain ⟨hbefore, hapart, q, hq, hlt, hreach⟩ := h
  exact ⟨hbefore, hapart, q, hq, hlt, hreach.trans (Nat.add_le_add_left hle _)⟩

theorem attached_take {pos : Nat} {t : Nat × Nat} (h : Attached H pos) : Attached (take t H) pos := by
  cases h with
  | inl hmem => exact .inl (.inl hmem)
  | inr hnext =>
    obtain ⟨p, hp, heq⟩ := hnext
    exact .inr ⟨p, .inl hp, heq⟩

/-- Pieces that begin at what is there run into nothing. -/
theorem along_of_attached {ts : List (Nat × Nat)} (h : ∀ t ∈ ts, Attached H t.1) :
    Run.Along take (fun t H => ¬ RunsInto H t.1 t.2) H ts := by
  induction ts generalizing H with
  | nil => trivial
  | cons t rest ih =>
    obtain ⟨hfirst, hrest⟩ := List.forall_mem_cons.mp h
    exact ⟨fun hruns => hruns.2.1 hfirst, ih fun t ht => attached_take (hrest t ht)⟩

/-- Pieces in order, of which only one that begins where the demand does may be apart from
what is there. -/
theorem along_of_not_stranded {ts : List (Nat × Nat)} (h : ¬ Stranded g d H)
    (hstarts : ∀ t ∈ ts, t.1 = d.1 ∨ d.1 < t.1 ∧ Attached H t.1) (hlength : ∀ t ∈ ts, t.2 ≤ max d.2 g)
    (hsorted : ts.Pairwise fun a b => a.1 < b.1) :
    Run.Along take (fun t H => ¬ RunsInto H t.1 t.2) H ts := by
  cases ts with
  | nil => trivial
  | cons t rest =>
    obtain ⟨hfirst, hrest⟩ := List.forall_mem_cons.mp hstarts
    obtain ⟨hshort, _⟩ := List.forall_mem_cons.mp hlength
    refine ⟨fun hruns => ?_, along_of_attached fun u hu => ?_⟩
    · cases hfirst with
      | inl heq =>
        rw [heq] at hruns
        exact h (runsInto_mono hruns hshort)
      | inr hlater => exact hruns.2.1 hlater.2
    · have hlt := List.rel_of_pairwise_cons hsorted hu
      cases hrest u hu with
      | inl heq =>
        have hle : d.1 ≤ t.1 := hfirst.elim (fun heq => heq.ge) fun hlater => hlater.1.le
        omega
      | inr hlater => exact attached_take hlater.2

/-! ### Demands in order -/

/-- From this position on the set is one run, if there is any of it. -/
def OneRunFrom (H : Set Nat) (x : Nat) : Prop := ∀ q ∈ H, ∀ y, x ≤ y → y ≤ q → y ∈ H

theorem OneRunFrom.later {x y : Nat} (h : OneRunFrom H x) (hle : x ≤ y) : OneRunFrom H y :=
  fun q hq z hz => h q hq z (hle.trans hz)

theorem OneRunFrom.not_stranded (h : OneRunFrom H d.1) : ¬ Stranded g d H := by
  rintro ⟨_, hapart, q, hq, hlt, _⟩
  exact hapart (.inl (h q hq d.1 (le_refl _) hlt.le))

/-- A demand adds to that run, or begins it. -/
theorem OneRunFrom.serve (h : OneRunFrom H d.1) : OneRunFrom (serve g d H) d.1 := by
  intro q hq y hy hyq
  cases hq with
  | inl hold => exact .inl (h q hold y hy hyq)
  | inr hnew =>
    by_cases hg : d.2 < g
    · have hmiss : ¬ Hit H d := by
        intro hhit
        rw [fetched_of_hit hhit] at hnew
        exact hnew
      obtain ⟨p, hp⟩ := exists_first hmiss
      rw [fetched_of_lt hg hp] at hnew
      by_cases hyp : p ≤ y
      · exact .inr (by rw [fetched_of_lt hg hp]; exact ⟨hyp, hyq.trans_lt hnew.2⟩)
      · -- What the demand has before its first missing position is there.
        have hlast := hp.1.1.2
        by_contra hnot
        exact hyp (hp.2 ⟨mem_range.mpr ⟨hy, by omega⟩, fun hmem => hnot (.inl hmem)⟩)
    · rw [fetched_of_le (not_lt.mp hg)] at hnew
      exact hit_serve (mem_range.mpr ⟨hy, hyq.trans_lt hnew.1.2⟩)

/-- **Demands in order of their starts** are never stranded. -/
theorem along_of_sorted {x : Nat} (h : OneRunFrom H x) (hx : ∀ d ∈ ds, x ≤ d.1)
    (hsorted : ds.Pairwise fun a b => a.1 ≤ b.1) :
    Run.Along (serve g) (fun d H => ¬ Stranded g d H) H ds := by
  induction ds generalizing H x with
  | nil => trivial
  | cons d rest ih =>
    obtain ⟨hhead, htail⟩ := List.pairwise_cons.mp hsorted
    have hhere := h.later (hx d (List.mem_cons_self ..))
    exact ⟨hhere.not_stranded, ih hhere.serve hhead htail⟩

theorem oneRunFrom_empty (x : Nat) : OneRunFrom ∅ x := fun _ hq => hq.elim

end Demand
