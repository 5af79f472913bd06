import Svfs.Simulator.Turn

/-! A whole run of the simulator.

A run whose demands are never stranded comes to its end, and its result shows in the
demands alone (`run_completes`); demands in order of their starts are never stranded
(`run_sorted_completes`). What such a run fetches is what it has in the end, each byte of
it once if there is no greed, and it takes fewer than two requests for each miss
(`run_economical`). -/
namespace Svfs
open Demand (range serve starts)

namespace ClientRun

/-- What the server was asked for in all. -/
def downloaded (gets : List SeekRead) : Nat := (gets.map Prod.snd).sum

/-- `c'` is what the turns of these demands make of `c`. -/
structure TurnedAll (g : Nat) (H : Set Nat) (demands : List SeekRead) (c c' : ClientRun) : Prop where
  holds : c'.Holds (Run.run (serve g) H demands)
  hasHits : c'.hasHits = c.hasHits + Demand.hits g H demands
  turns : c'.hasHits + c'.hasMisses = c.hasHits + c.hasMisses + demands.length
  minimalBytes : c'.minimalBytes = c.minimalBytes + downloaded demands

/-- What was fetched, beside what the file came to hold by it. -/
structure Economy (g : Nat) (H : Set Nat) (demands : List SeekRead) (c c' : ClientRun) : Prop where
  /-- Every miss takes a request, -/
  misses : c'.hasMisses + c.client.server.gets.length ≤ c'.client.server.gets.length + c.hasMisses
  /-- and two are enough, less one for each block that there is in the end. -/
  requests : c'.client.server.gets.length + (starts (Run.run (serve g) H demands)).ncard + 2 * c.hasMisses ≤
    c.client.server.gets.length + (starts H).ncard + 2 * c'.hasMisses
  /-- All that the file holds was fetched, -/
  bytes : (Run.run (serve g) H demands).ncard + downloaded c.client.server.gets ≤
    H.ncard + downloaded c'.client.server.gets
  /-- once, if there is no greed for more than a demand; -/
  once : (∀ d ∈ demands, g ≤ d.2) → (Run.run (serve g) H demands).ncard + downloaded c.client.server.gets =
    H.ncard + downloaded c'.client.server.gets
  /-- and if there always is, a miss takes one request. -/
  greedy : (∀ d ∈ demands, d.2 < g) →
    c'.client.server.gets.length + c.hasMisses = c.client.server.gets.length + c'.hasMisses

section Turn
variable (clock : Nat → Int) {c c' : ClientRun} {H : Set Nat} {g : Nat} {demand : SeekRead} {demands : List SeekRead}

theorem downloaded_append (a b : List SeekRead) : downloaded (a ++ b) = downloaded a + downloaded b := by
  simp [downloaded]

theorem Holds.finite (h : c.Holds H) : H.Finite := by
  rw [← h.represents.support]
  exact Segments.support_finite _

/-- What is needed of a miss is something. -/
theorem need_ne_nil (h : c.Holds H) (hfits : Fits g demand) (hmiss : ¬ Demand.Hit H demand) :
    c.svf.need demand.1 demand.2 g ≠ [] := by
  intro hnil
  have hfetched := h.represents.positions_need hfits.1 hfits.2
  rw [show c.svf.pSvf.file.need demand.1 demand.2 g = [] from hnil, Greedy.positions_nil] at hfetched
  obtain ⟨q, hq, hnot⟩ := Demand.not_hit_iff.mp hmiss
  have hmem := Demand.missing_subset_fetched (g := g) ⟨hq, hnot⟩
  rw [← hfetched] at hmem
  exact hmem

/-- The pieces are as long as what is fetched is large. -/
theorem downloaded_need (h : c.Holds H) (hfits : Fits g demand) :
    downloaded (c.svf.need demand.1 demand.2 g) = (Demand.fetched g H demand).ncard := by
  obtain ⟨hsorted, _⟩ := h.represents.need_pieces hfits.1 hfits.2
  rw [← h.represents.positions_need hfits.1 hfits.2, Demand.ncard_positions hsorted]
  rfl

theorem Turned.bytes (h : Turned g H demand c c') (hc : c.Holds H) (hfits : Fits g demand) :
    downloaded c'.client.server.gets =
      (Demand.fetched g H demand).ncard + downloaded c.client.server.gets := by
  rw [h.gets, downloaded_append, ← downloaded_need hc hfits]
  simp [downloaded]

theorem Turned.requests (h : Turned g H demand c c') : c'.client.server.gets.length =
    (c.svf.need demand.1 demand.2 g).length + c.client.server.gets.length := by
  rw [h.gets, List.length_append, List.length_reverse]

/-- The file holds more by as much as was fetched, if none of that was there. -/
theorem Turned.once (h : Turned g H demand c c') (hc : c.Holds H) (hfits : Fits g demand)
    (hnew : ∀ q ∈ Demand.fetched g H demand, q ∉ H) :
    (serve g demand H).ncard + downloaded c.client.server.gets = H.ncard + downloaded c'.client.server.gets := by
  have hfinite : (Demand.fetched g H demand).Finite := h.holds.finite.subset Set.subset_union_right
  have hcard : (serve g demand H).ncard = H.ncard + (Demand.fetched g H demand).ncard :=
    Set.ncard_union_eq (Set.disjoint_right.mpr fun q => hnew q) hc.finite hfinite
  rw [hcard, h.bytes hc hfits, Nat.add_assoc]

/-- **One turn** and what it fetches. -/
theorem Turned.economy (h : Turned g H demand c c') (hc : c.Holds H) (hfits : Fits g demand) :
    Economy g H [demand] c c' := by
  have hbytes := h.bytes hc hfits
  have hrequests := h.requests
  obtain ⟨hsorted, hpieces⟩ := hc.represents.need_pieces hfits.1 hfits.2
  have hcharge : (c.svf.need demand.1 demand.2 g).length + (starts (serve g demand H)).ncard ≤
      (starts H).ncard + 2 :=
    Demand.length_add_ncard_starts_le hc.finite (hc.represents.positions_need hfits.1 hfits.2)
      (fun t ht => ⟨(hpieces t ht).1, (hpieces t ht).2.2.2⟩) (hsorted.imp fun hlt => by omega)
  have hcard : (serve g demand H).ncard ≤ H.ncard + (Demand.fetched g H demand).ncard := Set.ncard_union_le _ _
  have honce : g ≤ demand.2 → (serve g demand H).ncard + downloaded c.client.server.gets =
      H.ncard + downloaded c'.client.server.gets := fun hle =>
    h.once hc hfits fun q hq => by
      rw [Demand.fetched_of_le hle] at hq
      exact hq.2
  by_cases hhit : Demand.Hit H demand
  · have hnone : c.svf.need demand.1 demand.2 g = [] :=
      hc.represents.need_of_hit hfits.1 (by have := hfits.2; omega) hhit g
    have hsame : serve g demand H = H := Demand.serve_of_hit hhit
    obtain ⟨_, hmisses⟩ := h.hit hhit
    rw [hnone, List.length_nil] at hrequests
    refine ⟨by omega, ?_, ?_, fun hle => ?_, fun _ => by omega⟩
    · simp only [Run.run]
      rw [hsame]
      omega
    · simp only [Run.run]
      omega
    · have := honce (hle demand (List.mem_singleton.mpr rfl))
      simp only [Run.run]
      omega
  · have hsome := List.length_pos_iff.mpr (need_ne_nil hc hfits hhit)
    obtain ⟨_, hmisses⟩ := h.miss hhit
    refine ⟨by omega, ?_, ?_, fun hle => ?_, fun hgreedy => ?_⟩
    · simp only [Run.run]
      omega
    · simp only [Run.run]
      omega
    · have := honce (hle demand (List.mem_singleton.mpr rfl))
      simp only [Run.run]
      omega
    · obtain ⟨p, hp⟩ := Demand.exists_first hhit
      have hone : c.svf.need demand.1 demand.2 g = [(p, g)] :=
        hc.represents.need_greedy hfits.1 (hgreedy demand (List.mem_singleton.mpr rfl)) hfits.2 hp
      rw [hone, List.length_singleton] at hrequests
      omega

theorem Economy.cons {c'' : ClientRun} (h : Economy g H [demand] c c')
    (h' : Economy g (serve g demand H) demands c' c'') : Economy g H (demand :: demands) c c'' := by
  obtain ⟨hmisses, hrequests, hbytes, honce, hgreedy⟩ := h
  obtain ⟨hmisses', hrequests', hbytes', honce', hgreedy'⟩ := h'
  simp only [Run.run] at hrequests hbytes honce
  refine ⟨by omega, ?_, ?_, fun hle => ?_, fun hlt => ?_⟩
  · simp only [Run.run]
    omega
  · simp only [Run.run]
    omega
  · obtain ⟨hfirst, hrest⟩ := List.forall_mem_cons.mp hle
    have := honce fun d hd => List.mem_singleton.mp hd ▸ hfirst
    have := honce' hrest
    simp only [Run.run]
    omega
  · obtain ⟨hfirst, hrest⟩ := List.forall_mem_cons.mp hlt
    have := hgreedy fun d hd => List.mem_singleton.mp hd ▸ hfirst
    have := hgreedy' hrest
    omega

/-- **Demands that are never stranded** are all served. -/
theorem turns_hold (h : c.Holds H) (hfits : ∀ d ∈ demands, Fits g d)
    (hstranded : Run.Along (serve g) (fun d H => ¬ Demand.Stranded g d H) H demands) :
    ∃ c', c.turns clock g demands = .ok c' ∧ TurnedAll g H demands c c' ∧ Economy g H demands c c' := by
  induction demands generalizing c H with
  | nil =>
    exact ⟨c, rfl, ⟨h, rfl, rfl, rfl⟩, (Nat.add_comm _ _).le, le_refl _, le_refl _, fun _ => rfl, fun _ => rfl⟩
  | cons demand rest ih =>
    obtain ⟨hfirst, hrest⟩ := List.forall_mem_cons.mp hfits
    obtain ⟨c', hturn, hturned⟩ := turn_holds clock h hfirst hstranded.1
    obtain ⟨c'', hturns, hall, heconomy⟩ := ih hturned.holds hrest hstranded.2
    have hcount : c'.hasHits + Demand.hits g (serve g demand H) rest = c.hasHits + Demand.hits g H (demand :: rest) ∧
        c'.hasHits + c'.hasMisses = c.hasHits + c.hasMisses + 1 := by
      rw [Demand.hits]
      by_cases hhit : Demand.Hit H demand
      · obtain ⟨hhits, hmisses⟩ := hturned.hit hhit
        rw [if_pos hhit]
        omega
      · obtain ⟨hhits, hmisses⟩ := hturned.miss hhit
        rw [if_neg hhit]
        omega
    have hhits := hall.hasHits
    have hturns' := hall.turns
    have hminimal := hall.minimalBytes
    have hminimal' := hturned.minimalBytes
    refine ⟨c'', ?_, ⟨hall.holds, ?_, ?_, ?_⟩, (hturned.economy h hfirst).cons heconomy⟩
    · rw [turns, hturn]
      exact hturns
    · exact hhits.trans hcount.1
    · rw [List.length_cons]
      omega
    · simp only [downloaded, List.map_cons, List.sum_cons] at hminimal ⊢
      omega

end Turn
end ClientRun

open ClientRun (downloaded exchange)

/-- What the result of a run shows of its demands, `H` being what was held in the end. -/
structure RunResult.Shows (result : RunResult) (sizes : Sizes) (g : Nat) (demands : List SeekRead)
    (H : Set Nat) : Prop where
  cacheHits : result.cacheHits = Demand.hits g ∅ demands
  turns : result.cacheHits + result.cacheMisses = demands.length
  minimalBytes : result.minimalBytes = downloaded demands
  numBytes : result.numBytes = pyLongFromLong H.ncard
  sizeof : result.sizeof =
    pyLongFromLong ((sizes.overhead clientId.length (starts H).ncard + H.ncard) % 2 ^ 64)

/-- What such a run asked the server for. -/
structure Economical (g : Nat) (demands gets : List SeekRead) (misses : Nat) (H : Set Nat) : Prop where
  misses_le : misses ≤ gets.length
  requests_le : gets.length + (starts H).ncard ≤ 2 * misses
  held_le : H.ncard ≤ downloaded gets
  once : (∀ d ∈ demands, g ≤ d.2) → downloaded gets = H.ncard ∧ H = {p | ∃ d ∈ demands, p ∈ range d}
  greedy : (∀ d ∈ demands, d.2 < g) → gets.length = misses

section Run
variable {sizes : Sizes} {g : Nat} {demands : List SeekRead}

/-- A run of a new client that comes to its end. -/
def Completes (clock : Nat → Int) (sizes : Sizes) (demands : List SeekRead) (g : Nat)
    (A : RunResult → Client → Prop) : Prop :=
  ∃ result client, runSimulator clock sizes demands g = .ok (result, client) ∧ A result client

/-- The client as it is made holds nothing. -/
theorem start_holds : (⟨{}, {}⟩ : Client).start.Holds ∅ := ⟨represents_new spaces clientId 0 {}, rfl, rfl⟩

/-- The result of a run whose turns all come to their end. -/
theorem runSimulator_of_turns {clock : Nat → Int} (hdemands : demands ≠ []) {c : ClientRun}
    (hturns : (⟨{}, {}⟩ : Client).start.turns clock g demands = .ok c) :
    runSimulator clock sizes demands g =
      .ok (⟨c.hasHits, c.hasMisses, c.minimalBytes, c.svf.numBytes, c.svf.sizeOf sizes⟩, c.client) := by
  have hsome : demands.isEmpty = false := List.isEmpty_eq_false_iff.mpr hdemands
  rw [runSimulator, Client.run, hturns]
  simp only [Except.bind, hsome, Bool.false_and, Bool.false_eq_true, if_false]

/-- A run whose demands are never stranded comes to its end. -/
theorem completes (clock : Nat → Int) (sizes : Sizes) (hdemands : demands ≠ []) (hfits : ∀ d ∈ demands, Fits g d)
    (hstranded : Run.Along (serve g) (fun d H => ¬ Demand.Stranded g d H) ∅ demands) :
    Completes clock sizes demands g fun result client =>
      result.Shows sizes g demands (Run.run (serve g) ∅ demands) ∧
      Economical g demands client.server.gets result.cacheMisses (Run.run (serve g) ∅ demands) ∧
      client.comms.transmitted = client.server.gets.flatMap exchange := by
  obtain ⟨c, hturns, hall, heconomy⟩ := ClientRun.turns_hold clock start_holds hfits hstranded
  refine ⟨_, _, runSimulator_of_turns hdemands hturns, ⟨?_, ?_, ?_, ?_, ?_⟩,
    ⟨?_, ?_, ?_, fun hle => ?_, fun hlt => ?_⟩, hall.holds.transmitted⟩
  · exact hall.hasHits.trans (Nat.zero_add _)
  · exact hall.turns.trans (Nat.zero_add _)
  · exact hall.minimalBytes.trans (Nat.zero_add _)
  · exact congrArg pyLongFromLong (hall.holds.represents.shows.numBytes)
  · have hsize := hall.holds.represents.tidy.toWellFormed.sizeOf_eq sizes
    rw [hall.holds.id, hall.holds.represents.numBlocks_eq, hall.holds.represents.shows.numBytes] at hsize
    exact congrArg pyLongFromLong hsize
  · exact heconomy.misses
  · have hrequests := heconomy.requests
    have hnone : (starts (∅ : Set Nat)).ncard = 0 := by
      rw [Set.eq_empty_of_subset_empty Demand.starts_subset, Set.ncard_empty]
    rw [hnone] at hrequests
    exact hrequests.trans (Nat.zero_add _).le
  · have hbytes := heconomy.bytes
    rw [Set.ncard_empty, Nat.zero_add] at hbytes
    exact hbytes
  · have honce := heconomy.once hle
    rw [Set.ncard_empty, Nat.zero_add] at honce
    exact ⟨honce.symm, (Demand.run_serve_of_le hle).trans (Set.empty_union _)⟩
  · exact (heconomy.greedy hlt).trans (Nat.zero_add _)

/-- Demands out of order, the second over the first. -/
def outOfOrder : List SeekRead := [(4, 2), (0, 8)]

theorem outOfOrder_not_stranded (g : Nat) :
    Run.Along (serve g) (fun d H => ¬ Demand.Stranded g d H) ∅ outOfOrder := by
  refine ⟨?_, ?_, trivial⟩
  · rintro ⟨⟨p, hp, _⟩, _⟩
    exact hp
  · rintro ⟨⟨p, _, hp⟩, _⟩
    exact Nat.not_lt_zero p hp

end Run
end Svfs
