import Svfs.Refine.Object
import Svfs.Simulator.Client

/-! One turn of the simulator.

The file of the client is a represented file of spaces, and what has been transmitted is
what the server was asked for and gave (`ClientRun.Holds`). A demand that is not stranded
is served: what is missing is fetched piece by piece, no piece running into a block, and
the demand is counted a hit or a miss (`ClientRun.turn_holds`). -/
namespace Svfs
open Demand (range serve)

/-- The file the server has. -/
def spaces : Nat → Byte := fun _ => space

theorem bytesOver_spaces (fpos len : Nat) : bytesOver spaces fpos len = List.replicate len space := by
  apply List.eq_replicate_iff.mpr
  refine ⟨length_bytesOver spaces fpos len, fun b hb => ?_⟩
  obtain ⟨i, _, rfl⟩ := List.mem_map.mp hb
  rfl

/-- A demand of something that ends, greed included, within the `size_t` range. -/
def Fits (greedyLength : Nat) (demand : SeekRead) : Prop :=
  0 < demand.2 ∧ demand.1 + demand.2 + greedyLength < 2 ^ 64

instance decidableFits (greedyLength : Nat) (demand : SeekRead) : Decidable (Fits greedyLength demand) :=
  inferInstanceAs (Decidable (_ ∧ _))

namespace ClientRun

/-- What is transmitted for one piece, latest first. -/
def exchange (piece : SeekRead) : List (Direction × List Byte) :=
  [(.serverToClient, List.replicate piece.2 space), (.clientToServer, getMessage piece)]

/-- The file holds spaces at `H`, and for each piece the server was asked for there was one
exchange. -/
structure Holds (c : ClientRun) (H : Set Nat) : Prop where
  represents : Represents spaces c.svf.pSvf H
  id : c.svf.pSvf.file.id = clientId
  transmitted : c.client.comms.transmitted = c.client.server.gets.flatMap exchange

/-- `c'` is what fetching these pieces makes of `c`. -/
structure Fetched (H : Set Nat) (pieces : List SeekRead) (c c' : ClientRun) : Prop where
  holds : c'.Holds (Run.run Demand.take H pieces)
  gets : c'.client.server.gets = pieces.reverse ++ c.client.server.gets
  hasHits : c'.hasHits = c.hasHits
  hasMisses : c'.hasMisses = c.hasMisses
  minimalBytes : c'.minimalBytes = c.minimalBytes

/-- `c'` is what the turn of this demand makes of `c`. -/
structure Turned (g : Nat) (H : Set Nat) (demand : SeekRead) (c c' : ClientRun) : Prop where
  holds : c'.Holds (serve g demand H)
  gets : c'.client.server.gets = (c.svf.need demand.1 demand.2 g).reverse ++ c.client.server.gets
  hit : Demand.Hit H demand → c'.hasHits = c.hasHits + 1 ∧ c'.hasMisses = c.hasMisses
  miss : ¬ Demand.Hit H demand → c'.hasHits = c.hasHits ∧ c'.hasMisses = c.hasMisses + 1
  minimalBytes : c'.minimalBytes = c.minimalBytes + demand.2

section Turn
variable (clock : Nat → Int) {c : ClientRun} {H : Set Nat} {g : Nat} {demand : SeekRead} {pieces : List SeekRead}

/-- One piece is fetched. -/
theorem fetch_holds (h : c.Holds H) {piece : SeekRead} (hlen : 0 < piece.2) (hfit : piece.1 + piece.2 < 2 ^ 64)
    (hruns : ¬ Segments.RunsInto H piece.1 piece.2) :
    ∃ c', c.fetch clock piece = .ok c' ∧ Fetched H [piece] c c' := by
  obtain ⟨svf, hwrite, hrepresents, hfixed⟩ :=
    CpSparseVirtualFile.write_bytesOver h.represents (clock c.calls) hlen hfit hruns
  rw [bytesOver_spaces] at hwrite
  have hfetch : c.fetch clock piece = .ok {c with
      client := ⟨(c.client.comms.transmit (getMessage piece) .clientToServer).transmit
        (List.replicate piece.2 space) .serverToClient, ⟨piece.1, piece :: c.client.server.gets⟩⟩
      svf := svf
      calls := c.calls + 1} := by
    simp only [fetch, Server.get, hwrite, PyOutcome.andThen]
  refine ⟨_, hfetch, ⟨hrepresents, hfixed.id.trans h.id, ?_⟩, rfl, rfl, rfl, rfl⟩
  show _ :: _ :: c.client.comms.transmitted = _
  rw [h.transmitted]
  rfl

theorem Fetched.cons {piece : SeekRead} {c' c'' : ClientRun} (h : Fetched H [piece] c c')
    (h' : Fetched (Demand.take piece H) pieces c' c'') : Fetched H (piece :: pieces) c c'' where
  holds := h'.holds
  gets := by
    rw [h'.gets, h.gets]
    simp
  hasHits := h'.hasHits.trans h.hasHits
  hasMisses := h'.hasMisses.trans h.hasMisses
  minimalBytes := h'.minimalBytes.trans h.minimalBytes

/-- Pieces of which none runs into a block are all fetched. -/
theorem fetchAll_holds (h : c.Holds H) (hpieces : ∀ t ∈ pieces, 0 < t.2 ∧ t.1 + t.2 < 2 ^ 64)
    (hruns : Run.Along Demand.take (fun t H => ¬ Segments.RunsInto H t.1 t.2) H pieces) :
    ∃ c', c.fetchAll clock pieces = .ok c' ∧ Fetched H pieces c c' := by
  induction pieces generalizing c H with
  | nil => exact ⟨c, rfl, h, rfl, rfl, rfl, rfl⟩
  | cons piece rest ih =>
    obtain ⟨hfirst, hrest⟩ := List.forall_mem_cons.mp hpieces
    obtain ⟨c', hfetch, hfetched⟩ := fetch_holds clock h hfirst.1 hfirst.2 hruns.1
    obtain ⟨c'', hall, hfetched'⟩ := ih hfetched.holds hrest hruns.2
    refine ⟨c'', ?_, hfetched.cons hfetched'⟩
    rw [fetchAll, hfetch]
    exact hall

/-- Fetching what is needed of a demand serves it. -/
theorem fetchAll_need (h : c.Holds H) (hfits : Fits g demand) (hstranded : ¬ Demand.Stranded g demand H) :
    ∃ c', c.fetchAll clock (c.svf.need demand.1 demand.2 g) = .ok c' ∧
      Fetched H (c.svf.need demand.1 demand.2 g) c c' ∧ c'.Holds (serve g demand H) := by
  obtain ⟨hlen, hfit⟩ := hfits
  obtain ⟨c', hall, hfetched⟩ := fetchAll_holds clock h (h.represents.need_within hlen hfit).1
    (h.represents.along_need hlen hfit hstranded)
  refine ⟨c', hall, hfetched, ?_⟩
  have hholds := hfetched.holds
  rwa [Demand.run_take, h.represents.positions_need hlen hfit] at hholds

/-- A hit is counted, and nothing is fetched for it. -/
theorem provide_hit (h : c.Holds H) (hfits : Fits g demand) (hhit : Demand.Hit H demand) :
    c.provide clock g demand.1 demand.2 = .ok {c with hasHits := c.hasHits + 1} := by
  have hhas := (CpSparseVirtualFile.hasData_iff h.represents hfits.1 (by have := hfits.2; omega)).mpr hhit
  rw [provide, if_pos hhas]

/-- A miss that is not stranded is fetched, and then it is counted. -/
theorem provide_miss (h : c.Holds H) (hfits : Fits g demand) (hstranded : ¬ Demand.Stranded g demand H)
    (hmiss : ¬ Demand.Hit H demand) :
    ∃ c', c.provide clock g demand.1 demand.2 = .ok {c' with hasMisses := c'.hasMisses + 1} ∧
      Fetched H (c.svf.need demand.1 demand.2 g) c c' ∧ c'.Holds (serve g demand H) := by
  have hfit : demand.1 + demand.2 < 2 ^ 64 := by have := hfits.2; omega
  obtain ⟨c', hall, hfetched, hholds⟩ := fetchAll_need clock h hfits hstranded
  have hhas : ¬ c.svf.hasData demand.1 demand.2 = true := fun hhas =>
    hmiss ((CpSparseVirtualFile.hasData_iff h.represents hfits.1 hfit).mp hhas)
  have hhas' := (CpSparseVirtualFile.hasData_iff hholds.represents hfits.1 hfit).mpr Demand.hit_serve
  refine ⟨c', ?_, hfetched, hholds⟩
  rw [provide, if_neg hhas, hall]
  exact if_pos hhas'

/-- **One turn** serves its demand, if that is not stranded. -/
theorem turn_holds (h : c.Holds H) (hfits : Fits g demand) (hstranded : ¬ Demand.Stranded g demand H) :
    ∃ c', c.turn clock g demand = .ok c' ∧ Turned g H demand c c' := by
  obtain ⟨hlen, hfit⟩ := hfits
  have hfpos := unsignedLongLong_of_lt (n := demand.1) (by omega)
  have hlength := unsignedLongLong_of_lt (n := demand.2) (by omega)
  have hgreedy := unsignedLongLong_of_lt (n := g) (by omega)
  -- What is read in the end is there, and reading it changes nothing that is held.
  have hread : ∀ c' : ClientRun, c'.Holds (serve g demand H) → ∃ svf,
      (c'.svf.read (clock c'.calls) demand.1 demand.2).andThen (fun _ svf =>
        .ok {c' with svf := svf, calls := c'.calls + 1}) = .ok {c' with svf := svf, calls := c'.calls + 1} ∧
      ({c' with svf := svf, calls := c'.calls + 1} : ClientRun).Holds (serve g demand H) := by
    intro c' h'
    obtain ⟨svf, hread, hrepresents, hfixed⟩ := CpSparseVirtualFile.read_hit h'.represents (clock c'.calls) hlen
      (by omega) Demand.hit_serve
    refine ⟨svf, by simp only [hread, PyOutcome.andThen], hrepresents, hfixed.id.trans h'.id, h'.transmitted⟩
  have hbegin : ({c with minimalBytes := c.minimalBytes + demand.2} : ClientRun).Holds H := ⟨h.1, h.2, h.3⟩
  simp only [turn, hfpos, hlength, hgreedy]
  by_cases hhit : Demand.Hit H demand
  · rw [provide_hit clock hbegin ⟨hlen, hfit⟩ hhit]
    obtain ⟨svf, hturn, hholds⟩ := hread
      {c with minimalBytes := c.minimalBytes + demand.2, hasHits := c.hasHits + 1}
      (by rw [Demand.serve_of_hit hhit]; exact ⟨h.1, h.2, h.3⟩)
    refine ⟨_, hturn, hholds, ?_, fun _ => ⟨rfl, rfl⟩, fun hmiss => absurd hhit hmiss, rfl⟩
    rw [CpSparseVirtualFile.need, h.represents.need_of_hit hlen (by omega) hhit]
    rfl
  · obtain ⟨c', hprovide, hfetched, hserved⟩ := provide_miss clock hbegin ⟨hlen, hfit⟩ hstranded hhit
    rw [hprovide]
    obtain ⟨svf, hturn, hholds⟩ := hread {c' with hasMisses := c'.hasMisses + 1} ⟨hserved.1, hserved.2, hserved.3⟩
    exact ⟨_, hturn, hholds, hfetched.gets, fun h => absurd h hhit,
      fun _ => ⟨hfetched.hasHits, congrArg (· + 1) hfetched.hasMisses⟩, hfetched.minimalBytes⟩

end Turn
end ClientRun
end Svfs
