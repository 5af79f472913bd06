import Svfs.Library.Turns
import Svfs.Refine.Ask
import Svfs.Refine.Order

/-! Callers that share a file.

A caller that wants some bytes asks whether the file has them. If not, it asks what is
needed, gets it from elsewhere and writes it piece by piece; then it reads. Each call takes
the lock of the file, so calls of several callers come in any order, and between any two of
them others may take blocks away.

As long as no write runs into the next block, a caller that has read has read the bytes of
the file, and one that failed did so because a read was refused (`callers_sound`). A caller
fails only if blocks it had been promised were taken from it: if none are, every caller
that gets its turns is served (`callers_served`). -/
namespace Svfs
open Demand (range)

/-- Where a caller stands. With no pieces left to fetch, it is about to read. -/
inductive Stage where
  | checking
  | needing
  | fetching (pieces : List SeekRead)
  | done (data : List Byte)
  | failed (e : Exception)
deriving DecidableEq

structure Caller where
  request : SeekRead
  greedyLength : Nat
  stage : Stage := .checking
deriving DecidableEq

/-- The next call a caller makes, and what it makes of the answer. The bytes it gets from
elsewhere are those of `F`. -/
def Caller.call (F : Nat → Byte) (now : Int) (c : Caller) (w : World) : Caller × World :=
  match c.stage with
  | .checking =>
    if w.file.has c.request.1 c.request.2 then ({c with stage := .fetching []}, w)
    else ({c with stage := .needing}, w)
  | .needing => ({c with stage := .fetching (w.file.need c.request.1 c.request.2 c.greedyLength)}, w)
  | .fetching (piece :: rest) =>
    let o := w.write now piece.1 (bytesOver F piece.1 piece.2)
    match o.result with
    | .ok _ => ({c with stage := .fetching rest}, o.world)
    | .error e => ({c with stage := .failed e}, o.world)
  | .fetching [] =>
    let o := w.read now c.request.1 c.request.2
    match o.result with
    | .ok data => ({c with stage := .done data}, o.world)
    | .error e => ({c with stage := .failed e}, o.world)
  | .done _ | .failed _ => (c, w)

/-- The piece a caller is about to write. -/
def Caller.writes? (c : Caller) : Option SeekRead :=
  match c.stage with
  | .fetching (piece :: _) => some piece
  | _ => none

instance : (c : Command) → Decidable c.IsWrite
  | .write _ _ _ => isTrue trivial
  | .read _ _ _ | .erase _ | .clear | .lruPunt _ => isFalse id

/-- A caller that relies on what is held of its request. -/
def Caller.UnderWay (c : Caller) : Prop := ∃ pieces, c.stage = .fetching pieces

/-- Callers, and the file they share. -/
abbrev SharedFile := Turns.Shared Caller World

/-- The callers as they begin, with a new file. -/
def SharedFile.new (requests : List (SeekRead × Nat)) (id : List Byte) (modTime : Float)
    (config : SparseVirtualFileConfig := {}) : SharedFile :=
  ⟨requests.map fun r => ⟨r.1, r.2, .checking⟩, World.new id modTime config⟩

/-- One call: a caller's next, or any other call of the file. -/
inductive SharedCall where
  | turn (i : Nat) (now : Int)
  | other (c : Command)

namespace SharedCall

def step (F : Nat → Byte) (m : SharedCall) (s : SharedFile) : SharedFile :=
  match m with
  | .turn i now => Turns.turn (Caller.call F now) i s
  | .other c => {s with common := c.step s.common}

/-- The callers alone write, and not into the next block. -/
def Clear (m : SharedCall) (s : SharedFile) : Prop :=
  match m with
  | .turn i _ => ∀ piece ∈ s.parties[i]?.bind Caller.writes?, ¬ s.common.file.RunsIntoNext piece.1 piece.2
  | .other c => ¬ c.IsWrite

instance : (m : SharedCall) → (s : SharedFile) → Decidable (m.Clear s)
  | .turn i _, s => inferInstanceAs (Decidable (∀ piece ∈ s.parties[i]?.bind Caller.writes?,
      ¬ s.common.file.RunsIntoNext piece.1 piece.2))
  | .other c, _ => inferInstanceAs (Decidable (¬ c.IsWrite))

/-- Nothing is taken of what a caller under way relies on. -/
def Spares (m : SharedCall) (s : SharedFile) : Prop :=
  match m with
  | .turn _ _ => True
  | .other c => ∀ caller ∈ s.parties, caller.UnderWay → ∀ p ∈ range caller.request,
      s.common.file.held p ≠ none → (c.step s.common).file.held p ≠ none

/-- It is the turn of the caller with this number. -/
def turnOf (i : Nat) (m : SharedCall) : Bool :=
  match m with
  | .turn j _ => j == i
  | .other _ => false

end SharedCall

/-! ### One call of a caller -/

/-- What holds of a caller whatever is taken from the file. -/
structure Caller.Sound (F : Nat → Byte) (c : Caller) : Prop where
  fits : 0 < c.request.2 ∧ c.request.1 + c.request.2 + c.greedyLength < 2 ^ 64
  pieces : ∀ pieces, c.stage = .fetching pieces → ∀ t ∈ pieces, 0 < t.2 ∧ t.1 + t.2 < 2 ^ 64
  done : ∀ data, c.stage = .done data → data = bytesOver F c.request.1 c.request.2
  failed : ∀ e, c.stage = .failed e → ∃ m, e = .read m

/-- What the caller asked for is held, but for what it is about to write. -/
structure Caller.Provided (c : Caller) (H : Set Nat) : Prop where
  covered : ∀ pieces, c.stage = .fetching pieces → range c.request ⊆ H ∪ Greedy.positions pieces
  failed : ∀ e, c.stage ≠ .failed e

/-- The turns a caller needs at most. -/
def Caller.rank (c : Caller) : Nat :=
  match c.stage with
  | .checking => c.request.2 + 3
  | .needing => c.request.2 + 2
  | .fetching pieces => pieces.length + 1
  | .done _ | .failed _ => 0

/-- What a call of `c` does to a file that holds `H`. -/
structure Caller.Calls (F : Nat → Byte) (H : Set Nat) (c : Caller) (o : Caller × World) (H' : Set Nat) : Prop where
  grows : H ⊆ H'
  represents : Represents F o.2 H'
  sound : o.1.Sound F
  request : o.1.request = c.request
  rank : o.1.rank ≤ c.rank - 1
  provided : c.Provided H → o.1.Provided H'

section Call
variable {F : Nat → Byte} {now : Int} {c : Caller} {w : World} {H H' : Set Nat}

theorem Caller.Provided.mono (h : c.Provided H) (hle : ∀ p ∈ range c.request, p ∈ H → c.UnderWay → p ∈ H') :
    c.Provided H' := by
  refine ⟨fun pieces hstage p hp => ?_, h.failed⟩
  cases h.covered pieces hstage hp with
  | inl hheld => exact .inl (hle p hp hheld ⟨pieces, hstage⟩)
  | inr hpiece => exact .inr hpiece

/-- A caller that is told that the file has what it wants. -/
theorem Caller.calls_checking (h : Represents F w H) (hc : c.Sound F) (hstage : c.stage = .checking) :
    c.Calls F H (c.call F now w) H := by
  obtain ⟨request, greedyLength, stage⟩ := c
  subst hstage
  obtain ⟨hlen, hfit⟩ := hc.fits
  simp only at hlen hfit
  simp only [Caller.call]
  by_cases hhas : w.file.has request.1 request.2 = true
  · have hhit : Demand.Hit H request := (h.has_iff hlen (by omega)).mp hhas
    rw [if_pos hhas]
    refine ⟨subset_rfl, h, ⟨hc.fits, ?_, nofun, nofun⟩, rfl, ?_, fun _ => ⟨?_, nofun⟩⟩
    · rintro pieces heq t ht
      cases heq
      cases ht
    · simp only [Caller.rank, List.length_nil]
      omega
    · rintro pieces heq p hp
      exact .inl (hhit hp)
  · rw [if_neg hhas]
    refine ⟨subset_rfl, h, ⟨hc.fits, nofun, nofun, nofun⟩, rfl, ?_, fun _ => ⟨nofun, nofun⟩⟩
    simp only [Caller.rank]
    omega

/-- A caller that asks what is needed. -/
theorem Caller.calls_needing (h : Represents F w H) (hc : c.Sound F) (hstage : c.stage = .needing) :
    c.Calls F H (c.call F now w) H := by
  obtain ⟨request, greedyLength, stage⟩ := c
  subst hstage
  obtain ⟨hlen, hfit⟩ := hc.fits
  obtain ⟨hwithin, hlength⟩ := h.need_within hlen hfit
  have hpositions := h.positions_need hlen hfit
  simp only at hwithin hlength hpositions
  simp only [Caller.call]
  refine ⟨subset_rfl, h, ⟨hc.fits, ?_, nofun, nofun⟩, rfl, ?_, fun _ => ⟨?_, nofun⟩⟩
  · rintro pieces heq
    cases heq
    exact hwithin
  · simp only [Caller.rank]
    omega
  · rintro pieces heq p hp
    cases heq
    rw [hpositions]
    exact Demand.hit_serve hp

/-- A caller that writes a piece, which does not run into the next block. -/
theorem Caller.calls_fetching {piece : SeekRead} {rest : List SeekRead} (h : Represents F w H) (hc : c.Sound F)
    (hstage : c.stage = .fetching (piece :: rest)) (hclear : ¬ w.file.RunsIntoNext piece.1 piece.2) :
    c.Calls F H (c.call F now w) (H ∪ range piece) := by
  obtain ⟨request, greedyLength, stage⟩ := c
  subst hstage
  obtain ⟨hpiece, hrest⟩ := List.forall_mem_cons.mp (hc.pieces _ rfl)
  obtain ⟨hresult, hrepresents⟩ := h.write_bytesOver now hpiece.1 hpiece.2 hclear
  simp only [Caller.call, hresult]
  refine ⟨Set.subset_union_left, hrepresents, ⟨hc.fits, ?_, nofun, nofun⟩, rfl, ?_, fun hp => ⟨?_, nofun⟩⟩
  · rintro pieces heq
    cases heq
    exact hrest
  · simp only [Caller.rank, List.length_cons]
    omega
  · rintro pieces heq p hmem
    cases heq
    have hcovered := hp.covered _ rfl hmem
    rwa [← List.singleton_append, Greedy.positions_append, Greedy.positions_singleton, ← Set.union_assoc]
      at hcovered

/-- A caller that reads. -/
theorem Caller.calls_reading (h : Represents F w H) (hc : c.Sound F) (hstage : c.stage = .fetching []) :
    c.Calls F H (c.call F now w) H := by
  obtain ⟨request, greedyLength, stage⟩ := c
  subst hstage
  obtain ⟨hlen, hfit⟩ := hc.fits
  simp only at hlen hfit
  have hread := read_represents h now request.1 request.2
  simp only [Caller.call]
  by_cases hhit : Demand.Hit H request
  · rw [h.read_of_hit now hlen (by omega) hhit]
    refine ⟨subset_rfl, hread, ⟨hc.fits, nofun, ?_, nofun⟩, rfl, Nat.zero_le _, fun _ => ⟨nofun, nofun⟩⟩
    rintro data heq
    cases heq
    rfl
  · obtain ⟨m, hthrown⟩ := h.read_of_not_hit now hlen (by omega) hhit
    rw [hthrown] at hread ⊢
    refine ⟨subset_rfl, hread, ⟨hc.fits, nofun, nofun, ?_⟩, rfl, Nat.zero_le _, fun hp => ?_⟩
    · rintro e heq
      cases heq
      exact ⟨m, rfl⟩
    · have hcovered := hp.covered [] rfl
      rw [Greedy.positions_nil, Set.union_empty] at hcovered
      exact absurd hcovered hhit

/-- **One call** of a caller keeps the file and the caller sound. -/
theorem Caller.calls (now : Int) (h : Represents F w H) (hc : c.Sound F)
    (hclear : ∀ piece ∈ c.writes?, ¬ w.file.RunsIntoNext piece.1 piece.2) :
    ∃ H', c.Calls F H (c.call F now w) H' := by
  cases hstage : c.stage with
  | checking => exact ⟨H, calls_checking h hc hstage⟩
  | needing => exact ⟨H, calls_needing h hc hstage⟩
  | fetching pieces =>
    cases pieces with
    | nil => exact ⟨H, calls_reading h hc hstage⟩
    | cons piece rest =>
      refine ⟨_, calls_fetching h hc hstage (hclear piece ?_)⟩
      rw [Caller.writes?, hstage]
      rfl
  | done data =>
    have hsame : c.call F now w = (c, w) := by rw [Caller.call, hstage]
    rw [hsame]
    refine ⟨H, subset_rfl, h, hc, rfl, ?_, id⟩
    rw [Caller.rank, hstage]
    exact Nat.zero_le _
  | failed e =>
    have hsame : c.call F now w = (c, w) := by rw [Caller.call, hstage]
    rw [hsame]
    refine ⟨H, subset_rfl, h, hc, rfl, ?_, id⟩
    rw [Caller.rank, hstage]
    exact Nat.zero_le _

end Call

/-! ### The callers together -/

namespace SharedFile

/-- The file and every caller of it are sound. -/
structure Keeps (F : Nat → Byte) (s : SharedFile) (H : Set Nat) : Prop where
  represents : Represents F s.common H
  callers : ∀ c ∈ s.parties, c.Sound F

/-- No caller will be let down. -/
def Provides (s : SharedFile) (H : Set Nat) : Prop := ∀ c ∈ s.parties, c.Provided H

/-- What one call makes of a file that holds `H`. -/
structure Steps (F : Nat → Byte) (H : Set Nat) (m : SharedCall) (s s' : SharedFile) (H' : Set Nat) : Prop where
  keeps : Keeps F s' H'
  provides : m.Spares s → Provides s H → Provides s' H'
  requests : s'.parties.map Caller.request = s.parties.map Caller.request
  rank : ∀ i, Turns.rankAt Caller.rank i s' ≤ Turns.rankAt Caller.rank i s - if m.turnOf i then 1 else 0

section Step
variable {F : Nat → Byte} {s : SharedFile} {H : Set Nat}

theorem steps_turn {i : Nat} (now : Int) (h : Keeps F s H) (hclear : (SharedCall.turn i now).Clear s) :
    ∃ H', Steps F H (.turn i now) s ((SharedCall.turn i now).step F s) H' := by
  simp only [SharedCall.step]
  cases hc : s.parties[i]? with
  | none =>
    rw [Turns.turn_of_none hc]
    refine ⟨H, h, fun _ hp => hp, rfl, fun j => ?_⟩
    by_cases hj : i = j
    · rw [← hj, Turns.rankAt, hc]
      exact Nat.zero_le _
    · simp [SharedCall.turnOf, hj]
  | some c =>
    have hmem : c ∈ s.parties := List.mem_of_getElem? hc
    have hwrites : ∀ piece ∈ c.writes?, ¬ s.common.file.RunsIntoNext piece.1 piece.2 := by
      simpa only [SharedCall.Clear, hc, Option.bind_some] using hclear
    obtain ⟨H', hcalls⟩ := Caller.calls now h.represents (h.callers c hmem) hwrites
    refine ⟨H', ?_, fun _ hp => ?_, ?_, fun j => ?_⟩
    · rw [Turns.turn_of_some hc]
      exact ⟨hcalls.represents, Turns.forall_mem_set h.callers hcalls.sound⟩
    · rw [Turns.turn_of_some hc]
      exact Turns.forall_mem_set (fun d hd => (hp d hd).mono fun p _ hheld _ => hcalls.grows hheld)
        (hcalls.provided (hp c hmem))
    · rw [Turns.turn_of_some hc]
      exact Turns.map_set_of_eq hc hcalls.request
    · have hle : Turns.rankAt Caller.rank j (Turns.turn (Caller.call F now) i s) ≤
          Turns.rankAt Caller.rank j s - if i = j then 1 else 0 := by
        apply Turns.rankAt_turn_le
        intro p hp
        obtain rfl := Option.some.inj (hc.symm.trans hp)
        exact hcalls.rank
      simpa only [SharedCall.turnOf, beq_iff_eq] using hle

theorem steps_other {c : Command} (h : Keeps F s H) (hclear : (SharedCall.other c).Clear s) :
    ∃ H', Steps F H (.other c) s ((SharedCall.other c).step F s) H' := by
  have hfrom : c.From F := by
    cases c with
    | write now fpos data => exact absurd trivial hclear
    | _ => trivial
  have hrun : ¬ c.RunsIntoNext s.common := by
    cases c with
    | write now fpos data => exact absurd trivial hclear
    | _ => exact id
  have hrepresents := (step_represents h.represents hfrom hrun).2
  refine ⟨_, ⟨hrepresents, h.callers⟩, fun hspares hp caller hcaller => ?_, rfl, fun i => le_refl _⟩
  refine (hp caller hcaller).mono fun p hrange hheld hunder => ?_
  exact hrepresents.mem_iff.mpr (hspares caller hcaller hunder p hrange (h.represents.mem_iff.mp hheld))

/-- **One call** of anyone. -/
theorem steps (m : SharedCall) (h : Keeps F s H) (hclear : m.Clear s) :
    ∃ H', Steps F H m s (m.step F s) H' := by
  cases m with
  | turn i now => exact steps_turn now h hclear
  | other c => exact steps_other h hclear

theorem new_keeps {requests : List (SeekRead × Nat)} (id : List Byte) (modTime : Float)
    (config : SparseVirtualFileConfig)
    (hfits : ∀ r ∈ requests, 0 < r.1.2 ∧ r.1.1 + r.1.2 + r.2 < 2 ^ 64) :
    Keeps F (SharedFile.new requests id modTime config) ∅ := by
  refine ⟨represents_new F id modTime config, fun c hc => ?_⟩
  obtain ⟨r, hr, rfl⟩ := List.mem_map.mp hc
  exact ⟨hfits r hr, nofun, nofun, nofun⟩

theorem new_provides {requests : List (SeekRead × Nat)} (id : List Byte) (modTime : Float)
    (config : SparseVirtualFileConfig) : Provides (SharedFile.new requests id modTime config) ∅ := by
  intro c hc
  obtain ⟨r, _, rfl⟩ := List.mem_map.mp hc
  exact ⟨nofun, nofun⟩

end Step

/-! ### Runs -/

section Runs
variable {F : Nat → Byte} {s : SharedFile} {H : Set Nat} {ms : List SharedCall}

/-- Along a run in which no write runs into the next block the file and the callers stay
sound. -/
theorem run_keeps (h : Keeps F s H) (hclear : Run.Along (SharedCall.step F) SharedCall.Clear s ms) :
    ∀ t ∈ Run.states (SharedCall.step F) s ms, ∃ H', Keeps F t H' := by
  refine Run.invariant_states (fun m t hm ht => ?_) ⟨H, h⟩ hclear
  obtain ⟨_, hkeeps⟩ := ht
  obtain ⟨H', hsteps⟩ := steps m hkeeps hm
  exact ⟨H', hsteps.keeps⟩

/-- If nothing is taken either of what callers rely on, they stay provided for, -/
theorem run_provides (h : Keeps F s H) (hp : Provides s H)
    (hrun : Run.Along (SharedCall.step F) (fun m s => m.Clear s ∧ m.Spares s) s ms) :
    ∀ t ∈ Run.states (SharedCall.step F) s ms, ∃ H', Keeps F t H' ∧ Provides t H' := by
  refine Run.invariant_states (fun m t hm ht => ?_) ⟨H, h, hp⟩ hrun
  obtain ⟨_, hkeeps, hprovides⟩ := ht
  obtain ⟨H', hsteps⟩ := steps m hkeeps hm.1
  exact ⟨H', hsteps.keeps, hsteps.provides hm.2 hprovides⟩

/-- and in any case each turn takes them on. -/
theorem run_rank (h : Keeps F s H) (hclear : Run.Along (SharedCall.step F) SharedCall.Clear s ms) (i : Nat) :
    Turns.rankAt Caller.rank i (Run.run (SharedCall.step F) s ms) ≤
      Turns.rankAt Caller.rank i s - ms.countP (SharedCall.turnOf i) := by
  refine Turns.run_le (P := fun t => ∃ H', Keeps F t H') (SharedCall.turnOf i) (fun m t hm ht => ?_) ⟨H, h⟩ hclear
  obtain ⟨_, hkeeps⟩ := ht
  obtain ⟨H', hsteps⟩ := steps m hkeeps hm
  exact ⟨⟨H', hsteps.keeps⟩, hsteps.rank i⟩

/-- What they ask for stays what it was. -/
theorem run_requests (h : Keeps F s H) (hclear : Run.Along (SharedCall.step F) SharedCall.Clear s ms) :
    (Run.run (SharedCall.step F) s ms).parties.map Caller.request = s.parties.map Caller.request := by
  have hinv := Run.invariant_run (P := fun t => (∃ H', Keeps F t H') ∧
    t.parties.map Caller.request = s.parties.map Caller.request) (fun m t hm ht => ?_) ⟨⟨H, h⟩, rfl⟩ hclear
  · exact hinv.2
  · obtain ⟨⟨_, hkeeps⟩, hsame⟩ := ht
    obtain ⟨H', hsteps⟩ := steps m hkeeps hm
    exact ⟨⟨H', hsteps.keeps⟩, hsteps.requests.trans hsame⟩

end Runs
end SharedFile

/-- The file shows bytes of `F`; who has read has read those of its request, and who failed was
refused its read. -/
def SharedFile.Serves (F : Nat → Byte) (s : SharedFile) : Prop :=
  (∃ H, Shows F s.common.file H) ∧ ∀ c ∈ s.parties,
    (∀ data, c.stage = .done data → data = bytesOver F c.request.1 c.request.2) ∧
    ∀ e, c.stage = .failed e → ∃ m, e = .read m

/-- **Whatever is taken from the file**, in whatever order the calls come: the file shows
bytes of `F` at the positions it holds, a caller that has read has read those of its
request, and one that failed was refused its read. -/
theorem callers_sound (F : Nat → Byte) (requests : List (SeekRead × Nat)) (id : List Byte) (modTime : Float)
    (config : SparseVirtualFileConfig) (ms : List SharedCall)
    (hfits : ∀ r ∈ requests, 0 < r.1.2 ∧ r.1.1 + r.1.2 + r.2 < 2 ^ 64)
    (hclear : Run.Along (SharedCall.step F) SharedCall.Clear (SharedFile.new requests id modTime config) ms) :
    Run.Always (SharedCall.step F) (SharedFile.Serves F) (SharedFile.new requests id modTime config) ms := by
  intro s hs
  obtain ⟨H, hkeeps⟩ := SharedFile.run_keeps (SharedFile.new_keeps id modTime config hfits) hclear s hs
  exact ⟨⟨H, hkeeps.represents.shows⟩, fun c hc => ⟨(hkeeps.callers c hc).done, (hkeeps.callers c hc).failed⟩⟩

/-- Two callers of which one asks for the end of what the other does. -/
def overlapping : List (SeekRead × Nat) := [((2, 4), 0), ((4, 2), 8)]

/-- All is taken while the first is at it. -/
def takenBetween : List SharedCall :=
  [.turn 0 0, .turn 1 0, .turn 1 0, .turn 0 0, .turn 1 0, .turn 0 0, .other .clear, .turn 0 0, .turn 1 0]

theorem callers_sound_takenBetween : Run.Always (SharedCall.step UInt8.ofNat) (SharedFile.Serves UInt8.ofNat)
    (SharedFile.new overlapping [] 0) takenBetween :=
  callers_sound UInt8.ofNat overlapping [] 0 {} takenBetween (by decide) (by decide)

/-- **If nothing is taken** of what a caller under way relies on, no caller ever fails, and
each that has its turns has read the bytes of its request in the end. -/
theorem callers_served (F : Nat → Byte) (requests : List (SeekRead × Nat)) (id : List Byte) (modTime : Float)
    (config : SparseVirtualFileConfig) (ms : List SharedCall)
    (hfits : ∀ r ∈ requests, 0 < r.1.2 ∧ r.1.1 + r.1.2 + r.2 < 2 ^ 64)
    (hrun : Run.Along (SharedCall.step F) (fun m s => m.Clear s ∧ m.Spares s)
      (SharedFile.new requests id modTime config) ms) :
    (∀ s ∈ Run.states (SharedCall.step F) (SharedFile.new requests id modTime config) ms,
      ∀ c ∈ s.parties, ∀ e, c.stage ≠ .failed e) ∧
    ∀ i r, requests[i]? = some r → r.1.2 + 3 ≤ ms.countP (SharedCall.turnOf i) →
      ∃ c, (Run.run (SharedCall.step F) (SharedFile.new requests id modTime config) ms).parties[i]? = some c ∧
        c.stage = .done (bytesOver F r.1.1 r.1.2) := by
  have hnew := SharedFile.new_keeps (F := F) id modTime config hfits
  have hstates := SharedFile.run_provides hnew (SharedFile.new_provides id modTime config) hrun
  refine ⟨fun s hs c hc => ?_, fun i r hr hturns => ?_⟩
  · obtain ⟨H, _, hprovides⟩ := hstates s hs
    exact (hprovides c hc).failed
  · obtain ⟨H, hkeeps, hprovides⟩ := hstates _ Run.run_mem_states
    have hclear := (Run.along_and.mp hrun).1
    have hrank := SharedFile.run_rank hnew hclear i
    have hbegin : Turns.rankAt Caller.rank i (SharedFile.new requests id modTime config) = r.1.2 + 3 := by
      simp [Turns.rankAt, SharedFile.new, hr, Caller.rank]
    have hrequest := congrArg (fun l : List SeekRead => l[i]?) (SharedFile.run_requests hnew hclear)
    simp only [SharedFile.new, List.getElem?_map, hr, Option.map_some] at hrequest
    obtain ⟨c, hc, hsame⟩ := Option.map_eq_some_iff.mp hrequest
    have hmem := List.mem_of_getElem? hc
    have hat : Turns.rankAt Caller.rank i _ = c.rank := Turns.rankAt_of_some hc
    refine ⟨c, hc, ?_⟩
    have hzero : c.rank = 0 := by
      rw [← hat]
      rw [hbegin] at hrank
      exact Nat.le_zero.mp (hrank.trans (Nat.sub_eq_zero_of_le hturns).le)
    cases hstage : c.stage with
    | checking => simp [Caller.rank, hstage] at hzero
    | needing => simp [Caller.rank, hstage] at hzero
    | fetching pieces => simp [Caller.rank, hstage] at hzero
    | done data => rw [(hkeeps.callers c hmem).done data hstage, hsame]
    | failed e => exact absurd hstage ((hprovides c hmem).failed e)

/-- The two, turn about. -/
def turnAbout : List SharedCall := (List.range 14).map fun n => .turn (n % 2) n

theorem spares_turnAbout : Run.Along (SharedCall.step UInt8.ofNat) SharedCall.Spares
    (SharedFile.new overlapping [] 0) turnAbout := by
  refine Run.along_iff.mpr fun done m rest heq => ?_
  have hmem : m ∈ turnAbout := by
    rw [heq]
    exact List.mem_append_right _ (List.mem_cons_self ..)
  obtain ⟨n, _, rfl⟩ := List.mem_map.mp hmem
  trivial

theorem callers_served_turnAbout :
    (∀ s ∈ Run.states (SharedCall.step UInt8.ofNat) (SharedFile.new overlapping [] 0) turnAbout,
      ∀ c ∈ s.parties, ∀ e, c.stage ≠ .failed e) ∧
    ∀ i r, overlapping[i]? = some r → r.1.2 + 3 ≤ turnAbout.countP (SharedCall.turnOf i) →
      ∃ c, (Run.run (SharedCall.step UInt8.ofNat) (SharedFile.new overlapping [] 0) turnAbout).parties[i]? =
          some c ∧ c.stage = .done (bytesOver UInt8.ofNat r.1.1 r.1.2) :=
  callers_served UInt8.ofNat overlapping [] 0 {} turnAbout (by decide)
    (Run.along_and.mpr ⟨by decide, spares_turnAbout⟩)

end Svfs
