import Svfs.Library.Regions
import Svfs.Library.Turns
import Svfs.Refine.Ask

/-! Threads that write to a file.

Several threads write pieces of one file, each piece under the lock of the file, and a
thread ends at the first write that throws. If the threads fill regions that do not touch,
each thread every region from its start on, then in whatever order they come no write
throws, there is a block for each region that was begun, and when all have come to their
end the file shows all that was written (`threads_fill`). -/
namespace Svfs
open Demand (range take)
open Regions (Apart Filled Grounded Region)

/-- A thread with the pieces it has left to write, or ended by an exception. -/
inductive WriteThread where
  | running (rest : List SeekRead)
  | ended (e : Exception)

namespace WriteThread

/-- A thread writes its next piece. -/
def act (F : Nat → Byte) (now : Int) (thread : WriteThread) (w : World) : WriteThread × World :=
  match thread with
  | .running (piece :: rest) =>
    let o := w.write now piece.1 (bytesOver F piece.1 piece.2)
    match o.result with
    | .ok _ => (.running rest, o.world)
    | .error e => (.ended e, o.world)
  | .running [] | .ended _ => (thread, w)

/-- The pieces left. -/
def left : WriteThread → List SeekRead
  | .running rest => rest
  | .ended _ => []

/-- Thread `turn.1` writes, at the time `turn.2`. -/
def step (F : Nat → Byte) (turn : Nat × Int) (s : Turns.Shared WriteThread World) : Turns.Shared WriteThread World :=
  Turns.turn (act F turn.2) turn.1 s

/-- The threads as they begin, with a new file. -/
def start (programs : List (List SeekRead)) (id : List Byte) (modTime : Float)
    (config : SparseVirtualFileConfig := {}) : Turns.Shared WriteThread World :=
  ⟨programs.map .running, World.new id modTime config⟩

/-- A thread that has written what it had to, or goes on to write what hinders no one. -/
structure Sound (rs : List Region) (thread : WriteThread) (H : Set Nat) : Prop where
  running : ∃ rest, thread = .running rest
  within : ∀ t ∈ thread.left, 0 < t.2 ∧ t.1 + t.2 < 2 ^ 64
  grounded : Run.Along take (Grounded rs) H thread.left

/-- The file holds beginnings of the regions, and what is not written yet of `A` the threads
have left to write. -/
structure Fills (F : Nat → Byte) (rs : List Region) (A : Set Nat) (s : Turns.Shared WriteThread World)
    (H : Set Nat) : Prop where
  represents : Represents F s.common H
  filled : Filled rs H
  threads : ∀ thread ∈ s.parties, thread.Sound rs H
  all : H ∪ {p | ∃ thread ∈ s.parties, p ∈ Greedy.positions thread.left} = A

section Step
variable {F : Nat → Byte} {rs : List Region} {A H H' : Set Nat} {s : Turns.Shared WriteThread World}
  {thread : WriteThread} {piece : SeekRead} {rest : List SeekRead} {w : World}

theorem Sound.mono (h : thread.Sound rs H) (hle : H ⊆ H') : thread.Sound rs H' :=
  ⟨h.running, h.within, Regions.along_mono h.grounded hle⟩

/-- **One write** of a grounded piece returns. -/
theorem act_running (hrs : Apart rs) (h : Represents F w H) (hfilled : Filled rs H)
    (hsound : (running (piece :: rest)).Sound rs H) (now : Int) :
    ∃ w', act F now (.running (piece :: rest)) w = (.running rest, w') ∧ Represents F w' (take piece H) ∧
      Filled rs (take piece H) ∧ (running rest).Sound rs (take piece H) := by
  obtain ⟨hpiece, hrest⟩ := List.forall_mem_cons.mp hsound.within
  have hruns : ¬ w.file.RunsIntoNext piece.1 piece.2 := by
    rw [h.runsIntoNext_iff]
    exact hfilled.not_runsInto hrs hsound.grounded.1
  obtain ⟨hresult, hrepresents⟩ := h.write_bytesOver now hpiece.1 hpiece.2 hruns
  refine ⟨(w.write now piece.1 (bytesOver F piece.1 piece.2)).world, by simp only [act, hresult], hrepresents,
    hfilled.take hrs hsound.grounded.1, ⟨rest, rfl⟩, hrest, hsound.grounded.2⟩

/-- What a thread writes it has no more left to write. -/
theorem all_set {l : List WriteThread} {i : Nat} (hi : l[i]? = some (.running (piece :: rest))) :
    take piece H ∪ {p | ∃ thread ∈ l.set i (.running rest), p ∈ Greedy.positions thread.left} =
      H ∪ {p | ∃ thread ∈ l, p ∈ Greedy.positions thread.left} := by
  have hcons : Greedy.positions (piece :: rest) = range piece ∪ Greedy.positions rest := by
    rw [← List.singleton_append, Greedy.positions_append, Greedy.positions_singleton]
    rfl
  have hlt := (List.getElem?_eq_some_iff.mp hi).1
  ext p
  constructor
  · rintro ((hheld | hpiece) | ⟨thread, hthread, hp⟩)
    · exact .inl hheld
    · exact .inr ⟨_, List.mem_of_getElem? hi, by rw [left, hcons]; exact .inl hpiece⟩
    · cases List.mem_or_eq_of_mem_set hthread with
      | inl hold => exact .inr ⟨thread, hold, hp⟩
      | inr hnew =>
        subst hnew
        exact .inr ⟨_, List.mem_of_getElem? hi, by rw [left, hcons]; exact .inr hp⟩
  · rintro (hheld | ⟨thread, hthread, hp⟩)
    · exact .inl (.inl hheld)
    · obtain ⟨j, hj⟩ := List.mem_iff_getElem?.mp hthread
      by_cases hij : i = j
      · subst hij
        obtain rfl := Option.some.inj (hi.symm.trans hj)
        rw [left, hcons] at hp
        cases hp with
        | inl hpiece => exact .inl (.inr hpiece)
        | inr hrest => exact .inr ⟨.running rest, List.mem_set hlt _, hrest⟩
      · refine .inr ⟨thread, List.mem_of_getElem? (i := j) ?_, hp⟩
        rw [List.getElem?_set_ne hij, hj]

/-- **One turn** of some thread. -/
theorem Fills.step (hrs : Apart rs) (turn : Nat × Int) (h : Fills F rs A s H) :
    (∃ H', Fills F rs A (step F turn s) H') ∧ ∀ i, Turns.rankAt (fun thread => thread.left.length) i (step F turn s) ≤
      Turns.rankAt (fun thread => thread.left.length) i s - if turn.1 = i then 1 else 0 := by
  have hrank : (∀ thread, s.parties[turn.1]? = some thread →
      (act F turn.2 thread s.common).1.left.length ≤ thread.left.length - 1) →
      ∀ i, Turns.rankAt (fun thread => thread.left.length) i (WriteThread.step F turn s) ≤
        Turns.rankAt (fun thread => thread.left.length) i s - if turn.1 = i then 1 else 0 :=
    fun hact i => Turns.rankAt_turn_le hact
  cases hthread : s.parties[turn.1]? with
  | none =>
    refine ⟨⟨H, ?_⟩, hrank fun _ heq => by rw [hthread] at heq; cases heq⟩
    rw [WriteThread.step, Turns.turn_of_none hthread]
    exact h
  | some thread =>
    have hsound := h.threads thread (List.mem_of_getElem? hthread)
    obtain ⟨pieces, rfl⟩ := hsound.running
    cases pieces with
    | nil =>
      refine ⟨⟨H, ?_⟩, hrank fun _ heq => ?_⟩
      · rw [WriteThread.step, Turns.turn_of_some hthread, act]
        have hself : s.parties.set turn.1 (.running []) = s.parties := by
          have hsome := List.getElem?_eq_some_iff.mp hthread
          rw [← hsome.2]
          exact List.set_getElem_self hsome.1
        rw [hself]
        exact h
      · obtain rfl := Option.some.inj (hthread.symm.trans heq)
        exact Nat.zero_le _
    | cons piece rest =>
      obtain ⟨w', hact, hrepresents, hfilled, hrest⟩ := act_running hrs h.represents h.filled hsound turn.2
      refine ⟨⟨take piece H, ?_⟩, hrank fun _ heq => ?_⟩
      · rw [WriteThread.step, Turns.turn_of_some hthread, hact]
        refine ⟨hrepresents, hfilled, Turns.forall_mem_set (fun t ht => ?_) hrest, ?_⟩
        · exact (h.threads t ht).mono Set.subset_union_left
        · exact (all_set hthread).trans h.all
      · obtain rfl := Option.some.inj (hthread.symm.trans heq)
        rw [hact]
        exact Nat.le_refl _

end Step

section Run
variable {F : Nat → Byte} {rs : List Region} {A : Set Nat} {programs : List (List SeekRead)}

theorem start_fills (id : List Byte) (modTime : Float) (config : SparseVirtualFileConfig)
    (hwithin : ∀ program ∈ programs, ∀ t ∈ program, 0 < t.2 ∧ t.1 + t.2 < 2 ^ 64)
    (hgrounded : ∀ program ∈ programs, Run.Along take (Grounded rs) ∅ program) :
    Fills F rs {p | ∃ program ∈ programs, ∃ t ∈ program, p ∈ range t} (start programs id modTime config) ∅ := by
  refine ⟨represents_new F id modTime config, Regions.filled_empty rs, fun thread hthread => ?_, ?_⟩
  · obtain ⟨program, hprogram, rfl⟩ := List.mem_map.mp hthread
    exact ⟨⟨program, rfl⟩, hwithin program hprogram, hgrounded program hprogram⟩
  · ext p
    simp only [Set.empty_union, start, List.mem_map, exists_exists_and_eq_and]
    rfl

/-- When no thread has anything left, all is written. -/
theorem Fills.shows {s : Turns.Shared WriteThread World} {H : Set Nat} (h : Fills F rs A s H)
    (hdone : ∀ thread ∈ s.parties, thread.left = []) : Shows F s.common.file A := by
  have hall : H = A := by
    rw [← h.all]
    ext p
    refine ⟨.inl, fun hp => hp.elim id fun hleft => ?_⟩
    obtain ⟨thread, hthread, hmem⟩ := hleft
    rw [hdone thread hthread, Greedy.positions_nil] at hmem
    exact hmem.elim
  exact hall ▸ h.represents.shows

/-- **Whatever the order** in which the threads write, no write throws, and there is a block
for each region that was begun. Once every thread has had its turns the file shows what all
of them wrote. -/
theorem threads_fill (F : Nat → Byte) (rs : List Region) (programs : List (List SeekRead)) (id : List Byte)
    (modTime : Float) (config : SparseVirtualFileConfig) (schedule : List (Nat × Int)) (hrs : Apart rs)
    (hwithin : ∀ program ∈ programs, ∀ t ∈ program, 0 < t.2 ∧ t.1 + t.2 < 2 ^ 64)
    (hgrounded : ∀ program ∈ programs, Run.Along take (Grounded rs) ∅ program) :
    (∀ s ∈ Run.states (step F) (start programs id modTime config) schedule,
      (∀ thread ∈ s.parties, ∀ e, thread ≠ .ended e) ∧
      ∃ H, Shows F s.common.file H ∧
        ∀ x, (∃ b ∈ s.common.file.blocks, b.1 = x) ↔ x ∈ H ∧ ∃ r ∈ rs, r.1 = x) ∧
    ((∀ i program, programs[i]? = some program → program.length ≤ schedule.countP fun turn => turn.1 == i) →
      Shows F (Run.run (step F) (start programs id modTime config) schedule).common.file
        {p | ∃ program ∈ programs, ∃ t ∈ program, p ∈ range t}) := by
  have hstart := start_fills (F := F) id modTime config hwithin hgrounded
  have halong : Run.Along (step F) (fun _ _ => True) (start programs id modTime config) schedule :=
    Run.along_of_forall fun _ _ => trivial
  refine ⟨fun s hs => ?_, fun hturns => ?_⟩
  · obtain ⟨H, hfills⟩ := Run.invariant_states (P := fun s => ∃ H, Fills F rs _ s H)
      (fun turn s _ hs => (hs.choose_spec.step hrs turn).1) ⟨∅, hstart⟩ halong s hs
    refine ⟨fun thread hthread e heq => ?_, H, hfills.represents.shows, fun x => ?_⟩
    · obtain ⟨rest, hrest⟩ := (hfills.threads thread hthread).running
      rw [heq] at hrest
      cases hrest
    · rw [← hfills.represents.mem_starts_iff, hfills.filled.starts_eq hrs]
      exact Iff.rfl
  · obtain ⟨H, hfills⟩ := Run.invariant_run (P := fun s => ∃ H, Fills F rs _ s H)
      (fun turn s _ hs => (hs.choose_spec.step hrs turn).1) ⟨∅, hstart⟩ halong
    refine hfills.shows fun thread hthread => ?_
    obtain ⟨i, hi⟩ := List.mem_iff_getElem?.mp hthread
    have hrank := Turns.run_le (μ := Turns.rankAt (fun thread => thread.left.length) i)
      (P := fun s => ∃ H, Fills F rs _ s H) (fun turn => turn.1 == i)
      (fun turn s _ hs => ⟨(hs.choose_spec.step hrs turn).1, by
        simpa only [beq_iff_eq] using (hs.choose_spec.step hrs turn).2 i⟩) ⟨∅, hstart⟩ halong
    have hbegin : Turns.rankAt (fun thread => thread.left.length) i (start programs id modTime config) ≤
        schedule.countP fun turn => turn.1 == i := by
      simp only [Turns.rankAt, start, List.getElem?_map]
      cases hprogram : programs[i]? with
      | none => exact Nat.zero_le _
      | some program => exact hturns i program hprogram
    rw [Turns.rankAt_of_some hi, Nat.sub_eq_zero_of_le hbegin] at hrank
    exact List.length_eq_zero_iff.mp (Nat.le_zero.mp hrank)

/-- Two regions, the first of which two threads fill at once. -/
def twoRegions : List Region := [(0, 4), (6, 8)]

theorem apart_twoRegions : Apart twoRegions := ⟨by decide, by decide⟩

theorem grounded_twoRegions : ∀ program ∈ [[(0, 2), (6, 2), (2, 2)], [(0, 4)]],
    Run.Along take (Grounded twoRegions) ∅ program := by
  have hfirst : ∀ n ≤ 4, Grounded twoRegions (0, n) ∅ := fun n hn =>
    ⟨(0, 4), by decide, le_refl _, by simpa using hn, by simp⟩
  have hsecond : ∀ D, Grounded twoRegions (6, 2) D := fun D => ⟨(6, 8), by decide, le_refl _, le_refl _, by simp⟩
  have hthird : Grounded twoRegions (2, 2) (take (6, 2) (take (0, 2) ∅)) :=
    ⟨(0, 4), by decide, by decide, by decide, fun p hp => .inl (.inr hp)⟩
  intro program hprogram
  rcases List.mem_cons.mp hprogram with rfl | hprogram
  · exact ⟨hfirst 2 (by decide), hsecond _, hthird, trivial⟩
  · rw [List.mem_singleton.mp hprogram]
    exact ⟨hfirst 4 (le_refl _), trivial⟩

theorem threads_fill_twoRegions :
    let programs := [[(0, 2), (6, 2), (2, 2)], [(0, 4)]]
    let schedule : List (Nat × Int) := [(0, 0), (1, 1), (0, 2), (0, 3)]
    (∀ s ∈ Run.states (step UInt8.ofNat) (start programs [] 0) schedule,
      (∀ thread ∈ s.parties, ∀ e, thread ≠ .ended e) ∧
      ∃ H, Shows UInt8.ofNat s.common.file H ∧
        ∀ x, (∃ b ∈ s.common.file.blocks, b.1 = x) ↔ x ∈ H ∧ ∃ r ∈ twoRegions, r.1 = x) ∧
    ((∀ i program, programs[i]? = some program → program.length ≤ schedule.countP fun turn => turn.1 == i) →
      Shows UInt8.ofNat (Run.run (step UInt8.ofNat) (start programs [] 0) schedule).common.file
        {p | ∃ program ∈ programs, ∃ t ∈ program, p ∈ range t}) :=
  threads_fill UInt8.ofNat twoRegions _ [] 0 {} _ apart_twoRegions (by decide) grounded_twoRegions

end Run
end WriteThread
end Svfs
