import Svfs.Query.Touching
import Svfs.Refine.Held
import Svfs.Write.Orderly

/-! Nothing out of thin air, and nothing out of bounds.

Whatever data is written and whichever writes are rejected in the middle, as long as no range
runs into the next block or wraps into one: every call stays within the buffers it compares,
indexes and copies (`run_in_bounds`), no read hands out a byte but one that a write has
given for its position and that the file has shown there ever since (`run_reads_given`), and
the queries still tell what is missing (`run_truthful`). -/
namespace Svfs

/-- The arguments are `size_t` values, the data is not empty, and the range neither runs into
the next block nor, to be read, wraps into one. -/
def Command.Proper : Command → World → Prop
  | .write _ fpos data, w => data ≠ [] ∧ fpos + data.length < 2 ^ 64 ∧ ¬ w.file.RunsIntoNext fpos data.length
  | .read _ fpos len, w => fpos < 2 ^ 64 ∧ len < 2 ^ 64 ∧ ¬ w.file.WrapsInto fpos len
  | .erase _, _ | .clear, _ | .lruPunt _, _ => True

instance (s : SparseVirtualFile) (fpos len : Nat) : Decidable (s.WrapsInto fpos len) :=
  decidable_of_iff (∃ iter ∈ s.svf.entries, iter.1 ≤ fpos ∧ (∀ t ∈ s.svf.entries, t.1 ≤ fpos → t.1 ≤ iter.1) ∧
      2 ^ 64 ≤ fpos + len ∧ fpos + len ≤ iter.1 + iter.2.data.length + 2 ^ 64)
    ⟨fun ⟨iter, hmem, hle, hlast, hwraps⟩ => ⟨iter, ⟨hmem, hle, hlast⟩, hwraps⟩,
      fun ⟨iter, ⟨hmem, hle, hlast⟩, hwraps⟩ => ⟨iter, hmem, hle, hlast, hwraps⟩⟩

instance : (c : Command) → (w : World) → Decidable (c.Proper w)
  | .write _ _ _, _ | .read _ _ _, _ => inferInstanceAs (Decidable (_ ∧ _ ∧ ¬ _))
  | .erase _, _ | .clear, _ | .lruPunt _, _ => inferInstanceAs (Decidable True)

/-- A write gives its bytes for the positions it is made at. -/
def Command.Gives (p : Nat) (x : Byte) : Command → Prop
  | .write _ fpos data => Segments.Gives (fpos, data) p x
  | .read _ _ _ | .erase _ | .clear | .lruPunt _ => False

section Step
variable {P Q : Nat → Byte → Prop} {w : World}

/-- One call keeps the blocks in order; what they hold then was there before or is given. -/
theorem step_orderly {c : Command} (hc : c.Proper w) (h : w.Orderly P) :
    (c.step w).Orderly fun p x => P p x ∨ c.Gives p x := by
  have hkept : w.Orderly fun p x => P p x ∨ c.Gives p x := h.mono fun _ _ => .inl
  cases c with
  | write now fpos data =>
    rw [step_write]
    exact World.write_orderly hkept now hc.1 hc.2.1 hc.2.2 fun _ _ => .inr
  | read now fpos len =>
    rw [step_read]
    exact World.read_orderly hkept now hc.1 hc.2.1 hc.2.2
  | erase fpos =>
    rw [step_erase]
    exact hkept.shrunk (World.erase_shrunk fpos w)
  | clear => exact World.clear_orderly h
  | lruPunt bound =>
    rw [step_lruPunt]
    exact hkept.shrunk (World.lruPunt_shrunk bound w)

/-- What the blocks hold, the file shows. -/
theorem World.Orderly.held (h : w.Orderly P) : w.Orderly fun p x => w.file.held p = some x :=
  ⟨h.log, h.blocks.nonempty, h.blocks.below, fun _ hs _ _ hx => h.blocks.lookup_of_gives hs hx, h.blocks.apart⟩

/-- The file after a call shows only what it showed before, or what the call gives. -/
theorem held_step {c : Command} (hc : c.Proper w) (h : w.Orderly P) {p : Nat} {x : Byte}
    (hx : (c.step w).file.held p = some x) : w.file.held p = some x ∨ c.Gives p x :=
  (step_orderly hc h.held).blocks.lookup hx

/-- A read that returns hands out as much as was asked for, of what the file shows there. -/
theorem read_shows {now : Int} {fpos len : Nat} {data : List Byte} (hc : (Command.read now fpos len).Proper w)
    (h : w.Orderly P) (hdata : (w.read now fpos len).result = .ok data) :
    data.length = len ∧ Segments.Bears (fun p x => w.file.held p = some x) (fpos, data) := by
  obtain ⟨hfpos, hlen, hwraps⟩ := hc
  rcases World.read_cases now fpos len w with ⟨_, m, heq⟩ | ⟨pre, iter, rest, hcut, hle, hrest, _⟩
  · rw [heq] at hdata
    cases hdata
  · have hlast := OrderedMap.lastAt_of_cut hcut hle hrest
    rw [World.read_of_lastAt hlast hfpos] at hdata
    rcases Nat.lt_or_ge iter.2.data.length (sizeAdd (fpos - iter.1) len) with hover | hfits
    · rw [World.readFrom_throws hover] at hdata
      cases hdata
    · rw [World.readFrom_returns hfits] at hdata
      obtain rfl := Except.ok.inj hdata
      have hinside : fpos - iter.1 + len ≤ iter.2.data.length := by
        rcases Nat.lt_or_ge (fpos - iter.1 + len) (2 ^ 64) with hfit | hover
        · rwa [sizeAdd_of_lt hfit] at hfits
        · have hoffset : fpos - iter.1 < 2 ^ 64 := (Nat.sub_le ..).trans_lt hfpos
          rw [ge_iff_le, sizeAdd, Wrap.add_of_ge hoffset hlen hover, Nat.sub_le_iff_le_add] at hfits
          exact absurd ⟨iter, hlast, by omega, by omega⟩ hwraps
      have hdrop := (h.held.blocks.bears (iter.1, iter.2.data) (mem_segmentsOf.mpr ⟨iter, hlast.mem, rfl⟩)).drop
        (fpos - iter.1)
      rw [Nat.add_sub_cancel' hle] at hdrop
      refine ⟨?_, hdrop.take len⟩
      rw [List.length_take, List.length_drop]
      omega

end Step

/-! ### Runs -/

section Runs
variable {P : Nat → Byte → Prop} (id : List Byte) (modTime : Float) (config : SparseVirtualFileConfig)
  {cs : List Command}

theorem new_orderly : (World.new id modTime config).Orderly P := ⟨nofun, Segments.stacked_nil⟩

theorem run_orderly (hproper : Run.Along Command.step Command.Proper (World.new id modTime config) cs) :
    Run.Always Command.step (World.Orderly fun _ _ => True) (World.new id modTime config) cs :=
  Run.invariant_states (fun _ _ hc h => (step_orderly hc h).mono fun _ _ _ => trivial) (new_orderly id modTime config)
    hproper

/-- **Within bounds, whatever is written.** In every state of a run whose calls are proper, with
any data in its writes and whichever of them are rejected in the middle, all that was compared,
indexed, copied and subtracted was within bounds, and the blocks are not empty, in order, and
do not overlap. -/
theorem run_in_bounds (hproper : Run.Along Command.step Command.Proper (World.new id modTime config) cs) :
    Run.Always Command.step (World.Orderly fun _ _ => True) (World.new id modTime config) cs :=
  run_orderly id modTime config hproper

/-- The third write is rejected where it meets the second block, with the first block grown up
to it; the fourth then joins the two. -/
def rejectedRun : List Command :=
  [.write 0 0 [1, 2], .write 0 4 [5, 6], .write 0 1 [2, 3, 4, 9], .write 0 3 [4, 5, 6, 7], .read 0 0 7]

theorem run_in_bounds_rejected :
    (Run.run Command.step (World.new [] 0) (rejectedRun.take 3)).file.blocks = [(0, 4), (4, 2)] ∧
      Run.Always Command.step (World.Orderly fun _ _ => True) (World.new [] 0) rejectedRun :=
  ⟨by decide, run_in_bounds [] 0 {} (by decide)⟩

/-- Each read of a run that returned got as many bytes as it asked for, and each of them a write
before it gave for its position, where the file has shown it ever since. -/
def ReadsGiven (w : World) (cs : List Command) : Prop :=
  ∀ done now fpos len rest data, cs = done ++ .read now fpos len :: rest →
    ((Run.run Command.step w done).read now fpos len).result = .ok data →
    data.length = len ∧ ∀ p x, Segments.Gives (fpos, data) p x →
      Run.Since Command.step (Command.Gives p x) (fun w => w.file.held p = some x) w done

/-- **Nothing out of thin air.** -/
theorem run_reads_given (hproper : Run.Along Command.step Command.Proper (World.new id modTime config) cs) :
    ReadsGiven (World.new id modTime config) cs := by
  rintro done now fpos len rest data rfl hdata
  obtain ⟨hdone, hread, _⟩ := (Run.along_append done (.read now fpos len :: rest)).mp hproper
  have horderly := run_orderly id modTime config hdone
  obtain ⟨hlength, hshown⟩ := read_shows hread (horderly _ Run.run_mem_states) hdata
  refine ⟨hlength, fun p x hx => ?_⟩
  apply Run.since_of_run (A := fun c w => c.Proper w ∧ w.Orderly fun _ _ => True)
  · exact fun c w hc hx => held_step hc.1 hc.2 hx
  · exact nofun
  · exact Run.along_and.mpr ⟨hdone, Run.along_mono (fun _ _ h => h.1) (Run.along_of_states horderly)⟩
  · exact hshown p x hx

theorem run_reads_given_rejected : ReadsGiven (World.new [] 0) rejectedRun := run_reads_given [] 0 {} (by decide)

/-- **The queries are not misled**, in any state of such a run, but that `has` and `read` look
at one block only. -/
theorem run_truthful (hproper : Run.Along Command.step Command.Proper (World.new id modTime config) cs) :
    Run.Always Command.step World.Truthful (World.new id modTime config) cs :=
  fun w hw =>
    have horderly := run_orderly id modTime config hproper w hw
    World.truthful_of_placed horderly.blocks.placed horderly.within

theorem run_truthful_rejected : Run.Always Command.step World.Truthful (World.new [] 0) rejectedRun :=
  run_truthful [] 0 {} (by decide)

/-- Where the third write was rejected nothing is needed, and `has` says no. -/
example : (Run.run Command.step (World.new [] 0) (rejectedRun.take 3)).file.need 0 6 = [] ∧
    (Run.run Command.step (World.new [] 0) (rejectedRun.take 3)).file.has 0 6 = false := by decide

end Runs
end Svfs
