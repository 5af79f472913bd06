import Svfs.Refine.Order

/-! The write paths stay inside the buffers.

A write that agrees with what is held logs nothing to complain about
(`writeBlocks_effect`), so a run of such writes, none of which runs into the next
block, compares, indexes and subtracts within bounds throughout (`writes_sound`).
Past such a write the blocks overlap, and a length computed from their order runs
below zero. -/
namespace Svfs

/-- A world of bytes of `F` with nothing in its log to complain about. -/
def SoundSoFar (F : Nat → Byte) (w : World) : Prop :=
  (∃ H, Represents F w H) ∧ ∀ e ∈ w.log, e.Sound

/-- One good write adds nothing to complain about. -/
theorem step_soundSoFar {F : Nat → Byte} {c : Command} {w : World}
    (hc : (c.IsWrite ∧ c.From F) ∧ ¬ c.RunsIntoNext w) (h : SoundSoFar F w) : SoundSoFar F (c.step w) := by
  obtain ⟨⟨hwrite, hfrom⟩, hrun⟩ := hc
  obtain ⟨⟨H, hrepresents⟩, hlog⟩ := h
  refine ⟨⟨_, (step_represents hrepresents hfrom hrun).2⟩, ?_⟩
  cases c with
  | write now fpos data =>
    obtain ⟨es, hes, hsound⟩ :=
      (write_represents hrepresents hfrom.1 hfrom.2.1 hfrom.2.2 hrun).2.2
    rw [step_write, hes]
    intro e he
    rcases List.mem_append.mp he with he | he
    · exact hsound e he
    · exact hlog e he
  | _ => exact absurd hwrite (by simp [Command.IsWrite])

/-- **No access outside a buffer.** A run of writes of bytes of one file that never
runs into the next block makes every comparison and every indexed access inside the
block's buffer, takes no difference below zero, and would pass every assertion. -/
theorem writes_sound (F : Nat → Byte) (id : List Byte) (modTime : Float)
    (config : SparseVirtualFileConfig) (cs : List Command)
    (hfrom : ∀ c ∈ cs, c.IsWrite ∧ c.From F)
    (hrun : Run.Along Command.step (fun c w => ¬ c.RunsIntoNext w) (World.new id modTime config) cs) :
    ∀ w ∈ Run.states Command.step (World.new id modTime config) cs, ∀ e ∈ w.log, e.Sound := by
  have hnew : SoundSoFar F (World.new id modTime config) :=
    ⟨⟨∅, represents_new F id modTime config⟩, by simp [World.new]⟩
  have hstates := Run.invariant_states (fun _ _ => step_soundSoFar) hnew
    (Run.along_and.mpr ⟨Run.along_of_forall hfrom, hrun⟩)
  exact fun w hw => (hstates w hw).2

/-- Over two blocks and the gap between them. -/
theorem writes_sound_over_gap : (Run.run Command.step (World.new [] 0)
    [.writeFrom countingFile 2 2, .writeFrom countingFile 6 2, .writeFrom countingFile 1 8]).log.Forall
    Event.Sound := by
  refine List.forall_iff_forall_mem.mpr
    (writes_sound countingFile [] 0 {} _ ?_ (by decide) _ Run.run_mem_states)
  simp only [List.forall_mem_cons]
  exact ⟨⟨trivial, from_writeFrom (by decide) (by decide)⟩,
    ⟨trivial, from_writeFrom (by decide) (by decide)⟩,
    ⟨trivial, from_writeFrom (by decide) (by decide)⟩, by simp⟩

/-- The third write runs into the block at 10, and the fourth then compares five
bytes of that block, which has two. -/
theorem not_writes_sound : ¬ ∀ (F : Nat → Byte) (id : List Byte) (modTime : Float)
    (config : SparseVirtualFileConfig) (cs : List Command), config.compareForDiff = true →
    (∀ c ∈ cs, c.IsWrite ∧ c.From F) →
    ∀ w ∈ Run.states Command.step (World.new id modTime config) cs, ∀ e ∈ w.log, e.Sound := by
  intro h
  have hsound := h countingFile [] 0 {} [.writeFrom countingFile 0 1, .writeFrom countingFile 10 2,
    .writeFrom countingFile 5 15, .writeFrom countingFile 5 20] rfl (by
      simp only [List.forall_mem_cons]
      exact ⟨⟨trivial, from_writeFrom (by decide) (by decide)⟩,
        ⟨trivial, from_writeFrom (by decide) (by decide)⟩,
        ⟨trivial, from_writeFrom (by decide) (by decide)⟩,
        ⟨trivial, from_writeFrom (by decide) (by decide)⟩, by simp⟩) _ Run.run_mem_states
    (.memcmp 2 0 5) (by decide)
  exact absurd hsound (by simp [Event.Sound])

end Svfs
