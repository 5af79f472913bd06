import Svfs.Refine.Held

/-! The order of writes does not matter.

What a run of writes holds is the union of the ranges written, whatever their
order, and a tidy file is determined by what it holds. So two orders of the same
writes end with the same blocks (`writes_commute`) as long as neither runs into
the next block on its way. -/
namespace Svfs
variable {F : Nat → Byte}

/-- The positions a call writes. -/
def Command.range : Command → Set Nat
  | .write _ fpos data => Set.Ico fpos (fpos + data.length)
  | _ => ∅

def Command.IsWrite : Command → Prop
  | .write _ _ _ => True
  | _ => False

/-- The held positions of a run of writes are those before it and those written. -/
theorem writes_represent {cs : List Command} {w : World} {H : Set Nat} (h : Represents F w H)
    (hfrom : ∀ c ∈ cs, c.IsWrite ∧ c.From F)
    (hrun : Run.Along Command.step (fun c w => ¬ c.RunsIntoNext w) w cs) :
    Represents F (Run.run Command.step w cs) {p | p ∈ H ∨ ∃ c ∈ cs, p ∈ c.range} := by
  induction cs generalizing w H with
  | nil =>
    have hsame : {p | p ∈ H ∨ ∃ c ∈ ([] : List Command), p ∈ c.range} = H := by
      ext p
      simp
    rw [hsame]
    exact h
  | cons c rest ih =>
    obtain ⟨hwrite, hc⟩ := hfrom c (List.mem_cons_self ..)
    have hnext := ih (step_represents h hc hrun.1).2
      (fun d hd => hfrom d (List.mem_cons_of_mem _ hd)) hrun.2
    have hsame : {p | p ∈ c.heldAfter w (c.step w) H ∨ ∃ d ∈ rest, p ∈ d.range} =
        {p | p ∈ H ∨ ∃ d ∈ c :: rest, p ∈ d.range} := by
      cases c with
      | write now fpos data =>
        ext p
        simp [Command.heldAfter, Command.range, or_assoc]
      | _ => exact absurd hwrite (by simp [Command.IsWrite])
    rw [hsame] at hnext
    exact hnext

/-- Files that represent the same positions of the same file have the same blocks. -/
theorem Represents.segments_eq {w w' : World} {H : Set Nat} (h : Represents F w H)
    (h' : Represents F w' H) : w.file.segments = w'.file.segments := by
  apply h.tidy.separated.ext h'.tidy.separated
  intro p
  have hheld : ∀ {w : World}, Represents F w H → w.file.held p ≠ none →
      w.file.held p = some (F p) := by
    intro w h hp
    obtain ⟨b, hb⟩ := Option.ne_none_iff_exists'.mp hp
    rw [hb, h.bytes p b hb]
  by_cases hp : p ∈ H
  · have hw : w.file.held p ≠ none := by
      rw [← h.support] at hp
      exact hp
    have hw' : w'.file.held p ≠ none := by
      rw [← h'.support] at hp
      exact hp
    exact (hheld h hw).trans (hheld h' hw').symm
  · have hnone : ∀ {w : World}, Represents F w H → w.file.held p = none := by
      intro w h
      by_contra hne
      apply hp
      rw [← h.support]
      exact hne
    exact (hnone h).trans (hnone h').symm

/-- **Writes commute.** Two orders of the same writes of bytes of one file end with
the same blocks, the same bytes in them and the same count, if neither runs into
the next block. -/
theorem writes_commute (F : Nat → Byte) (id : List Byte) (modTime : Float)
    (config : SparseVirtualFileConfig) (cs cs' : List Command) (hperm : cs.Perm cs')
    (hfrom : ∀ c ∈ cs, c.IsWrite ∧ c.From F)
    (hrun : Run.Along Command.step (fun c w => ¬ c.RunsIntoNext w) (World.new id modTime config) cs)
    (hrun' : Run.Along Command.step (fun c w => ¬ c.RunsIntoNext w) (World.new id modTime config) cs') :
    (Run.run Command.step (World.new id modTime config) cs).file.blocks =
        (Run.run Command.step (World.new id modTime config) cs').file.blocks ∧
      (Run.run Command.step (World.new id modTime config) cs).file.segments =
        (Run.run Command.step (World.new id modTime config) cs').file.segments ∧
      (Run.run Command.step (World.new id modTime config) cs).file.numBytes =
        (Run.run Command.step (World.new id modTime config) cs').file.numBytes := by
  have hnew := represents_new F id modTime config
  have h := writes_represent hnew hfrom hrun
  have h' := writes_represent hnew (fun c hc => hfrom c (hperm.mem_iff.mpr hc)) hrun'
  have hsame : {p | p ∈ (∅ : Set Nat) ∨ ∃ c ∈ cs', p ∈ c.range} =
      {p | p ∈ (∅ : Set Nat) ∨ ∃ c ∈ cs, p ∈ c.range} := by
    ext p
    simp [hperm.mem_iff]
  rw [hsame] at h'
  have hsegments := h.segments_eq h'
  refine ⟨?_, hsegments, ?_⟩
  · rw [SparseVirtualFile.blocks_eq, SparseVirtualFile.blocks_eq, hsegments]
  · have hcount := h.tidy.bytesTotal
    rw [hsegments, ← h'.tidy.bytesTotal] at hcount
    exact hcount

/-- Three writes that meet, in two orders. -/
theorem writes_commute_meeting :
    (Run.run Command.step (World.new [] 0) [.writeFrom countingFile 0 4, .writeFrom countingFile 8 4,
      .writeFrom countingFile 3 6]).file.blocks =
    (Run.run Command.step (World.new [] 0) [.writeFrom countingFile 3 6, .writeFrom countingFile 0 4,
      .writeFrom countingFile 8 4]).file.blocks := by
  refine (writes_commute countingFile [] 0 {} _ _ ?_ ?_ ?_ ?_).1
  · exact List.perm_append_singleton (Command.writeFrom countingFile 3 6) [_, _]
  · simp only [List.forall_mem_cons]
    exact ⟨⟨trivial, from_writeFrom (by decide) (by decide)⟩,
      ⟨trivial, from_writeFrom (by decide) (by decide)⟩,
      ⟨trivial, from_writeFrom (by decide) (by decide)⟩, by simp⟩
  · decide
  · decide

/-- Not all writes commute: the last write of these runs into the block at 10 in
the first order and not in the second. -/
theorem not_writes_commute : ¬ ∀ (F : Nat → Byte) (id : List Byte) (modTime : Float)
    (config : SparseVirtualFileConfig) (cs cs' : List Command), cs.Perm cs' →
    (∀ c ∈ cs, c.IsWrite ∧ c.From F) →
    (Run.run Command.step (World.new id modTime config) cs).file.blocks =
        (Run.run Command.step (World.new id modTime config) cs').file.blocks ∧
      (Run.run Command.step (World.new id modTime config) cs).file.segments =
        (Run.run Command.step (World.new id modTime config) cs').file.segments ∧
      (Run.run Command.step (World.new id modTime config) cs).file.numBytes =
        (Run.run Command.step (World.new id modTime config) cs').file.numBytes := by
  intro h
  have hblocks := (h countingFile [] 0 {} gapRun [.writeFrom countingFile 0 1,
    .writeFrom countingFile 5 5, .writeFrom countingFile 10 2]
    (List.Perm.cons _ (List.Perm.swap ..)) fun c hc => ⟨?_, from_gapRun c hc⟩).1
  · revert hblocks
    decide
  · simp only [gapRun, List.mem_cons, List.not_mem_nil, or_false] at hc
    rcases hc with rfl | rfl | rfl <;> trivial

end Svfs
