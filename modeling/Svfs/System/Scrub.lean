import Svfs.Evict.Scrub
import Svfs.System.Command

/-! What a system leaves behind.

With `overwrite_on_exit` a file that is removed is destroyed like one that stands alone, and
so are those still there when the system is. Through all of that no data is left behind but what
an `erase` or an `lru_punt` of one of the files lets go of as it is (`run_leaves_iff`). -/
namespace Svfs
namespace SystemCommand

/-- The file a call removes, as its destructor leaves it. -/
def Removes : SystemCommand → SparseVirtualFileSystem → World → Prop
  | .remove id, s, w => ∃ svf, s.svfs.lookup id = some svf ∧ w = svf.destroy
  | .insert _ _, _, _ | .call _ _, _, _ => False

/-- A file that is gone in the end: removed on the way, or destroyed with the system, which clears it
first. -/
def Leaves : SparseVirtualFileSystem → List SystemCommand → World → Prop
  | s, [], w => ∃ id svf, s.svfs.lookup id = some svf ∧ w = svf.clear.destroy
  | s, c :: rest, w => c.Removes s w ∨ Leaves (step c s) rest w

/-- What a call erases holds nothing that would need to be overwritten. -/
def ErasesBlank : SystemCommand → SparseVirtualFileSystem → Prop
  | .call id c, s => ∀ svf, s.svfs.lookup id = some svf → c.ErasesBlank svf
  | .insert _ _, _ | .remove _, _ => True

/-- Every file of the system is to be overwritten. -/
def Overwrites (s : SparseVirtualFileSystem) : Prop :=
  s.config.overwriteOnExit = true ∧ ∀ id svf, s.svfs.lookup id = some svf → svf.file.config.overwriteOnExit = true

/-- So far, none of its files has left anything behind. -/
def Scrubbed (s : SparseVirtualFileSystem) : Prop := ∀ id svf, s.svfs.lookup id = some svf → svf.Scrubbed

section Step
variable {s : SparseVirtualFileSystem}

theorem scrubbed_destroy {w : World} (h : w.file.config.overwriteOnExit = true) : w.destroy.Scrubbed ↔ w.Scrubbed :=
  (World.scrubs_clear w).scrubbed h

theorem lookup_step_insert {id id' : Id} {modTime : Float} {svf : World} :
    (step (.insert id modTime) s).svfs.lookup id' = some svf ↔ s.svfs.lookup id' = some svf ∨
      (id' = id ∧ id ∉ s.svfs ∧ svf = World.new id modTime s.config) := by
  rw [svfs_step, Store.Machine.next]
  split
  · rename_i hmem
    exact ⟨.inl, fun h => h.resolve_right fun hnew => hnew.2.1 hmem⟩
  · rename_i hnot
    by_cases hid : id' = id
    · subst hid
      rw [Finmap.lookup_insert, Finmap.lookup_eq_none.mpr hnot]
      simp only [hnot, not_false_eq_true, true_and, reduceCtorEq, false_or, Option.some.injEq]
      exact eq_comm
    · rw [Finmap.lookup_insert_of_ne _ hid]
      exact ⟨.inl, fun h => h.resolve_right fun hnew => hid hnew.1⟩

theorem lookup_step_remove {id id' : Id} {svf : World} :
    (step (.remove id) s).svfs.lookup id' = some svf ↔ id' ≠ id ∧ s.svfs.lookup id' = some svf := by
  rw [svfs_step, Store.Machine.next]
  by_cases hid : id' = id
  · rw [hid, Finmap.lookup_erase]
    simp only [reduceCtorEq, ne_eq, not_true_eq_false, false_and]
  · rw [Finmap.lookup_erase_ne hid]
    exact ⟨fun h => ⟨hid, h⟩, And.right⟩

theorem lookup_step_call {id id' : Id} {c : Command} {svf : World} :
    (step (.call id c) s).svfs.lookup id' = some svf ↔ (id' ≠ id ∧ s.svfs.lookup id' = some svf) ∨
      (id' = id ∧ ∃ svf', s.svfs.lookup id = some svf' ∧ svf = c.step svf') := by
  rw [svfs_step, Store.Machine.next]
  cases hsvf : s.svfs.lookup id with
  | none =>
    by_cases hid : id' = id
    · subst hid
      simp [hsvf]
    · simp [hid]
  | some old =>
    by_cases hid : id' = id
    · subst hid
      simp only [Finmap.lookup_insert, Option.some.injEq, ne_eq, not_true_eq_false, false_and, false_or, true_and,
        exists_eq_left']
      exact eq_comm
    · simp [Finmap.lookup_insert_of_ne _ hid, hid]

theorem Overwrites.step (h : Overwrites s) (c : SystemCommand) : Overwrites (step c s) := by
  refine ⟨by rw [config_step]; exact h.1, fun id svf hsvf => ?_⟩
  cases c with
  | insert id' modTime =>
    rcases lookup_step_insert.mp hsvf with hold | ⟨_, _, rfl⟩
    · exact h.2 id svf hold
    · exact h.1
  | remove id' => exact h.2 id svf (lookup_step_remove.mp hsvf).2
  | call id' c =>
    rcases lookup_step_call.mp hsvf with ⟨_, hold⟩ | ⟨_, svf', hsvf', rfl⟩
    · exact h.2 id svf hold
    · rw [(step_fixed c svf').config]
      exact h.2 id' svf' hsvf'

/-- One call leaves nothing behind if what it erases is blank, and only then. -/
theorem step_leaves (h : Overwrites s) (c : SystemCommand) :
    (∀ w, c.Removes s w → w.Scrubbed) ∧ Scrubbed (step c s) ↔ Scrubbed s ∧ c.ErasesBlank s := by
  cases c with
  | insert id modTime =>
    constructor
    · rintro ⟨_, hafter⟩
      exact ⟨fun id' svf hsvf => hafter id' svf (lookup_step_insert.mpr (.inl hsvf)), trivial⟩
    · rintro ⟨hbefore, _⟩
      refine ⟨nofun, fun id' svf hsvf => ?_⟩
      rcases lookup_step_insert.mp hsvf with hold | ⟨_, _, rfl⟩
      · exact hbefore id' svf hold
      · exact nofun
  | remove id =>
    constructor
    · rintro ⟨hremoved, hafter⟩
      refine ⟨fun id' svf hsvf => ?_, trivial⟩
      by_cases hid : id' = id
      · subst hid
        exact (scrubbed_destroy (h.2 id' svf hsvf)).mp (hremoved _ ⟨svf, hsvf, rfl⟩)
      · exact hafter id' svf (lookup_step_remove.mpr ⟨hid, hsvf⟩)
    · rintro ⟨hbefore, _⟩
      refine ⟨?_, fun id' svf hsvf => hbefore id' svf (lookup_step_remove.mp hsvf).2⟩
      rintro w ⟨svf, hsvf, rfl⟩
      exact (scrubbed_destroy (h.2 id svf hsvf)).mpr (hbefore id svf hsvf)
  | call id c =>
    have hfile : ∀ svf, s.svfs.lookup id = some svf → ((c.step svf).Scrubbed ↔ svf.Scrubbed ∧ c.ErasesBlank svf) :=
      fun svf hsvf => step_scrubbed c svf (h.2 id svf hsvf)
    constructor
    · rintro ⟨_, hafter⟩
      have hthere : ∀ svf, s.svfs.lookup id = some svf → svf.Scrubbed ∧ c.ErasesBlank svf := fun svf hsvf =>
        (hfile svf hsvf).mp (hafter id _ (lookup_step_call.mpr (.inr ⟨rfl, svf, hsvf, rfl⟩)))
      refine ⟨fun id' svf hsvf => ?_, fun svf hsvf => (hthere svf hsvf).2⟩
      by_cases hid : id' = id
      · subst hid
        exact (hthere svf hsvf).1
      · exact hafter id' svf (lookup_step_call.mpr (.inl ⟨hid, hsvf⟩))
    · rintro ⟨hbefore, hblank⟩
      refine ⟨nofun, fun id' svf hsvf => ?_⟩
      rcases lookup_step_call.mp hsvf with ⟨_, hold⟩ | ⟨_, svf', hsvf', rfl⟩
      · exact hbefore id' svf hold
      · exact (hfile svf' hsvf').mpr ⟨hbefore id svf' hsvf', hblank svf' hsvf'⟩

theorem leaves_iff (h : Overwrites s) (cs : List SystemCommand) :
    (∀ w, Leaves s cs w → w.Scrubbed) ↔ Scrubbed s ∧ Run.Along step ErasesBlank s cs := by
  induction cs generalizing s with
  | nil =>
    constructor
    · intro hleaves
      refine ⟨fun id svf hsvf => ?_, trivial⟩
      have hcleared := (scrubbed_destroy ?_).mp (hleaves _ ⟨id, svf, hsvf, rfl⟩)
      · exact (scrubbed_destroy (h.2 id svf hsvf)).mp hcleared
      · rw [World.clear_file]
        exact h.2 id svf hsvf
    · rintro ⟨hscrubbed, _⟩ w ⟨id, svf, hsvf, rfl⟩
      refine (scrubbed_destroy ?_).mpr ((scrubbed_destroy (h.2 id svf hsvf)).mpr (hscrubbed id svf hsvf))
      rw [World.clear_file]
      exact h.2 id svf hsvf
  | cons c rest ih =>
    have hsplit : (∀ w, Leaves s (c :: rest) w → w.Scrubbed) ↔
        (∀ w, c.Removes s w → w.Scrubbed) ∧ ∀ w, Leaves (step c s) rest w → w.Scrubbed := by
      simp only [Leaves, or_imp, forall_and]
    rw [hsplit, ih (h.step c), ← and_assoc, step_leaves h c, Run.Along, and_assoc]

end Step

/-- **What a system leaves behind.** With `overwrite_on_exit` all data of all files, removed or there
to the end, is overwritten before it goes, exactly if all that erases and punts take is blank
already. -/
theorem run_leaves_iff (config : SparseVirtualFileConfig) (cs : List SystemCommand)
    (h : config.overwriteOnExit = true) :
    (∀ w, Leaves (.new config) cs w → w.Scrubbed) ↔ Run.Along step ErasesBlank (.new config) cs := by
  have hempty : ∀ id svf, (SparseVirtualFileSystem.new config).svfs.lookup id ≠ some svf := by
    intro id svf hsvf
    rw [SparseVirtualFileSystem.new, Finmap.lookup_empty] at hsvf
    cases hsvf
  rw [leaves_iff ⟨h, fun id svf hsvf => absurd hsvf (hempty id svf)⟩]
  exact and_iff_right fun id svf hsvf => absurd hsvf (hempty id svf)

theorem run_leaves_iff_removed :
    (∀ w, Leaves (.new {overwriteOnExit := true})
        [.insert [97] 0, .insert [98] 0, .call [97] (.write 0 4 [1, 2]), .call [98] (.write 1 0 [3]), .remove [97]] w →
      w.Scrubbed) ↔
    Run.Along step ErasesBlank (.new {overwriteOnExit := true})
      [.insert [97] 0, .insert [98] 0, .call [97] (.write 0 4 [1, 2]), .call [98] (.write 1 0 [3]), .remove [97]] :=
  run_leaves_iff {overwriteOnExit := true} _ rfl

end SystemCommand
end Svfs
