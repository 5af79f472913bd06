import Svfs.File.SizeOf
import Svfs.Library.Store
import Svfs.System.SparseVirtualFileSystem

/-! The calls a client makes on a system, and runs of them.

A call on a file goes through `at` to the file of the id. A run of a system is the runs of
its files side by side: every file is as it would be on its own, and every call answers what
it would on its own, whatever the calls on the other ids did (`run_apart`). A call that looks
outside a buffer might see another file's, so there must be none. -/
namespace Svfs

/-- A call on a system: `insert`, `remove`, or one on a file that `at` gives. -/
abbrev SystemCommand := Store.Input Id Float Command

/-- What a call on a system may throw. -/
inductive SystemError where
  | system (e : SystemException)
  | file (e : Exception)
deriving DecidableEq

/-- How a call on a system ends, and the system it leaves. -/
structure SystemOutcome where
  result : Except SystemError Reply
  system : SparseVirtualFileSystem

namespace SparseVirtualFileSystem

/-- `size`. -/
def size (s : SparseVirtualFileSystem) : Nat := s.svfs.keys.card

/-- `num_blocks`. -/
def numBlocks (s : SparseVirtualFileSystem) : Nat :=
  s.svfs.foldl (fun ret _ svf => sizeAdd ret svf.file.numBlocks)
    (fun ret _ svf _ svf' => by simp only [sizeAdd_assoc, Nat.add_comm]) 0

/-- `size_of`. -/
def sizeOf (sizes : Sizes) (s : SparseVirtualFileSystem) : Nat :=
  s.svfs.foldl (fun ret _ svf => sizeAdd ret (svf.file.sizeOf sizes))
    (fun ret _ svf _ svf' => by simp only [sizeAdd_assoc, Nat.add_comm]) sizes.sparseVirtualFileSystem

end SparseVirtualFileSystem

namespace SystemCommand

/-- A call, by what the methods of the class do. -/
def exec : SystemCommand → SparseVirtualFileSystem → SystemOutcome
  | .insert id modTime, s =>
    match s.insert id modTime with
    | .ok s' => ⟨.ok .none, s'⟩
    | .error e => ⟨.error (.system e), s⟩
  | .remove id, s =>
    match s.remove id with
    | .ok s' => ⟨.ok .none, s'⟩
    | .error e => ⟨.error (.system e), s⟩
  | .call id c, s =>
    match s.at? id with
    | .ok svf => ⟨(c.exec svf).result.mapError .file, s.set id (c.exec svf).world⟩
    | .error e => ⟨.error (.system e), s⟩

/-- The system a call leaves, whether or not it throws. -/
def step (c : SystemCommand) (s : SparseVirtualFileSystem) : SparseVirtualFileSystem := (exec c s).system

/-- What a call throws that is refused. -/
def refusal : SystemCommand → SystemException
  | .insert id _ => .insert ("SparseVirtualFileSystem::insert(): can not insert \"" ++ idText id ++ "\"")
  | .remove id => .remove ("SparseVirtualFileSystem::remove(): id \"" ++ idText id ++ "\" not found.")
  | .call _ _ => .outOfRange

/-- How a call ends that a store answers so. -/
def ofReply (c : SystemCommand) : Store.Reply (Except Exception Reply) → Except SystemError Reply
  | .done => .ok .none
  | .refused => .error (.system (refusal c))
  | .replied r => r.mapError .file

/-- A file on its own. -/
def fileMachine (config : SparseVirtualFileConfig) : Store.Machine Id Float Command World (Except Exception Reply) where
  make id modTime := World.new id modTime config
  step := Command.step
  reply c w := (c.exec w).result

section Step
variable {s : SparseVirtualFileSystem}

/-- A system is a store of files. -/
theorem exec_eq (c : SystemCommand) (s : SparseVirtualFileSystem) :
    exec c s = ⟨ofReply c ((fileMachine s.config).answer c s.svfs),
      ⟨(fileMachine s.config).next c s.svfs, s.config⟩⟩ := by
  cases c with
  | insert id modTime =>
    simp only [exec, SparseVirtualFileSystem.insert, Store.Machine.next, Store.Machine.answer]
    by_cases h : id ∈ s.svfs
    · simp only [if_pos h, ofReply, refusal]
    · simp only [if_neg h, ofReply, fileMachine]
  | remove id =>
    simp only [exec, SparseVirtualFileSystem.remove, Store.Machine.next, Store.Machine.answer]
    by_cases h : id ∈ s.svfs
    · simp only [if_pos h, ofReply]
    · have herase : s.svfs.erase id = s.svfs := by
        refine Finmap.ext_lookup fun j => ?_
        by_cases hj : j = id
        · rw [hj, Finmap.lookup_erase, Finmap.lookup_eq_none.mpr h]
        · exact Finmap.lookup_erase_ne hj
      simp only [if_neg h, ofReply, refusal, herase]
  | call id c =>
    simp only [exec, SparseVirtualFileSystem.at?, Store.Machine.next, Store.Machine.answer]
    cases s.svfs.lookup id with
    | none => rfl
    | some svf => rfl

@[simp] theorem config_step (c : SystemCommand) (s : SparseVirtualFileSystem) : (step c s).config = s.config := by
  rw [step, exec_eq]

theorem svfs_step (c : SystemCommand) (s : SparseVirtualFileSystem) :
    (step c s).svfs = (fileMachine s.config).next c s.svfs := by
  rw [step, exec_eq]

theorem run_step (cs : List SystemCommand) (s : SparseVirtualFileSystem) :
    Run.run step s cs = ⟨Run.run (fileMachine s.config).next s.svfs cs, s.config⟩ := by
  induction cs generalizing s with
  | nil => rfl
  | cons c rest ih =>
    rw [Run.run, ih, config_step, svfs_step]
    rfl

/-- What is asked along a run of a system is asked along the run of its files as a store. -/
theorem along_next {A : SystemCommand → SparseVirtualFileSystem → Prop} {cs : List SystemCommand}
    (h : Run.Along step A s cs) :
    Run.Along (fileMachine s.config).next (fun c m => A c ⟨m, s.config⟩) s.svfs cs := by
  induction cs generalizing s with
  | nil => trivial
  | cons c rest ih =>
    have hrest := ih h.2
    rw [config_step, svfs_step] at hrest
    exact ⟨h.1, hrest⟩

end Step

/-- How a call ends when its id has this history. -/
def answerTo (config : SparseVirtualFileConfig) (h : Option (Float × List Command)) (c : SystemCommand) :
    Except SystemError Reply :=
  ofReply c ((fileMachine config).answerTo h c)

variable {config : SparseVirtualFileConfig}

/-- A file of a system is as its own calls leave it. -/
theorem lookup_run (config : SparseVirtualFileConfig) (id : Id) (done : List SystemCommand) :
    (Run.run step (.new config) done).svfs.lookup id =
      (Store.historyOf id done).map fun h => Run.run Command.step (World.new id h.1 config) h.2 := by
  rw [run_step]
  exact Store.Machine.lookup_run id done

/-- The call looks outside no buffer of the file it is on. -/
def InBuffers : SystemCommand → SparseVirtualFileSystem → Prop
  | .call id c, s => ∀ svf ∈ s.svfs.lookup id, c.InBuffers svf
  | .insert _ _, _ | .remove _, _ => True

instance : (c : SystemCommand) → (s : SparseVirtualFileSystem) → Decidable (InBuffers c s)
  | .call id c, s => inferInstanceAs (Decidable (∀ svf ∈ s.svfs.lookup id, c.InBuffers svf))
  | .insert _ _, _ | .remove _, _ => isTrue trivial

/-- A run that looks outside no buffer does not on any of the files. -/
theorem inBuffers_history {cs : List SystemCommand} {id : Id} {h : Float × List Command}
    (hbuffers : Run.Along step InBuffers (.new config) cs) (hhistory : Store.historyOf id cs = some h) :
    Run.Along Command.step Command.InBuffers (World.new id h.1 config) h.2 := by
  refine Store.Machine.along_history (M := fileMachine config) (A := fun _ c svf => c.InBuffers svf) ?_ hhistory
  refine Run.along_mono ?_ (along_next hbuffers)
  rintro i m hi c svf hc hsvf
  rw [hc] at hi
  exact hi svf hsvf

/-- Every file is as its own calls leave one of its own, which look outside no buffer of it, and the
next call ends as it does on that file. -/
structure Apart (config : SparseVirtualFileConfig) (done : List SystemCommand) (c : SystemCommand) : Prop where
  files : ∀ id, (Run.run step (.new config) done).svfs.lookup id =
    (Store.historyOf id done).map fun h => Run.run Command.step (World.new id h.1 config) h.2
  buffers : ∀ id h, Store.historyOf id (done ++ [c]) = some h →
    Run.Along Command.step Command.InBuffers (World.new id h.1 config) h.2
  answer : (exec c (Run.run step (.new config) done)).result = answerTo config (Store.historyOf c.key done) c

/-- **The files of a system are apart** after any run that looks outside no buffer. -/
theorem run_apart (config : SparseVirtualFileConfig) (done : List SystemCommand) (c : SystemCommand)
    (hbuffers : Run.Along step InBuffers (.new config) (done ++ [c])) : Apart config done c := by
  refine ⟨fun id => lookup_run config id done, fun id h => inBuffers_history hbuffers, ?_⟩
  rw [run_step, exec_eq]
  exact congrArg (ofReply c) (Store.Machine.answer_run c done)

/-- Two files written to in turn, one of them read. -/
theorem run_apart_twoFiles : Apart {}
    [.insert [97] 0, .insert [98] 0, .call [97] (.write 0 4 [1, 2]), .call [98] (.write 0 4 [3]), .remove [98]]
    (.call [97] (.read 1 4 2)) :=
  run_apart {} _ _ (by decide)

end SystemCommand
end Svfs
