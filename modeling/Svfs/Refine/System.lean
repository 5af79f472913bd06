import Svfs.Refine.Ask
import Svfs.System.Command
import Svfs.Write.Fixed

/-! A system of sparse virtual files is a set of held positions for each id.

As long as the writes under each id hand over bytes of one file, and none runs into the
next block, every file of a system shows its held positions, and the totals of the system
count them: `num_bytes` the positions, `num_blocks` the runs they make, `size_of` both
(`run_totals`). -/
namespace Svfs

namespace SystemCommand

/-- A write to the file of an id hands over bytes of the file of this id. -/
def From (F : Id → Nat → Byte) : SystemCommand → Prop
  | .call id c => c.From (F id)
  | .insert _ _ | .remove _ => True

/-- A write that runs into the next block of the file it is for. -/
def RunsIntoNext : SystemCommand → SparseVirtualFileSystem → Prop
  | .call id c, s => ∃ svf, s.svfs.lookup id = some svf ∧ c.RunsIntoNext svf
  | .insert _ _, _ | .remove _, _ => False

instance (c : SystemCommand) (s : SparseVirtualFileSystem) : Decidable (c.RunsIntoNext s) :=
  match c with
  | .call id c =>
    match h : s.svfs.lookup id with
    | some svf => decidable_of_iff (c.RunsIntoNext svf) (by simp [RunsIntoNext, h])
    | none => isFalse (by simp [RunsIntoNext, h])
  | .insert _ _ | .remove _ => isFalse id

/-- The held positions of the file with this id. -/
def heldOf (config : SparseVirtualFileConfig) (cs : List SystemCommand) (id : Id) : Set Nat :=
  match Store.historyOf id cs with
  | some (modTime, calls) => (Run.run ghostStep (World.new id modTime config, ∅) calls).2
  | none => ∅

end SystemCommand

/-- What the system shows of the held positions of its files: every file shows its own, and
the totals are those of all files. -/
structure ShowsAll (F : Id → Nat → Byte) (sizes : Sizes) (s : SparseVirtualFileSystem) (H : Id → Set Nat) :
    Prop where
  files : ∀ id svf, s.svfs.lookup id = some svf → Shows (F id) svf.file (H id)
  ids : ∀ id svf, s.svfs.lookup id = some svf → svf.file.id = id
  numBytes : s.numBytes = (∑ id ∈ s.svfs.keys, (H id).ncard) % 2 ^ 64
  numBlocks : s.numBlocks = (∑ id ∈ s.svfs.keys, (Demand.starts (H id)).ncard) % 2 ^ 64
  sizeOf : s.sizeOf sizes = (sizes.sparseVirtualFileSystem + ∑ id ∈ s.svfs.keys,
    (sizes.overhead id.length (Demand.starts (H id)).ncard + (H id).ncard)) % 2 ^ 64

namespace SparseVirtualFileSystem

/-- What adds up over the files of a system, one by one. -/
theorem foldl_sizeAdd (f : SparseVirtualFile → Nat) {a : Nat} (ha : a < 2 ^ 64) (svfs : Finmap fun _ : Id => World)
    (hcomm : ∀ ret _ svf _ svf', sizeAdd (sizeAdd ret (f (svf : World).file)) (f (svf' : World).file) =
      sizeAdd (sizeAdd ret (f svf'.file)) (f svf.file)) :
    svfs.foldl (fun ret _ svf => sizeAdd ret (f svf.file)) hcomm a =
      (a + svfs.sumOver fun svf => f svf.file) % 2 ^ 64 := by
  induction svfs using Finmap.induction_on with
  | H entries => exact Wrap.foldl_add (w := 64) (fun e : Σ _ : Id, World => f e.2.file) entries.entries ha

end SparseVirtualFileSystem

namespace SystemCommand
variable {F : Id → Nat → Byte} {config : SparseVirtualFileConfig} {cs : List SystemCommand} {id : Id} {svf : World}

/-- Every file of the system is tidy and holds its positions. -/
theorem run_represents
    (hfrom : ∀ c ∈ cs, c.From F)
    (hrun : Run.Along step (fun c s => ¬ c.RunsIntoNext s) (.new config) cs)
    (hsvf : (Run.run step (.new config) cs).svfs.lookup id = some svf) :
    Represents (F id) svf (heldOf config cs id) ∧ svf.file.id = id := by
  rw [lookup_run config id cs] at hsvf
  obtain ⟨⟨modTime, calls⟩, hhistory, rfl⟩ := Option.map_eq_some_iff.mp hsvf
  have hasked : Run.Along step (fun c s => c.From F ∧ ¬ c.RunsIntoNext s) (.new config) cs :=
    Run.along_and.mpr ⟨Run.along_of_forall hfrom, hrun⟩
  have halong : Run.Along Command.step (fun c w => c.From (F id) ∧ ¬ c.RunsIntoNext w)
      (World.new id modTime config) calls := by
    refine Store.Machine.along_history (M := fileMachine config)
      (A := fun k j s => j.From (F k) ∧ ¬ j.RunsIntoNext s) ?_ hhistory
    refine Run.along_mono ?_ (along_next hasked)
    rintro i m ⟨hi, hruns⟩ j s hj hs
    rw [hj] at hi hruns
    exact ⟨hi, fun hbad => hruns ⟨s, hs, hbad⟩⟩
  obtain ⟨hcalls, hinto⟩ := Run.along_and.mp halong
  have hstates := (Svfs.run_represents (represents_new (F id) id modTime config)
    (Run.along_forall_iff.mp hcalls) hinto).2 _ Run.run_mem_states
  rw [run_ghostStep] at hstates
  refine ⟨?_, ?_⟩
  · simp only [heldOf, hhistory]
    exact hstates
  · exact (run_fixed calls _).id

/-- What a total adds up for the files is what is said of each id. -/
theorem foldl_files {s : SparseVirtualFileSystem} (f : SparseVirtualFile → Nat) (g : Id → Nat) {a : Nat}
    (ha : a < 2 ^ 64) (h : ∀ id svf, s.svfs.lookup id = some svf → f svf.file % 2 ^ 64 = g id % 2 ^ 64)
    (hcomm : ∀ ret _ svf _ svf', sizeAdd (sizeAdd ret (f (svf : World).file)) (f (svf' : World).file) =
      sizeAdd (sizeAdd ret (f svf'.file)) (f svf.file)) :
    s.svfs.foldl (fun ret _ svf => sizeAdd ret (f svf.file)) hcomm a =
      (a + ∑ id ∈ s.svfs.keys, g id) % 2 ^ 64 := by
  let atId : Id → Nat := fun id => (s.svfs.lookup id).elim 0 fun svf => f svf.file
  have hsum : (s.svfs.sumOver fun svf => f svf.file) = ∑ id ∈ s.svfs.keys, atId id :=
    Finmap.sumOver_eq_sum_keys _ atId fun id svf hsvf => by simp only [atId, hsvf, Option.elim_some]
  have hmod : (∑ id ∈ s.svfs.keys, atId id) % 2 ^ 64 = (∑ id ∈ s.svfs.keys, g id) % 2 ^ 64 := by
    rw [Finset.sum_nat_mod, Finset.sum_nat_mod (f := g)]
    congr 1
    refine Finset.sum_congr rfl fun id hid => ?_
    obtain ⟨svf, hsvf⟩ := Finmap.mem_iff.mp (Finmap.mem_keys.mp hid)
    simp only [atId, hsvf, Option.elim_some, h id svf hsvf]
  rw [SparseVirtualFileSystem.foldl_sizeAdd f ha, hsum, Nat.add_mod, hmod, ← Nat.add_mod]

/-- **The totals of a system** count the held positions of its files, whatever was done to which of
them in between. -/
theorem run_totals (sizes : Sizes) (hsizes : sizes.sparseVirtualFileSystem < 2 ^ 64)
    (hfrom : ∀ c ∈ cs, c.From F) (hrun : Run.Along step (fun c s => ¬ c.RunsIntoNext s) (.new config) cs) :
    ShowsAll F sizes (Run.run step (.new config) cs) (heldOf config cs) := by
  have hfiles : ∀ id svf, (Run.run step (.new config) cs).svfs.lookup id = some svf →
      Represents (F id) svf (heldOf config cs id) ∧ svf.file.id = id :=
    fun id svf hsvf => run_represents hfrom hrun hsvf
  have hbytes : ∀ id svf, (Run.run step (.new config) cs).svfs.lookup id = some svf →
      svf.file.numBytes = (heldOf config cs id).ncard :=
    fun id svf hsvf => (hfiles id svf hsvf).1.shows.numBytes
  have hblocks : ∀ id svf, (Run.run step (.new config) cs).svfs.lookup id = some svf →
      svf.file.numBlocks = (Demand.starts (heldOf config cs id)).ncard :=
    fun id svf hsvf => (hfiles id svf hsvf).1.numBlocks_eq
  refine ⟨fun id svf hsvf => (hfiles id svf hsvf).1.shows, fun id svf hsvf => (hfiles id svf hsvf).2, ?_, ?_, ?_⟩
  · have htotal := foldl_files SparseVirtualFile.numBytes _ (a := 0) (by omega)
      (fun id svf hsvf => congrArg (· % 2 ^ 64) (hbytes id svf hsvf)) fun ret _ svf _ svf' => by
        simp only [sizeAdd_assoc, Nat.add_comm]
    rw [Nat.zero_add] at htotal
    exact htotal
  · have htotal := foldl_files SparseVirtualFile.numBlocks _ (a := 0) (by omega)
      (fun id svf hsvf => congrArg (· % 2 ^ 64) (hblocks id svf hsvf)) fun ret _ svf _ svf' => by
        simp only [sizeAdd_assoc, Nat.add_comm]
    rw [Nat.zero_add] at htotal
    exact htotal
  · refine foldl_files (SparseVirtualFile.sizeOf sizes) _ hsizes (fun id svf hsvf => ?_) _
    rw [(hfiles id svf hsvf).1.tidy.toWellFormed.sizeOf_eq, hbytes id svf hsvf, hblocks id svf hsvf,
      (hfiles id svf hsvf).2, Nat.mod_mod]

/-- Two files, one of which is made anew, and a call on one that is not there. -/
def twoFiles : List SystemCommand :=
  [.insert [97] 0, .insert [98] 0, .call [97] (.writeFrom countingFile 4 2), .call [98] (.writeFrom countingFile 0 3),
    .call [99] (.writeFrom countingFile 0 3), .remove [97], .insert [97] 1, .call [97] (.read 0 4 2),
    .call [97] (.writeFrom countingFile 8 1), .call [98] (.writeFrom countingFile 9 1), .call [98] (.erase 0)]

theorem run_totals_twoFiles :
    ShowsAll (fun _ => countingFile) ⟨200, 100, 8, 32⟩ (Run.run step (.new) twoFiles) (heldOf {} twoFiles) := by
  refine run_totals ⟨200, 100, 8, 32⟩ (by decide) ?_ (by decide)
  simp only [twoFiles, List.forall_mem_cons]
  exact ⟨trivial, trivial, from_writeFrom (by decide) (by decide), from_writeFrom (by decide) (by decide),
    from_writeFrom (by decide) (by decide), trivial, trivial, trivial, from_writeFrom (by decide) (by decide),
    from_writeFrom (by decide) (by decide), trivial, by simp⟩

end SystemCommand
end Svfs
