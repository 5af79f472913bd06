import Svfs.Library.Run
import Svfs.Python.SparseVirtualFile
import Svfs.Python.SparseVirtualFileSystem
import Svfs.Write.Alike
import Svfs.Write.Empty

/-! A file in a system and a file on its own.

`cSVFS.write` and `cSVF.write` call the same C++ `write`, but only the second keeps a string
of no bytes from it. Given the same writes, the file of a system and the stand-alone file
have the same bytes for as long as every write of no bytes falls on a block, and no longer
(`writes_alike_iff`). -/
namespace Svfs

/-- A write of the same bytes to both, to each at a time of its own. -/
structure BothWrite where
  now : Int
  now' : Int
  fpos : Nat
  data : List Byte

/-- A stand-alone file, and a system of files. -/
structure Both where
  alone : CpSparseVirtualFile
  system : CpSparseVirtualFileSystem

/-- Both returned the same object, or both raised an error of the same kind. -/
inductive SameKind : PyResult PyObject → PyResult PyObject → Prop where
  | returned (a : PyObject) : SameKind (.returned a) (.returned a)
  | raised {e e' : PyError} (h : e'.kind = e.kind) : SameKind (.raised e) (.raised e')

namespace Both

def writeAlone (call : BothWrite) (b : Both) : PyOutcome CpSparseVirtualFile PyObject :=
  b.alone.write call.now call.fpos call.data

def writeWithin (id : PyObject) (call : BothWrite) (b : Both) : PyOutcome CpSparseVirtualFileSystem PyObject :=
  b.system.svfWrite call.now' id call.fpos call.data

def step (id : PyObject) (call : BothWrite) (b : Both) : Both :=
  ⟨(b.writeAlone call).self, (b.writeWithin id call).self⟩

/-- The C++ file of this id. -/
def within (cId : Id) (b : Both) : Option World := b.system.pSvfs.svfs.lookup cId

/-- The same blocks, with the same bytes, and the same `num_bytes`. -/
def SameFile (cId : Id) (b : Both) : Prop :=
  ∃ svf, b.within cId = some svf ∧ svf.file.segments = b.alone.pSvf.file.segments ∧
    svf.file.numBytes = b.alone.pSvf.file.numBytes

/-- Both take the write alike. -/
structure WritesAlike (id : PyObject) (cId : Id) (call : BothWrite) (both : Both) : Prop where
  answers : SameKind (both.writeAlone call).result (both.writeWithin id call).result
  file : (both.step id call).SameFile cId
  /-- A write of no bytes changes nothing. -/
  idle : call.data = [] → ∀ svf svf', both.within cId = some svf → (both.step id call).within cId = some svf' →
    svf'.file.segments = svf.file.segments ∧ svf'.file.numBytes = svf.file.numBytes

/-- A write of no bytes falls on a block of the file in the system. -/
def FallsOnBlock (cId : Id) (call : BothWrite) (b : Both) : Prop :=
  call.data = [] → ∃ svf, b.within cId = some svf ∧ svf.file.Reaches call.fpos

/-- A write of no bytes leaves the file in the system as it is, its touches and counters
included. -/
def Untouched (id : PyObject) (cId : Id) (call : BothWrite) (b : Both) : Prop :=
  call.data = [] → ((b.step id call).within cId).map World.file = (b.within cId).map World.file

/-- The file in the system is alike the one that stands alone. -/
def Matches (cId : Id) (b : Both) : Prop :=
  ∃ svf, b.within cId = some svf ∧ Matching True False b.alone.pSvf svf

section Step
variable {id : PyObject} {cId : Id} {b : Both} {call : BothWrite} {svf : World}

theorem writeWithin_found (call : BothWrite) (hid : parseString id = some cId)
    (hsvf : b.within cId = some svf) :
    (b.writeWithin id call).self = ⟨b.system.pSvfs.set cId (svf.write call.now' call.fpos call.data).world⟩ ∧
      match (svf.write call.now' call.fpos call.data).result with
      | .ok _ => (b.writeWithin id call).result = .returned .none
      | .error (.diff _) => ∃ m, (b.writeWithin id call).result = .raised ⟨.osError, m⟩
      | .error _ => ∃ m, (b.writeWithin id call).result = .raised ⟨.runtimeError, m⟩ := by
  have hhas : b.system.pSvfs.has cId := decide_eq_true (Finmap.mem_of_lookup_eq_some hsvf)
  have hat : b.system.pSvfs.at? cId = .ok svf := by
    rw [within] at hsvf
    rw [SparseVirtualFileSystem.at?, hsvf]
  simp only [writeWithin, CpSparseVirtualFileSystem.svfWrite, hid, hhas, hat, if_true]
  cases (svf.write call.now' call.fpos call.data).result with
  | ok _ => exact ⟨rfl, rfl⟩
  | error e =>
    cases e <;> exact ⟨rfl, _, rfl⟩

theorem within_step (call : BothWrite) (hid : parseString id = some cId) (hsvf : b.within cId = some svf) :
    (b.step id call).within cId = some (svf.write call.now' call.fpos call.data).world := by
  rw [within, step, (writeWithin_found call hid hsvf).1]
  exact Finmap.lookup_insert _

/-- Bytes are written to both alike. -/
theorem writesAlike_of_data (hid : parseString id = some cId) (h : b.Matches cId) (hdata : call.data ≠ []) :
    b.WritesAlike id cId call ∧ (b.step id call).Matches cId := by
  obtain ⟨svf, hsvf, hmatch⟩ := h
  obtain ⟨hresult, hworld⟩ := World.matching_write hmatch call.now call.now' call.fpos call.data
  have halone : (b.step id call).alone.pSvf = (b.alone.pSvf.write call.now call.fpos call.data).world := by
    simp only [step, writeAlone, CpSparseVirtualFile.write, if_pos (List.length_pos_iff.mpr hdata)]
    split <;> rfl
  have hmatches : (b.step id call).Matches cId := ⟨_, within_step call hid hsvf, halone ▸ hworld⟩
  obtain ⟨svf', hsvf', hmatch'⟩ := hmatches
  refine ⟨⟨?_, ⟨svf', hsvf', hmatch'.segments, hmatch'.bytesTotal trivial⟩, fun hnil => absurd hnil hdata⟩,
    svf', hsvf', hmatch'⟩
  have hwithin := (writeWithin_found call hid hsvf).2
  simp only [writeAlone, CpSparseVirtualFile.write, if_pos (List.length_pos_iff.mpr hdata)]
  rw [hresult] at hwithin
  cases hr : (b.alone.pSvf.write call.now call.fpos call.data).result with
  | ok _ =>
    rw [hr] at hwithin
    simp only [hwithin]
    exact .returned _
  | error e =>
    rw [hr] at hwithin
    cases e <;> obtain ⟨m, hm⟩ := hwithin <;> simp only [hm] <;> exact .raised rfl

/-- A stand-alone file is not told of a write of no bytes. -/
theorem writeAlone_nil (hnil : call.data = []) : b.writeAlone call = ⟨.returned .none, b.alone⟩ := by
  simp [writeAlone, CpSparseVirtualFile.write, hnil]

theorem alone_step_nil (hnil : call.data = []) : (b.step id call).alone = b.alone := by
  rw [step, writeAlone_nil hnil]

/-- A write of no bytes that falls on a block is counted and touches the block, and that is all. -/
theorem writesAlike_of_nil (hid : parseString id = some cId) (hsvf : b.within cId = some svf)
    (hmatch : Matching True False b.alone.pSvf svf) (hnil : call.data = []) (hfalls : svf.file.Reaches call.fpos) :
    b.WritesAlike id cId call ∧ (b.step id call).Matches cId ∧ ¬ b.Untouched id cId call := by
  obtain ⟨hresult, hsegments, hbytes, hcount⟩ := World.write_nil_onto call.now' hfalls
  have hafter : (b.step id call).within cId = some (svf.write call.now' call.fpos []).world :=
    hnil ▸ within_step call hid hsvf
  have hconfig : (svf.write call.now' call.fpos []).world.file.config = svf.file.config :=
    (World.fixed_write call.now' call.fpos [] svf).config
  have hmatch' : Matching True False (b.step id call).alone.pSvf (svf.write call.now' call.fpos []).world := by
    rw [alone_step_nil hnil]
    exact ⟨.of_segments (hsegments.trans hmatch.segments) ((congrArg _ hconfig).trans hmatch.compareForDiff),
      fun _ => hbytes.trans (hmatch.bytesTotal trivial), False.elim⟩
  refine ⟨⟨?_, ⟨_, hafter, hmatch'.segments, hmatch'.bytesTotal trivial⟩, fun _ v v' hv hv' => ?_⟩,
    ⟨_, hafter, hmatch'⟩, fun hun => ?_⟩
  · have hwithin := (writeWithin_found call hid hsvf).2
    rw [hnil, hresult] at hwithin
    rw [writeAlone_nil hnil, hwithin]
    exact .returned _
  · obtain rfl := Option.some.inj (hsvf.symm.trans hv)
    obtain rfl := Option.some.inj (hafter.symm.trans hv')
    exact ⟨hsegments, hbytes⟩
  · -- It is counted.
    have hsame := hun hnil
    rw [hafter, hsvf] at hsame
    have hcount' := congrArg SparseVirtualFile.countWrite (Option.some.inj hsame)
    simp only [hcount, sizeAdd, Wrap.add] at hcount'
    omega

/-- Anywhere else it is not: it raises, or leaves a block of no bytes behind. -/
theorem not_writesAlike (hid : parseString id = some cId) (hsvf : b.within cId = some svf)
    (hmatch : Matching True False b.alone.pSvf svf) (hnil : call.data = []) (hfpos : call.fpos < 2 ^ 64)
    (hfalls : ¬ svf.file.Reaches call.fpos) : ¬ b.WritesAlike id cId call := by
  rintro ⟨hanswers, ⟨svf', hsvf', hsegments, _⟩, _⟩
  have hwithin := (writeWithin_found call hid hsvf).2
  have hafter := within_step call hid hsvf
  have hblocks := World.writeBlocks_nil_new hfpos hfalls
  rw [writeAlone_nil hnil] at hanswers
  rw [hnil] at hwithin hafter
  cases hr : (svf.writeNewBlock call.fpos []).result with
  | ok u =>
    rw [World.write, hblocks, Outcome.bind_of_ok hr] at hafter
    obtain rfl := Option.some.inj (hsvf'.symm.trans hafter)
    have hgrown : (svf.writeNewBlock call.fpos []).world.file.segments = svf.file.segments := by
      rw [alone_step_nil hnil, ← hmatch.segments] at hsegments
      exact hsegments
    have hsize := World.size_writeNewBlock hr
    rw [hgrown] at hsize
    omega
  | error e =>
    rw [World.write, hblocks, Outcome.bind_of_error hr] at hwithin
    cases e <;> obtain ⟨m, hm⟩ := hwithin <;> rw [hm] at hanswers <;> cases hanswers

/-- One write is taken alike or not, and both go on alike if it is. -/
theorem writesAlike_iff (hid : parseString id = some cId) (h : b.Matches cId) (hfpos : call.fpos < 2 ^ 64) :
    (b.WritesAlike id cId call ↔ b.FallsOnBlock cId call) ∧
      (b.WritesAlike id cId call → (b.step id call).Matches cId) := by
  obtain ⟨svf, hsvf, hmatch⟩ := h
  by_cases hnil : call.data = []
  · by_cases hfalls : svf.file.Reaches call.fpos
    · obtain ⟨halike, hmatches, _⟩ := writesAlike_of_nil hid hsvf hmatch hnil hfalls
      exact ⟨⟨fun _ _ => ⟨svf, hsvf, hfalls⟩, fun _ => halike⟩, fun _ => hmatches⟩
    · have hnot := not_writesAlike hid hsvf hmatch hnil hfpos hfalls
      refine ⟨⟨fun halike => absurd halike hnot, fun hon => ?_⟩, fun halike => absurd halike hnot⟩
      obtain ⟨svf', hsvf', hreaches⟩ := hon hnil
      obtain rfl := Option.some.inj (hsvf.symm.trans hsvf')
      exact absurd hreaches hfalls
  · obtain ⟨halike, hmatches⟩ := writesAlike_of_data hid ⟨svf, hsvf, hmatch⟩ hnil
    exact ⟨⟨fun _ hnil' => absurd hnil' hnil, fun _ => halike⟩, fun _ => hmatches⟩

/-- A write of no bytes does not leave the file in the system untouched. -/
theorem untouched_iff (hid : parseString id = some cId) (h : b.Matches cId) (hfpos : call.fpos < 2 ^ 64) :
    b.WritesAlike id cId call ∧ b.Untouched id cId call ↔ call.data ≠ [] := by
  obtain ⟨svf, hsvf, hmatch⟩ := h
  constructor
  · rintro ⟨halike, huntouched⟩ hnil
    by_cases hfalls : svf.file.Reaches call.fpos
    · exact (writesAlike_of_nil hid hsvf hmatch hnil hfalls).2.2 huntouched
    · exact not_writesAlike hid hsvf hmatch hnil hfpos hfalls halike
  · intro hdata
    exact ⟨(writesAlike_of_data hid ⟨svf, hsvf, hmatch⟩ hdata).1, fun hnil => absurd hnil hdata⟩

/-- They begin alike: both files are new, and of one configuration. -/
theorem matches_new {aloneId : PyObject} {modTime aloneModTime : Float}
    {start system : CpSparseVirtualFileSystem} {alone : CpSparseVirtualFile} (hid : parseString id = some cId)
    (hinsert : start.insert id modTime = ⟨.returned .none, system⟩)
    (halone : CpSparseVirtualFile.init aloneId aloneModTime start.pSvfs.config = some alone) :
    Matches cId ⟨alone, system⟩ := by
  obtain ⟨bs, _, hnew⟩ := CpSparseVirtualFile.pSvf_of_init halone
  have hsystem : system.pSvfs.svfs.lookup cId = some (World.new cId modTime start.pSvfs.config) := by
    simp only [CpSparseVirtualFileSystem.insert, hid, SparseVirtualFileSystem.insert] at hinsert
    split at hinsert
    · rename_i hok
      split at hok
      · cases hok
      · obtain rfl := Except.ok.inj hok
        obtain ⟨_, rfl⟩ := PyOutcome.mk.inj hinsert
        exact Finmap.lookup_insert _
    · cases hinsert
    · cases hinsert
  refine ⟨_, hsystem, ?_⟩
  rw [hnew]
  exact ⟨⟨rfl, rfl⟩, fun _ => rfl, False.elim⟩

end Step

/-- **A file in a system** and one on its own, written to alike, stay alike just as long as
every write of no bytes falls on a block; that such a write leaves no trace at all, not even
a touch, goes for none. -/
theorem writes_alike_iff {id aloneId : PyObject} {cId : Id} {modTime aloneModTime : Float}
    {start system : CpSparseVirtualFileSystem} {alone : CpSparseVirtualFile} (calls : List BothWrite)
    (hid : parseString id = some cId) (hinsert : start.insert id modTime = ⟨.returned .none, system⟩)
    (halone : CpSparseVirtualFile.init aloneId aloneModTime start.pSvfs.config = some alone)
    (hcalls : ∀ call ∈ calls, call.fpos + call.data.length < 2 ^ 64) :
    (Run.Along (step id) (fun call b => b.WritesAlike id cId call) ⟨alone, system⟩ calls ↔
        Run.Along (step id) (fun call b => b.FallsOnBlock cId call) ⟨alone, system⟩ calls) ∧
      (Run.Along (step id) (fun call b => b.WritesAlike id cId call ∧ b.Untouched id cId call)
        ⟨alone, system⟩ calls ↔ ∀ call ∈ calls, call.data ≠ []) := by
  have hbegin := matches_new hid hinsert halone
  have hfpos : ∀ call ∈ calls, call.fpos < 2 ^ 64 := fun call hcall => by
    have := hcalls call hcall
    omega
  constructor
  · exact Run.along_congr (fun call hcall b hb => (writesAlike_iff hid hb (hfpos call hcall)).2)
      (fun call hcall b hb => (writesAlike_iff hid hb (hfpos call hcall)).1) hbegin
  · refine Iff.trans (Run.along_congr (P := Matches cId) ?_ ?_ hbegin) Run.along_forall_iff
    · exact fun call hcall b hb h => (writesAlike_iff hid hb (hfpos call hcall)).2 h.1
    · exact fun call hcall b hb => untouched_iff hid hb (hfpos call hcall)

/-- A system of one new file, with the id `a`. -/
def oneFile : CpSparseVirtualFileSystem := ((CpSparseVirtualFileSystem.init).insert (.str [97]) 0).self

/-- A new file with the id `b`. -/
def newFile : CpSparseVirtualFile := ⟨World.new [98] 0, by decide⟩

theorem insert_oneFile :
    (CpSparseVirtualFileSystem.init).insert (.str [97]) 0 = ⟨.returned .none, oneFile⟩ := rfl

theorem init_newFile : CpSparseVirtualFile.init (.str [98]) 0 {} = some newFile := rfl

theorem writes_alike_iff_newFile :
    let calls : List BothWrite := [⟨0, 0, 4, [1, 2]⟩, ⟨1, 3, 6, []⟩, ⟨2, 4, 9, []⟩]
    (Run.Along (step (.str [97])) (fun call b => b.WritesAlike (.str [97]) [97] call) ⟨newFile, oneFile⟩ calls ↔
        Run.Along (step (.str [97])) (fun call b => b.FallsOnBlock [97] call) ⟨newFile, oneFile⟩ calls) ∧
      (Run.Along (step (.str [97]))
        (fun call b => b.WritesAlike (.str [97]) [97] call ∧ b.Untouched (.str [97]) [97] call)
        ⟨newFile, oneFile⟩ calls ↔ ∀ call ∈ calls, call.data ≠ []) :=
  writes_alike_iff [⟨0, 0, 4, [1, 2]⟩, ⟨1, 3, 6, []⟩, ⟨2, 4, 9, []⟩] (by decide) insert_oneFile init_newFile
    (by decide)

/-- A new file of a system gets a block of no bytes, where one on its own stays empty. -/
theorem not_writes_alike :
    ¬ ∀ calls : List BothWrite, (∀ call ∈ calls, call.fpos + call.data.length < 2 ^ 64) →
      Run.Along (step (.str [97])) (fun call b => b.WritesAlike (.str [97]) [97] call)
        ⟨newFile, oneFile⟩ calls := by
  intro h
  obtain ⟨halike, _⟩ := h [⟨0, 0, 0, []⟩] (by decide)
  have hid : parseString (.str [97]) = some [97] := by decide
  obtain ⟨svf, hsvf, hmatch⟩ := matches_new hid insert_oneFile init_newFile
  refine not_writesAlike hid hsvf hmatch rfl (by decide) ?_ halike
  rintro ⟨iter, hlast, _⟩
  have hmem := hlast.mem
  rw [List.map_eq_nil_iff.mp hmatch.segments] at hmem
  cases hmem

end Both
end Svfs
