import Svfs.Python.Object
import Svfs.Write.Fixed

/-! The Python class `cSVF`.

Its objects hold a C++ file that was given its id as a C string, so that the id has no
NUL. `getstate` and `setstate` are the two halves of pickling: the first reads every
block back, the second makes a new file and writes the blocks to it one by one. The
n-th call of the C++ file that one of them makes is at the system time `clock n`.
The text of an error is kept whole; `PyErr_Format` ends the part it takes from C++ at
a NUL. -/
namespace Svfs

/-- `cp_SparseVirtualFile`, once `__init__` has made the C++ file. -/
structure CpSparseVirtualFile where
  pSvf : World
  id_ne_nul : 0 ∉ pSvf.file.id

namespace CpSparseVirtualFile

/-- The object after a call that changes nothing that construction fixed. -/
def after (self : CpSparseVirtualFile) (w : World) (h : Fixed self.pSvf.file w.file) : CpSparseVirtualFile :=
  ⟨w, h.id ▸ self.id_ne_nul⟩

@[simp] theorem after_pSvf (self : CpSparseVirtualFile) (w : World) (h : Fixed self.pSvf.file w.file) :
    (self.after w h).pSvf = w := rfl

/-- `cp_SparseVirtualFile_init`; `none` where it does not get an id. The number and
the two truth values are what the units `d` and `p` make of the arguments. -/
def init (id : PyObject) (modTime : Float := 0) (config : SparseVirtualFileConfig := {}) :
    Option CpSparseVirtualFile :=
  match h : parseString id with
  | none => none
  | some bs => some ⟨World.new bs modTime config, parseString_ne_nul h⟩

/-- `cp_SparseVirtualFile_id`. -/
def id (self : CpSparseVirtualFile) : PyObject := fromOneByteKind self.pSvf.file.id

/-- `cp_SparseVirtualFile_write`, of what the units `K` and `S` make of the arguments. -/
def write (now : Int) (fpos : Nat) (data : List Byte) (self : CpSparseVirtualFile) :
    PyOutcome CpSparseVirtualFile PyObject :=
  if 0 < data.length then
    let o := self.pSvf.write now fpos data
    let self := self.after o.world (World.fixed_write now fpos data self.pSvf)
    let function := "cp_SparseVirtualFile_write"
    match o.result with
    | .ok _ => ⟨.returned .none, self⟩
    | .error (.diff m) =>
      ⟨.raised ⟨.osError, function ++
        ": Can not write to a SVF as the given data is different from what is there. ERROR: " ++ m⟩, self⟩
    | .error e =>
      ⟨.raised ⟨.runtimeError, function ++ ": Can not write to a SVF. ERROR: " ++ e.message⟩, self⟩
  else ⟨.returned .none, self⟩

/-- `private_SparseVirtualFile_svf_read_as_py_bytes`, of a length that a bytes object can have
(`pyBytesMax`) and memory for it: the `RuntimeError` of `PyBytes_FromStringAndSize` is left out. -/
def svfReadAsPyBytes (now : Int) (fpos len : Nat) (self : CpSparseVirtualFile) :
    PyOutcome CpSparseVirtualFile (List Byte) :=
  let o := self.pSvf.read now fpos len
  let self := self.after o.world (World.fixed_read now fpos len self.pSvf)
  let function := "private_SparseVirtualFile_svf_read_as_py_bytes"
  match o.result with
  | .ok data => ⟨.returned data, self⟩
  | .error (.read m) =>
    ⟨.raised ⟨.osError, pyMessage function 462 ("Can not read from a SVF. ERROR: " ++ m)⟩, self⟩
  | .error e =>
    ⟨.raised ⟨.runtimeError, pyMessage function 467
      ("Fatal error reading from a SVF. ERROR: " ++ e.message)⟩, self⟩

/-- `cp_SparseVirtualFile_read`, of what the unit `K` makes of the arguments. -/
def read (now : Int) (fpos len : Nat) (self : CpSparseVirtualFile) : PyOutcome CpSparseVirtualFile PyObject :=
  (self.svfReadAsPyBytes now fpos len).bind fun data self => ⟨.returned (.bytes data), self⟩

/-! ### Pickling -/

def pickleIdKey : String := "id"
def pickleFileModTimeKey : String := "file_mod_time"
def pickleBlocksKey : String := "blocks"
def pickleVersionKey : String := "pickle_version"
def pickleVersion : Int := 1

/-- `(fpos, bytes)`. -/
def blockObject (fpos : Nat) (data : List Byte) : PyObject := .tuple [.int fpos, .bytes data]

/-- The loop of `__getstate__` over the blocks, the first of them read by the `n`-th call. -/
def getstateBlocks (clock : Nat → Int) :
    List SeekRead → Nat → CpSparseVirtualFile → PyOutcome CpSparseVirtualFile (List PyObject)
  | [], _, self => ⟨.returned [], self⟩
  | r :: rest, n, self =>
    let o := self.svfReadAsPyBytes (clock n) r.1 r.2
    match o.result with
    | .returned data =>
      (getstateBlocks clock rest (n + 1) o.self).bind fun items self =>
        ⟨.returned (blockObject r.1 data :: items), self⟩
    | _ =>
      -- The message has lost the percent sign before its line number.
      ⟨.raised ⟨.runtimeError,
        "cp_SparseVirtualFile___getstate__()#d Can not create a bytes object."⟩, o.self⟩

/-- `cp_SparseVirtualFile___getstate__`. -/
def getstate (clock : Nat → Int) (self : CpSparseVirtualFile) : PyOutcome CpSparseVirtualFile PyObject :=
  (getstateBlocks clock self.pSvf.file.blocks 0 self).bind fun items self =>
    ⟨.returned (.dict [
      (pickleIdKey, fromOneByteKind self.pSvf.file.id),
      (pickleFileModTimeKey, .float self.pSvf.file.fileModTime),
      (pickleBlocksKey, .tuple items),
      (pickleVersionKey, .int pickleVersion)]), self⟩

/-- An error of `__setstate__`, raised at this line. -/
def setstateError (kind : PyErrorKind) (line : Nat) (text : String) : PyError :=
  ⟨kind, pyMessage "cp_SparseVirtualFile___setstate__" line text⟩

def noKeyText (key : String) : String := "No \"" ++ key ++ "\" in pickled dict."

/-- What `__setstate__` asks of one item of the blocks tuple. -/
def parseBlock : PyObject → Except PyError (Nat × List Byte)
  | .tuple [fpos, data] =>
    match parseUnsignedLongLong fpos with
    | none => .error (setstateError .valueError 1382 "Can not parse block (fpos, bytes) tuple.")
    | some fpos =>
      match data with
      | .bytes data => .ok (fpos, data)
      | _ => .error (setstateError .typeError 1389
          ("Second item of \"" ++ pickleBlocksKey ++ "\" is not a bytes object."))
  | _ => .error (setstateError .valueError 1382 "Can not parse block (fpos, bytes) tuple.")

/-- The loop of `__setstate__`: play back the blocks, the first of them by the `n`-th
call. Nothing catches what a write throws. -/
def setstateBlocks (clock : Nat → Int) :
    List PyObject → Nat → CpSparseVirtualFile → PyOutcome CpSparseVirtualFile Unit
  | [], _, self => ⟨.returned (), self⟩
  | fposBytes :: rest, n, self =>
    match parseBlock fposBytes with
    | .error e => ⟨.raised e, self⟩
    | .ok (fpos, data) =>
      let o := self.pSvf.write (clock n) fpos data
      let self := self.after o.world (World.fixed_write (clock n) fpos data self.pSvf)
      match o.result with
      | .error e => ⟨.terminated e, self⟩
      | .ok _ => setstateBlocks clock rest (n + 1) self

/-- `__setstate__` once the new file is made. -/
def setstateReplay (clock : Nat → Int) (state : List (String × PyObject)) (self : CpSparseVirtualFile) :
    PyOutcome (Option CpSparseVirtualFile) PyObject :=
  match PyObject.getItemString state pickleBlocksKey with
  | none => ⟨.raised (setstateError .keyError 1367 (noKeyText pickleBlocksKey)), some self⟩
  | some (.tuple blocks) =>
    let o := setstateBlocks clock blocks 0 self
    match o.result with
    | .returned _ => ⟨.returned .none, some o.self⟩
    | .raised e => ⟨.raised e, some o.self⟩
    | .terminated e => ⟨.terminated e, some o.self⟩
  | some _ =>
    ⟨.raised (setstateError .typeError 1371 ("\"" ++ pickleBlocksKey ++ "\" is not a tuple.")), some self⟩

/-- `cp_SparseVirtualFile___setstate__`, on an object that may have no C++ file yet. -/
def setstate (clock : Nat → Int) (state : PyObject) (self : Option CpSparseVirtualFile) :
    PyOutcome (Option CpSparseVirtualFile) PyObject :=
  match state with
  | .dict state =>
    match PyObject.getItemString state pickleVersionKey with
    | none => ⟨.raised (setstateError .keyError 1308 (noKeyText pickleVersionKey)), self⟩
    | some temp =>
      let version := castInt (pyLongAsLong temp)
      if version ≠ pickleVersion then
        -- The two numbers printed are the line and the version found.
        ⟨.raised ⟨.valueError, "cp_SparseVirtualFile___setstate__()#d Pickle version mismatch. Got version " ++
          toString 1314 ++ " but expected version " ++ toString version ++ "."⟩, self⟩
      else
        match PyObject.getItemString state pickleIdKey with
        | none => ⟨.raised (setstateError .keyError 1320 (noKeyText pickleIdKey)), self⟩
        | some (.str id) =>
          match PyObject.getItemString state pickleFileModTimeKey with
          | none => ⟨.raised (setstateError .keyError 1332 (noKeyText pickleFileModTimeKey)), self⟩
          | some (.float fileModTime) =>
            match init (.str id) fileModTime with
            | none => ⟨.raised (setstateError .runtimeError 1354 "Can not create new SVF object."), none⟩
            | some self => setstateReplay clock state self
          | some _ =>
            ⟨.raised (setstateError .typeError 1338
              ("\"" ++ pickleFileModTimeKey ++ "\" is not a double.")), self⟩
        | some _ =>
          ⟨.raised (setstateError .typeError 1324 ("\"" ++ pickleIdKey ++ "\" is not string.")), self⟩
  | _ => ⟨.raised (setstateError .valueError 1300 "Pickled object is not a dict."), self⟩

section Init
variable {o : PyObject} {cId : List Byte} {modTime : Float} {config : SparseVirtualFileConfig}

/-- A `cSVF` is made of an id that the unit `s` takes, -/
theorem init_eq (h : parseString o = some cId) (modTime : Float) (config : SparseVirtualFileConfig) :
    ∃ object, init o modTime config = some object ∧ object.pSvf = World.new cId modTime config := by
  unfold init
  split
  · rename_i hnone
    rw [h] at hnone
    cases hnone
  · rename_i bs hsome
    obtain rfl := Option.some.inj (h.symm.trans hsome)
    exact ⟨_, rfl, rfl⟩

/-- of no other, -/
theorem init_eq_none (h : parseString o = none) : init o modTime config = none := by
  unfold init
  split
  · rfl
  · rename_i bs hsome
    rw [h] at hsome
    cases hsome

/-- and its file is new. -/
theorem pSvf_of_init {object : CpSparseVirtualFile} (h : init o modTime config = some object) :
    ∃ cId, parseString o = some cId ∧ object.pSvf = World.new cId modTime config := by
  cases hparse : parseString o with
  | none =>
    rw [init_eq_none hparse] at h
    cases h
  | some cId =>
    obtain ⟨object', hinit, hnew⟩ := init_eq hparse modTime config
    obtain rfl := Option.some.inj (h.symm.trans hinit)
    exact ⟨cId, rfl, hnew⟩

end Init

end CpSparseVirtualFile
end Svfs
