import Svfs.Python.Object
import Svfs.System.SparseVirtualFileSystem

/-! The Python class `cSVFS`.

Every method that is about one file finds it by its id, which it takes with the format unit
`s`. The texts of the errors are the C strings handed to `PyErr_Format`, one character for
each byte; what CPython says of an argument it refuses is left out. -/
namespace Svfs

/-- `cp_SparseVirtualFileSystem`. -/
structure CpSparseVirtualFileSystem where
  pSvfs : SparseVirtualFileSystem

/-- The error for an argument that the unit `s` refuses. -/
def stringArgumentError : PyObject → PyError
  | .str _ => ⟨.valueError, ""⟩
  | _ => ⟨.typeError, ""⟩

/-- The error for an exception with no handler of its own. None of those of the library
overrides `what()`. -/
def fatalError (function : String) : PyError :=
  ⟨.runtimeError, function ++ ": FATAL caught std::exception std::exception"⟩

def noSvfIdError (function : String) (id : Id) : PyError :=
  ⟨.indexError, function ++ ": No SVF ID \"" ++ idText id ++ "\""⟩

namespace CpSparseVirtualFileSystem

/-- `cp_SparseVirtualFileSystem_init`. -/
def init (config : SparseVirtualFileConfig := {}) : CpSparseVirtualFileSystem := ⟨.new config⟩

/-- `cp_SparseVirtualFileSystem_keys`, of what the C++ `keys` returned. -/
def keys (keys : List Id) : List PyObject := keys.map fromOneByteKind

/-- `cp_SparseVirtualFileSystem_insert`. -/
def insert (id : PyObject) (modTime : Float) (self : CpSparseVirtualFileSystem) :
    PyOutcome CpSparseVirtualFileSystem PyObject :=
  let function := "cp_SparseVirtualFileSystem_insert"
  match parseString id with
  | none => ⟨.raised (stringArgumentError id), self⟩
  | some cId =>
    match self.pSvfs.insert cId modTime with
    | .ok pSvfs => ⟨.returned .none, ⟨pSvfs⟩⟩
    | .error (.insert m) =>
      ⟨.raised ⟨.runtimeError, function ++ ": Can not insert a new Sparse Virtual File ID = \"" ++ idText cId ++
        "\". ERROR: " ++ m⟩, self⟩
    | .error _ => ⟨.raised (fatalError function), self⟩

/-- `cp_SparseVirtualFileSystem_remove`. -/
def remove (id : PyObject) (self : CpSparseVirtualFileSystem) :
    PyOutcome CpSparseVirtualFileSystem PyObject :=
  let function := "cp_SparseVirtualFileSystem_remove"
  match parseString id with
  | none => ⟨.raised (stringArgumentError id), self⟩
  | some cId =>
    match self.pSvfs.remove cId with
    | .ok pSvfs => ⟨.returned .none, ⟨pSvfs⟩⟩
    | .error (.remove m) =>
      ⟨.raised ⟨.indexError, function ++ ": Can not remove a Sparse Virtual File. ERROR: " ++ m⟩, self⟩
    | .error _ => ⟨.raised (fatalError function), self⟩

/-- `cp_SparseVirtualFileSystem_has`. -/
def has (id : PyObject) (self : CpSparseVirtualFileSystem) : PyOutcome CpSparseVirtualFileSystem Bool :=
  match parseString id with
  | none => ⟨.raised (stringArgumentError id), self⟩
  | some cId => ⟨.returned (self.pSvfs.has cId), self⟩

/-- `cp_SparseVirtualFileSystem_svf_write`, of what the units `K` and `S` make of the
position and the data. -/
def svfWrite (now : Int) (id : PyObject) (fpos : Nat) (data : List Byte) (self : CpSparseVirtualFileSystem) :
    PyOutcome CpSparseVirtualFileSystem PyObject :=
  let function := "cp_SparseVirtualFileSystem_svf_write"
  match parseString id with
  | none => ⟨.raised (stringArgumentError id), self⟩
  | some cId =>
    if self.pSvfs.has cId then
      match self.pSvfs.at? cId with
      | .error _ => ⟨.raised (fatalError function), self⟩ -- not reached: the id is there
      | .ok svf =>
        let o := svf.write now fpos data
        let self : CpSparseVirtualFileSystem := ⟨self.pSvfs.set cId o.world⟩
        match o.result with
        | .ok _ => ⟨.returned .none, self⟩
        | .error (.diff m) =>
          ⟨.raised ⟨.osError, function ++ ": Can not write to a SVF id = \"" ++ idText cId ++
            "\" as the given data is different from what is there. ERROR: " ++ m⟩, self⟩
        | .error e =>
          ⟨.raised ⟨.runtimeError, function ++ ": Can not write to a SVF id = \"" ++ idText cId ++
            "\". ERROR: " ++ e.message⟩, self⟩
    else ⟨.raised (noSvfIdError function cId), self⟩

/-- The loop of `cp_SparseVirtualFileSystem_svf_lru_punt_all` over the keys. -/
def svfLruPuntAllLoop (cacheSizeUpperBound : Nat) :
    List Id → Nat → CpSparseVirtualFileSystem → PyOutcome CpSparseVirtualFileSystem Nat
  | [], totalRemoved, self => ⟨.returned totalRemoved, self⟩
  | iter :: rest, totalRemoved, self =>
    let function := "cp_SparseVirtualFileSystem_svf_lru_punt_all"
    match self.pSvfs.at? iter with
    | .error _ => ⟨.raised (fatalError function), self⟩ -- not reached: the key is there
    | .ok svf =>
      let o := svf.lruPunt cacheSizeUpperBound
      let self : CpSparseVirtualFileSystem := ⟨self.pSvfs.set iter o.world⟩
      match o.result with
      | .error _ => ⟨.raised (fatalError function), self⟩
      | .ok n => svfLruPuntAllLoop cacheSizeUpperBound rest (sizeAdd totalRemoved n) self

/-- `cp_SparseVirtualFileSystem_svf_lru_punt_all`, with what the unit `K` makes of the bound
and what the C++ `keys` returned. -/
def svfLruPuntAll (cacheSizeUpperBound : Nat) (keys : List Id) (self : CpSparseVirtualFileSystem) :
    PyOutcome CpSparseVirtualFileSystem PyObject :=
  (svfLruPuntAllLoop cacheSizeUpperBound keys 0 self).bind fun totalRemoved self =>
    ⟨.returned (.int totalRemoved), self⟩

end CpSparseVirtualFileSystem
end Svfs
