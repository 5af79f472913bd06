import Svfs.Python.Methods
import Svfs.System.Command

/-! The methods of `cSVFS` about one file, and those about all.

A method about one file takes its id with the unit `s`, finds the file, and goes on as the
method of `cSVF` does, with texts of its own for the errors (`onFile`). -/
namespace Svfs

/-- `cp_SparseVirtualFileSystem_svf_blocks` and `cp_SparseVirtualFileSystem_file_mod_time` do not put
the id in quotes, -/
def bareNoSvfIdError (function : String) (id : Id) : PyError :=
  ⟨.indexError, function ++ ": No SVF ID " ++ idText id⟩

/-- and `cp_SparseVirtualFileSystem_svf_time_read` has a text of its own. -/
def noSparseVirtualFileIdError (function : String) (id : Id) : PyError :=
  ⟨.indexError, function ++ ": No Sparse Virtual File ID \"" ++ idText id ++ "\""⟩

namespace CpSparseVirtualFileSystem

/-- What every method about one file does: parse the id, look for it, and go on with the file. -/
def onFile {α : Type} (function : String) (noId : String → Id → PyError) (id : PyObject)
    (method : Id → World → PyOutcome World α) (self : CpSparseVirtualFileSystem) :
    PyOutcome CpSparseVirtualFileSystem α :=
  match parseString id with
  | none => ⟨.raised (stringArgumentError id), self⟩
  | some cId =>
    if self.pSvfs.has cId then
      match self.pSvfs.at? cId with
      | .error _ => ⟨.raised (fatalError function), self⟩ -- not reached: the id is there
      | .ok svf =>
        let o := method cId svf
        ⟨o.result, ⟨self.pSvfs.set cId o.self⟩⟩
    else ⟨.raised (noId function cId), self⟩

/-- A method that asks the file something. -/
def askFile {α : Type} (function : String) (noId : String → Id → PyError) (id : PyObject)
    (ask : SparseVirtualFile → PyResult α) : CpSparseVirtualFileSystem → PyOutcome CpSparseVirtualFileSystem α :=
  onFile function noId id fun _ svf => ⟨ask svf.file, svf⟩

/-- `cp_SparseVirtualFileSystem_svf_has_data`. -/
def svfHasData (id : PyObject) (fpos len : Nat) :
    CpSparseVirtualFileSystem → PyOutcome CpSparseVirtualFileSystem Bool :=
  askFile "cp_SparseVirtualFileSystem_svf_has_data" noSvfIdError id fun svf => .returned (svf.has fpos len)

/-- `cp_SparseVirtualFileSystem_svf_read`. -/
def svfRead (now : Int) (id : PyObject) (fpos len : Nat) :
    CpSparseVirtualFileSystem → PyOutcome CpSparseVirtualFileSystem PyObject :=
  let function := "cp_SparseVirtualFileSystem_svf_read"
  onFile function noSvfIdError id fun cId svf =>
    let o := svf.read now fpos len
    match o.result with
    | .ok data => ⟨.returned (.bytes data), o.world⟩
    | .error (.read m) =>
      ⟨.raised ⟨.osError, function ++ ": Can not read from a SVF id= \"" ++ idText cId ++ "\". ERROR: " ++ m⟩,
        o.world⟩
    | .error e =>
      ⟨.raised ⟨.runtimeError, function ++ ": Fatal error reading from a SVF id= \"" ++ idText cId ++
        "\". ERROR: " ++ e.message⟩, o.world⟩

/-- `cp_SparseVirtualFileSystem_svf_erase`. -/
def svfErase (id : PyObject) (fpos : Nat) :
    CpSparseVirtualFileSystem → PyOutcome CpSparseVirtualFileSystem PyObject :=
  let function := "cp_SparseVirtualFileSystem_svf_erase"
  onFile function noSvfIdError id fun cId svf =>
    let o := svf.erase fpos
    match o.result with
    | .ok _ => ⟨.returned .none, o.world⟩
    | .error (.erase m) =>
      ⟨.raised ⟨.osError, function ++ ": Can not erase block from a SVF id= \"" ++ idText cId ++ "\". ERROR: " ++
        m⟩, o.world⟩
    | .error e =>
      ⟨.raised ⟨.runtimeError, function ++ ": Fatal error erasing from a SVF id= \"" ++ idText cId ++
        "\". ERROR: " ++ e.message⟩, o.world⟩

/-- `cp_SparseVirtualFileSystem_svf_need`. -/
def svfNeed (id : PyObject) (fpos len greedyLen : Nat) :
    CpSparseVirtualFileSystem → PyOutcome CpSparseVirtualFileSystem (List SeekRead) :=
  askFile "cp_SparseVirtualFileSystem_svf_need" noSvfIdError id fun svf => .returned (svf.need fpos len greedyLen)

/-- `cp_SparseVirtualFileSystem_svf_need_many`. -/
def svfNeedMany (id : PyObject) (seekReads : PyListArgument) (greedyLen : Nat) :
    CpSparseVirtualFileSystem → PyOutcome CpSparseVirtualFileSystem (List SeekRead) :=
  askFile "cp_SparseVirtualFileSystem_svf_need_many" noSvfIdError id fun svf =>
    needManyInternal seekReads svf greedyLen

/-- `cp_SparseVirtualFileSystem_svf_blocks`. -/
def svfBlocks (id : PyObject) :
    CpSparseVirtualFileSystem → PyOutcome CpSparseVirtualFileSystem (List SeekRead) :=
  askFile "cp_SparseVirtualFileSystem_svf_blocks" bareNoSvfIdError id fun svf => .returned svf.blocks

/-- `cp_SparseVirtualFileSystem_svf_block_touches`: the items of the dictionary. -/
def svfBlockTouches (id : PyObject) :
    CpSparseVirtualFileSystem → PyOutcome CpSparseVirtualFileSystem (List (Int × Int)) :=
  askFile "cp_SparseVirtualFileSystem_svf_block_touches" noSvfIdError id fun svf =>
    .returned (svf.blockTouches.entries.map fun iter => (pyLongFromLong iter.1, pyLongFromLong iter.2))

/-- `cp_SparseVirtualFileSystem_svf_lru_punt`. -/
def svfLruPunt (id : PyObject) (cacheSizeUpperBound : Nat) :
    CpSparseVirtualFileSystem → PyOutcome CpSparseVirtualFileSystem PyObject :=
  let function := "cp_SparseVirtualFileSystem_svf_lru_punt"
  onFile function noSvfIdError id fun _ svf =>
    let o := svf.lruPunt cacheSizeUpperBound
    match o.result with
    | .ok n => ⟨.returned (.int n), o.world⟩
    | .error _ => ⟨.raised (fatalError function), o.world⟩

/-- `cp_SparseVirtualFileSystem_svf_file_mod_time_matches`. -/
def svfFileModTimeMatches (id : PyObject) (fileModTime : Float) :
    CpSparseVirtualFileSystem → PyOutcome CpSparseVirtualFileSystem Bool :=
  askFile "cp_SparseVirtualFileSystem_svf_file_mod_time_matches" noSvfIdError id fun svf =>
    .returned (svf.fileModTimeMatches fileModTime)

/-- `cp_SparseVirtualFileSystem_file_mod_time`. -/
def fileModTime (id : PyObject) : CpSparseVirtualFileSystem → PyOutcome CpSparseVirtualFileSystem PyObject :=
  askFile "cp_SparseVirtualFileSystem_file_mod_time" bareNoSvfIdError id fun svf =>
    .returned (.float svf.fileModTime)

/-- `SVFS_SVFS_METHOD_SIZE_T_WRAPPER`. -/
def svfSizeMethod (methodName : String) (method : SparseVirtualFile → Nat) (id : PyObject) :
    CpSparseVirtualFileSystem → PyOutcome CpSparseVirtualFileSystem Int :=
  askFile ("cp_SparseVirtualFileSystem_svf_" ++ methodName) noSvfIdError id fun svf =>
    .returned (pyLongFromLong (method svf))

def svfSizeOf (sizes : Sizes) := svfSizeMethod "size_of" (SparseVirtualFile.sizeOf sizes)
def svfNumBytes := svfSizeMethod "num_bytes" SparseVirtualFile.numBytes
def svfNumBlocks := svfSizeMethod "num_blocks" SparseVirtualFile.numBlocks
def svfCountWrite := svfSizeMethod "count_write" SparseVirtualFile.countWrite
def svfCountRead := svfSizeMethod "count_read" SparseVirtualFile.countRead
def svfBytesWrite := svfSizeMethod "bytes_write" SparseVirtualFile.bytesWrite
def svfBytesRead := svfSizeMethod "bytes_read" SparseVirtualFile.bytesRead

/-- `cp_SparseVirtualFileSystem_svf_time_write`. -/
def svfTimeWrite (id : PyObject) : CpSparseVirtualFileSystem → PyOutcome CpSparseVirtualFileSystem (Option Int) :=
  askFile "cp_SparseVirtualFileSystem_svf_time_write" noSvfIdError id fun svf =>
    .returned (timeMethod SparseVirtualFile.countWrite SparseVirtualFile.timeWrite svf)

/-- `cp_SparseVirtualFileSystem_svf_time_read`. -/
def svfTimeRead (id : PyObject) : CpSparseVirtualFileSystem → PyOutcome CpSparseVirtualFileSystem (Option Int) :=
  askFile "cp_SparseVirtualFileSystem_svf_time_read" noSparseVirtualFileIdError id fun svf =>
    .returned (timeMethod SparseVirtualFile.countRead SparseVirtualFile.timeRead svf)

/-! ### All files -/

/-- `cp_SparseVirtualFileSystem_mapping_length`. -/
def mappingLength (self : CpSparseVirtualFileSystem) : Int := self.pSvfs.size

/-- `cp_SparseVirtualFileSystem_total_size_of`. -/
def totalSizeOf (sizes : Sizes) (self : CpSparseVirtualFileSystem) : Int :=
  pyLongFromLong (self.pSvfs.sizeOf sizes)

/-- `cp_SparseVirtualFileSystem_total_bytes`. -/
def totalBytes (self : CpSparseVirtualFileSystem) : Int := pyLongFromLong self.pSvfs.numBytes

/-- `cp_SparseVirtualFileSystem_total_blocks`. -/
def totalBlocks (self : CpSparseVirtualFileSystem) : Int := pyLongFromLong self.pSvfs.numBlocks

end CpSparseVirtualFileSystem
end Svfs
