import Svfs.File.Query
import Svfs.File.SizeOf
import Svfs.Python.SparseVirtualFile
import Svfs.Python.SparseVirtualFileSystem

/-! The other methods of `cSVF`.

Their arguments are what the unit `K` makes of them, except for the list that `need_many`
takes, which it looks through itself. A truth value is returned as it is, and so are the pairs
that `Py_BuildValue` makes with the unit `K`; a list and a tuple of them are not told apart. A
time is returned as the time point that the `datetime` is made of. -/
namespace Svfs

/-- `PyLong_FromLong` of a `size_t`, which is made a `long` first. -/
def pyLongFromLong (n : Nat) : Int := if n < 2 ^ 63 then n else n - 2 ^ 64

/-- The unit `K` takes back what `PyLong_FromLong` made negative. -/
theorem parseUnsignedLongLong_fromLong {n : Nat} (h : n < 2 ^ 64) :
    parseUnsignedLongLong (.int (pyLongFromLong n)) = some n := by
  have hmod : (pyLongFromLong n % 2 ^ 64).toNat = n := by
    unfold pyLongFromLong
    split <;> omega
  simp only [parseUnsignedLongLong, hmod]

/-! ### The argument of need_many -/

/-- An argument where a list is asked for. -/
inductive PyListArgument where
  | list (items : List PyObject)
  | other (o : PyObject)

/-- An error of `cp_SparseVirtualFile_need_many_internal`. -/
def needManyError (text : String) : PyError :=
  ⟨.typeError, "cp_SparseVirtualFile_need_many_internal: " ++ text⟩

/-- The loop that checks the items, from the `i`-th on. -/
def checkSeekReads : Nat → List PyObject → Except PyError Unit
  | _, [] => .ok ()
  | i, .tuple items :: rest =>
    if items.length ≠ 2 then
      .error (needManyError ("seek_reads[" ++ toString i ++ "] length " ++ toString items.length ++
        " is not a tuple of length 2."))
    else checkSeekReads (i + 1) rest
  | i, _ :: _ => .error (needManyError ("seek_reads[" ++ toString i ++ "] is not a tuple."))

/-- `PyArg_ParseTuple` with the format `KK`. -/
def parseSeekRead : PyObject → Option SeekRead
  | .tuple [fpos, length] =>
    match parseUnsignedLongLong fpos, parseUnsignedLongLong length with
    | some fpos, some length => some (fpos, length)
    | _, _ => none
  | _ => none

/-- The loop that parses the items, from the `i`-th on. -/
def parseSeekReads : Nat → List PyObject → Except PyError (List SeekRead)
  | _, [] => .ok []
  | i, pyFposLen :: rest =>
    match parseSeekRead pyFposLen with
    | none => .error (needManyError ("can not parse list element[" ++ toString i ++ "]."))
    | some r =>
      match parseSeekReads (i + 1) rest with
      | .ok rs => .ok (r :: rs)
      | .error e => .error e

/-- `cp_SparseVirtualFile_need_many_internal`. -/
def needManyInternal (pySeekReads : PyListArgument) (svf : SparseVirtualFile) (greedyLen : Nat) :
    PyResult (List SeekRead) :=
  match pySeekReads with
  | .other _ => .raised (needManyError "seek_reads is not a list.")
  | .list items =>
    match checkSeekReads 0 items with
    | .error e => .raised e
    | .ok _ =>
      match parseSeekReads 0 items with
      | .error e => .raised e
      | .ok seekReads => .returned (svf.needMany seekReads greedyLen)

/-- `file_mod_time_matches`. -/
def SparseVirtualFile.fileModTimeMatches (fileModTime : Float) (s : SparseVirtualFile) : Bool :=
  fileModTime == s.fileModTime

/-- `time_write` and `time_read` as a time point: none before the first call is counted. -/
def timeMethod (count : SparseVirtualFile → Nat) (time : SparseVirtualFile → Int) (s : SparseVirtualFile) :
    Option Int :=
  if count s ≠ 0 then some (time s) else none

namespace CpSparseVirtualFile

/-- `cp_SparseVirtualFile_has_data`. -/
def hasData (fpos len : Nat) (self : CpSparseVirtualFile) : Bool := self.pSvf.file.has fpos len

/-- `cp_SparseVirtualFile_need`. -/
def need (fpos len greedyLen : Nat) (self : CpSparseVirtualFile) : List SeekRead :=
  self.pSvf.file.need fpos len greedyLen

/-- `cp_SparseVirtualFile_need_many`. -/
def needMany (seekReads : PyListArgument) (greedyLen : Nat) (self : CpSparseVirtualFile) :
    PyResult (List SeekRead) :=
  needManyInternal seekReads self.pSvf.file greedyLen

/-- `cp_SparseVirtualFile_blocks`. -/
def blocks (self : CpSparseVirtualFile) : List SeekRead := self.pSvf.file.blocks

/-- `cp_SparseVirtualFile_block_touches`: the items of the dictionary. -/
def blockTouches (self : CpSparseVirtualFile) : List (Int × Int) :=
  self.pSvf.file.blockTouches.entries.map fun iter => (pyLongFromLong iter.1, pyLongFromLong iter.2)

/-- `cp_SparseVirtualFile_erase`. -/
def erase (fpos : Nat) (self : CpSparseVirtualFile) : PyOutcome CpSparseVirtualFile PyObject :=
  let o := self.pSvf.erase fpos
  let self := self.after o.world (World.fixed_erase fpos self.pSvf)
  let function := "cp_SparseVirtualFile_erase"
  match o.result with
  | .ok _ => ⟨.returned .none, self⟩
  | .error (.erase m) =>
    ⟨.raised ⟨.osError, function ++ "(): Can not erase from a SVF. ERROR: " ++ m⟩, self⟩
  | .error e =>
    ⟨.raised ⟨.runtimeError, function ++ "(): Fatal error reading from a SVF. ERROR: " ++ e.message⟩, self⟩

/-- `cp_SparseVirtualFile_clear`. -/
def clear (self : CpSparseVirtualFile) : PyOutcome CpSparseVirtualFile PyObject :=
  ⟨.returned .none, self.after self.pSvf.clear (step_fixed .clear self.pSvf)⟩

/-- `cp_SparseVirtualFile_lru_punt`. -/
def lruPunt (cacheSizeUpperBound : Nat) (self : CpSparseVirtualFile) : PyOutcome CpSparseVirtualFile PyObject :=
  let o := self.pSvf.lruPunt cacheSizeUpperBound
  let self := self.after o.world (World.fixed_lruPunt cacheSizeUpperBound self.pSvf)
  match o.result with
  | .ok n => ⟨.returned (.int n), self⟩
  | .error _ => ⟨.raised (fatalError "cp_SparseVirtualFile_lru_punt"), self⟩

/-- `SVFS_SVF_METHOD_SIZE_T_WRAPPER`. -/
def sizeMethod (method : SparseVirtualFile → Nat) (self : CpSparseVirtualFile) : Int :=
  pyLongFromLong (method self.pSvf.file)

def sizeOf (sizes : Sizes) : CpSparseVirtualFile → Int := sizeMethod (SparseVirtualFile.sizeOf sizes)
def numBytes : CpSparseVirtualFile → Int := sizeMethod SparseVirtualFile.numBytes
def numBlocks : CpSparseVirtualFile → Int := sizeMethod SparseVirtualFile.numBlocks
def lastFilePosition : CpSparseVirtualFile → Int := sizeMethod SparseVirtualFile.lastFilePosition
def blockTouch : CpSparseVirtualFile → Int := sizeMethod SparseVirtualFile.blockTouch
def countWrite : CpSparseVirtualFile → Int := sizeMethod SparseVirtualFile.countWrite
def countRead : CpSparseVirtualFile → Int := sizeMethod SparseVirtualFile.countRead
def bytesWrite : CpSparseVirtualFile → Int := sizeMethod SparseVirtualFile.bytesWrite
def bytesRead : CpSparseVirtualFile → Int := sizeMethod SparseVirtualFile.bytesRead
def blocksErased : CpSparseVirtualFile → Int := sizeMethod SparseVirtualFile.blocksErased
def bytesErased : CpSparseVirtualFile → Int := sizeMethod SparseVirtualFile.bytesErased
def blocksPunted : CpSparseVirtualFile → Int := sizeMethod SparseVirtualFile.blocksPunted
def bytesPunted : CpSparseVirtualFile → Int := sizeMethod SparseVirtualFile.bytesPunted

/-- `cp_SparseVirtualFile_file_mod_time_matches`. -/
def fileModTimeMatches (fileModTime : Float) (self : CpSparseVirtualFile) : Bool :=
  self.pSvf.file.fileModTimeMatches fileModTime

/-- `cp_SparseVirtualFile_file_mod_time`. -/
def fileModTime (self : CpSparseVirtualFile) : PyObject := .float self.pSvf.file.fileModTime

/-- `cp_SparseVirtualFile_time_write`. -/
def timeWrite (self : CpSparseVirtualFile) : Option Int :=
  timeMethod SparseVirtualFile.countWrite SparseVirtualFile.timeWrite self.pSvf.file

/-- `cp_SparseVirtualFile_time_read`. -/
def timeRead (self : CpSparseVirtualFile) : Option Int :=
  timeMethod SparseVirtualFile.countRead SparseVirtualFile.timeRead self.pSvf.file

end CpSparseVirtualFile
end Svfs
