import Svfs.Python.FileMethods
import Svfs.System.PuntAll

/-! A dictionary of `cSVF` objects.

A client could do without `cSVFS`, and keep `cSVF` objects of its own in a dictionary under
their ids. `Dictionary.call` is what it would do for each method, `Stores` a dictionary and a
system side by side. -/
namespace Svfs

/-! ### Methods -/

/-- A method about one file, with its arguments. -/
inductive FileMethod where
  | hasData (fpos len : Nat)
  | write (now : Int) (fpos : Nat) (data : List Byte)
  | read (now : Int) (fpos len : Nat)
  | erase (fpos : Nat)
  | need (fpos len greedyLen : Nat)
  | needMany (seekReads : PyListArgument) (greedyLen : Nat)
  | blocks
  | sizeOf
  | numBytes
  | numBlocks
  | blockTouches
  | lruPunt (cacheSizeUpperBound : Nat)
  | fileModTimeMatches (fileModTime : Float)
  | fileModTime
  | countWrite
  | countRead
  | bytesWrite
  | bytesRead
  | timeWrite
  | timeRead

/-- What a method returns. -/
inductive PyValue where
  | object (o : PyObject)
  | bool (b : Bool)
  | int (n : Int)
  | pairs (seekReads : List SeekRead)
  | items (l : List (Int × Int))
  | time (t : Option Int)

namespace PyResult
variable {α β : Type}

def map (f : α → β) : PyResult α → PyResult β
  | .returned a => .returned (f a)
  | .raised e => .raised e
  | .terminated e => .terminated e

/-- Both returned the same, or both raised an error of the same kind. -/
inductive Alike : PyResult α → PyResult α → Prop where
  | returned (a : α) : Alike (.returned a) (.returned a)
  | raised {e e' : PyError} (h : e.kind = e'.kind) : Alike (.raised e) (.raised e')

theorem Alike.map (f : α → β) {r r' : PyResult α} (h : Alike r r') : Alike (r.map f) (r'.map f) := by
  cases h with
  | returned a => exact .returned _
  | raised h => exact .raised h

end PyResult

def PyOutcome.map {σ α β : Type} (f : α → β) (o : PyOutcome σ α) : PyOutcome σ β := ⟨o.result.map f, o.self⟩

/-- A method of `cSVF`. -/
def CpSparseVirtualFile.call (sizes : Sizes) (m : FileMethod) (self : CpSparseVirtualFile) :
    PyOutcome CpSparseVirtualFile PyValue :=
  match m with
  | .hasData fpos len => ⟨.returned (.bool (self.hasData fpos len)), self⟩
  | .write now fpos data => (self.write now fpos data).map .object
  | .read now fpos len => (self.read now fpos len).map .object
  | .erase fpos => (self.erase fpos).map .object
  | .need fpos len greedyLen => ⟨.returned (.pairs (self.need fpos len greedyLen)), self⟩
  | .needMany seekReads greedyLen => ⟨(self.needMany seekReads greedyLen).map .pairs, self⟩
  | .blocks => ⟨.returned (.pairs self.blocks), self⟩
  | .sizeOf => ⟨.returned (.int (self.sizeOf sizes)), self⟩
  | .numBytes => ⟨.returned (.int self.numBytes), self⟩
  | .numBlocks => ⟨.returned (.int self.numBlocks), self⟩
  | .blockTouches => ⟨.returned (.items self.blockTouches), self⟩
  | .lruPunt bound => (self.lruPunt bound).map .object
  | .fileModTimeMatches t => ⟨.returned (.bool (self.fileModTimeMatches t)), self⟩
  | .fileModTime => ⟨.returned (.object self.fileModTime), self⟩
  | .countWrite => ⟨.returned (.int self.countWrite), self⟩
  | .countRead => ⟨.returned (.int self.countRead), self⟩
  | .bytesWrite => ⟨.returned (.int self.bytesWrite), self⟩
  | .bytesRead => ⟨.returned (.int self.bytesRead), self⟩
  | .timeWrite => ⟨.returned (.time self.timeWrite), self⟩
  | .timeRead => ⟨.returned (.time self.timeRead), self⟩

/-- The method of `cSVFS` of the same name. -/
def CpSparseVirtualFileSystem.callFile (sizes : Sizes) (m : FileMethod) (id : PyObject)
    (self : CpSparseVirtualFileSystem) : PyOutcome CpSparseVirtualFileSystem PyValue :=
  match m with
  | .hasData fpos len => (self.svfHasData id fpos len).map .bool
  | .write now fpos data => (self.svfWrite now id fpos data).map .object
  | .read now fpos len => (self.svfRead now id fpos len).map .object
  | .erase fpos => (self.svfErase id fpos).map .object
  | .need fpos len greedyLen => (self.svfNeed id fpos len greedyLen).map .pairs
  | .needMany seekReads greedyLen => (self.svfNeedMany id seekReads greedyLen).map .pairs
  | .blocks => (self.svfBlocks id).map .pairs
  | .sizeOf => (svfSizeOf sizes id self).map .int
  | .numBytes => (svfNumBytes id self).map .int
  | .numBlocks => (svfNumBlocks id self).map .int
  | .blockTouches => (self.svfBlockTouches id).map .items
  | .lruPunt bound => (self.svfLruPunt id bound).map .object
  | .fileModTimeMatches t => (self.svfFileModTimeMatches id t).map .bool
  | .fileModTime => (self.fileModTime id).map .object
  | .countWrite => (svfCountWrite id self).map .int
  | .countRead => (svfCountRead id self).map .int
  | .bytesWrite => (svfBytesWrite id self).map .int
  | .bytesRead => (svfBytesRead id self).map .int
  | .timeWrite => (self.svfTimeWrite id).map .time
  | .timeRead => (self.svfTimeRead id).map .time

/-- A method of `cSVFS`, with its arguments. `keys` is what the C++ `keys` returned. -/
inductive SystemMethod where
  | insert (id : PyObject) (modTime : Float)
  | remove (id : PyObject)
  | has (id : PyObject)
  | file (id : PyObject) (m : FileMethod)
  | lruPuntAll (cacheSizeUpperBound : Nat) (keys : List Id)

def CpSparseVirtualFileSystem.call (sizes : Sizes) (m : SystemMethod) (self : CpSparseVirtualFileSystem) :
    PyOutcome CpSparseVirtualFileSystem PyValue :=
  match m with
  | .insert id modTime => (self.insert id modTime).map .object
  | .remove id => (self.remove id).map .object
  | .has id => (self.has id).map .bool
  | .file id m => self.callFile sizes m id
  | .lruPuntAll bound keys => (self.svfLruPuntAll bound keys).map .object

/-! ### What is given -/

/-- A method that the file answers for: a position is one that the unit `K` makes, a read is of no
more than an object of bytes holds, and neither looks outside a buffer. -/
def FileMethod.Given (m : FileMethod) (svf : World) : Prop :=
  match m with
  | .write now fpos data => fpos < 2 ^ 64 ∧ (Command.write now fpos data).InBuffers svf
  | .read now fpos len => len ≤ pyBytesMax ∧ (Command.read now fpos len).InBuffers svf
  | _ => True

instance : (m : FileMethod) → (svf : World) → Decidable (m.Given svf)
  | .write _ fpos _, svf => inferInstanceAs (Decidable (fpos < 2 ^ 64 ∧ Command.InBuffers _ svf))
  | .read _ _ len, svf => inferInstanceAs (Decidable (len ≤ pyBytesMax ∧ Command.InBuffers _ svf))
  | .hasData _ _, _ | .erase _, _ | .need _ _ _, _ | .needMany _ _, _ | .blocks, _ | .sizeOf, _ | .numBytes, _
  | .numBlocks, _ | .blockTouches, _ | .lruPunt _, _ | .fileModTimeMatches _, _ | .fileModTime, _ | .countWrite, _
  | .countRead, _ | .bytesWrite, _ | .bytesRead, _ | .timeWrite, _ | .timeRead, _ => isTrue trivial

/-! ### The dictionary -/

/-- A client's dictionary of `cSVF` objects of one configuration. -/
structure Dictionary where
  files : Id → Option CpSparseVirtualFile
  config : SparseVirtualFileConfig

namespace Dictionary

def new (config : SparseVirtualFileConfig) : Dictionary := ⟨fun _ => none, config⟩

/-- Look an object up and go on with it. -/
def withFile (id : PyObject) (f : CpSparseVirtualFile → PyOutcome CpSparseVirtualFile PyValue) (d : Dictionary) :
    PyOutcome Dictionary PyValue :=
  match parseString id with
  | none => ⟨.raised (stringArgumentError id), d⟩
  | some cId =>
    match d.files cId with
    | none => ⟨.raised ⟨.indexError, ""⟩, d⟩
    | some svf => ⟨(f svf).result, {d with files := Function.update d.files cId (some (f svf).self)}⟩

/-- What a punt of the object under this id returns. -/
def freedAt (bound : Nat) (d : Dictionary) (id : Id) : Nat :=
  (d.files id).elim 0 fun svf => CpSparseVirtualFileSystem.freed bound svf.pSvf

/-- What a client would do itself. -/
def call (sizes : Sizes) (m : SystemMethod) (d : Dictionary) : PyOutcome Dictionary PyValue :=
  match m with
  | .insert id modTime =>
    match parseString id, CpSparseVirtualFile.init id modTime d.config with
    | some cId, some svf =>
      if (d.files cId).isSome then ⟨.raised ⟨.runtimeError, ""⟩, d⟩
      else ⟨.returned (.object .none), {d with files := Function.update d.files cId (some svf)}⟩
    | _, _ => ⟨.raised (stringArgumentError id), d⟩
  | .remove id =>
    match parseString id with
    | none => ⟨.raised (stringArgumentError id), d⟩
    | some cId =>
      if (d.files cId).isSome then
        ⟨.returned (.object .none), {d with files := Function.update d.files cId none}⟩
      else ⟨.raised ⟨.indexError, ""⟩, d⟩
  | .has id =>
    match parseString id with
    | none => ⟨.raised (stringArgumentError id), d⟩
    | some cId => ⟨.returned (.bool (d.files cId).isSome), d⟩
  | .file id m => d.withFile id (CpSparseVirtualFile.call sizes m)
  | .lruPuntAll bound keys =>
    ⟨.returned (.object (.int ((keys.map (d.freedAt bound)).sum % 2 ^ 64 : Nat))),
      {d with files := fun id => (d.files id).map fun svf => (svf.lruPunt bound).self}⟩

end Dictionary

/-! ### Side by side -/

/-- A client's dictionary, and a system. -/
structure Stores where
  dictionary : Dictionary
  system : CpSparseVirtualFileSystem

namespace Stores

/-- Both empty. -/
def new (config : SparseVirtualFileConfig) : Stores := ⟨.new config, .init config⟩

def step (sizes : Sizes) (m : SystemMethod) (b : Stores) : Stores :=
  ⟨(b.dictionary.call sizes m).self, (b.system.call sizes m).self⟩

/-- They have the same files, each in the same state. -/
structure Corresponds (b : Stores) : Prop where
  config : b.dictionary.config = b.system.pSvfs.config
  files : ∀ cId, (b.dictionary.files cId).map CpSparseVirtualFile.pSvf = b.system.pSvfs.svfs.lookup cId

/-- Both answer alike, and leave the same files. -/
structure AlikeAt (sizes : Sizes) (m : SystemMethod) (b : Stores) : Prop where
  answers : PyResult.Alike (b.dictionary.call sizes m).result (b.system.call sizes m).result
  files : (b.step sizes m).Corresponds

/-- The call is one that its file answers for, or has what `keys` returns. -/
def Given (m : SystemMethod) (b : Stores) : Prop :=
  match m with
  | .file id m => ∀ cId ∈ parseString id, ∀ svf ∈ b.system.pSvfs.svfs.lookup cId, m.Given svf
  | .lruPuntAll _ keys => b.system.pSvfs.Keys keys
  | _ => True

instance : (m : SystemMethod) → (b : Stores) → Decidable (Given m b)
  | .file id m, b =>
    inferInstanceAs (Decidable (∀ cId ∈ parseString id, ∀ svf ∈ b.system.pSvfs.svfs.lookup cId, m.Given svf))
  | .lruPuntAll _ keys, b => inferInstanceAs (Decidable (b.system.pSvfs.Keys keys))
  | .insert _ _, _ | .remove _, _ | .has _, _ => isTrue trivial

/-- A write of no bytes to a file that is there. -/
def WritesNothing (m : SystemMethod) (b : Stores) : Prop :=
  ∃ id now fpos cId, m = .file id (.write now fpos []) ∧ parseString id = some cId ∧ cId ∈ b.system.pSvfs.svfs

end Stores
end Svfs
