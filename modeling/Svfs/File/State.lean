import Svfs.Library.OrderedMap
import Svfs.Library.Segments
import Svfs.Library.Wrap

/-! The state of a sparse virtual file.

The blocks are a map from file position to bytes and a touch; beside it stand the
counters. A call is a function of a `World`: the file, and a log of what the
block map does not show — which bytes of which buffers were looked at, which
`size_t` differences were taken, which assertions were passed in the shipped
build (where they check nothing), and with what bytes a block left the map.

A `t_fpos` and a `size_t` are numbers below `2 ^ 64` and a `t_block_touch` is one
below `2 ^ 32`; sums and differences wrap. -/
namespace Svfs

abbrev Byte := UInt8

/-- `t_seek_read`. -/
abbrev SeekRead := Nat × Nat

abbrev sizeAdd (a b : Nat) : Nat := Wrap.add 64 a b
abbrev sizeSub (a b : Nat) : Nat := Wrap.sub 64 a b

theorem sizeAdd_of_lt {a b : Nat} (h : a + b < 2 ^ 64) : sizeAdd a b = a + b := Wrap.add_of_lt h

theorem sizeAdd_assoc (a b c : Nat) : sizeAdd (sizeAdd a b) c = sizeAdd a (b + c) := Wrap.add_assoc

theorem sizeAdd_zero {a : Nat} (h : a < 2 ^ 64) : sizeAdd a 0 = a := Wrap.add_zero h

theorem sizeSub_of_le {a b : Nat} (h : b ≤ a) (ha : a < 2 ^ 64) : sizeSub a b = a - b :=
  Wrap.sub_of_le h ha

/-- `m_block_touch++` leaves this behind. -/
abbrev touchSucc (t : Nat) : Nat := Wrap.add 32 t 1

/-- `OVERWRITE_CHAR`, the character `0`. -/
def overwriteChar : Byte := 48

/-- `std::chrono::time_point<std::chrono::system_clock>::min()`, in ticks. -/
def timePointMin : Int := -2 ^ 63

structure SparseVirtualFileConfig where
  overwriteOnExit : Bool := false
  compareForDiff : Bool := true
deriving DecidableEq

/-- `t_val`. -/
structure Val where
  data : List Byte
  blockTouch : Nat
deriving DecidableEq

/-- `t_map`. -/
abbrev BlockMap := OrderedMap Nat Val

/-- `data.assign(data.size(), OVERWRITE_CHAR)`. -/
def Val.overwrite (v : Val) : Val := {v with data := List.replicate v.data.length overwriteChar}

/-- `data.push_back` of each of `bytes`. -/
def Val.pushBack (bytes : List Byte) (v : Val) : Val := {v with data := v.data ++ bytes}

structure SparseVirtualFile where
  id : List Byte
  fileModTime : Float
  config : SparseVirtualFileConfig
  bytesTotal : Nat
  countWrite : Nat
  countRead : Nat
  bytesWrite : Nat
  bytesRead : Nat
  timeWrite : Int
  timeRead : Int
  svf : BlockMap
  blockTouch : Nat
  blocksErased : Nat
  bytesErased : Nat
  blocksPunted : Nat
  bytesPunted : Nat

/-- The constructor. -/
def SparseVirtualFile.new (id : List Byte) (modTime : Float) (config : SparseVirtualFileConfig := {}) :
    SparseVirtualFile where
  id := id
  fileModTime := modTime
  config := config
  bytesTotal := 0
  countWrite := 0
  countRead := 0
  bytesWrite := 0
  bytesRead := 0
  timeWrite := timePointMin
  timeRead := timePointMin
  svf := OrderedMap.empty
  blockTouch := 0
  blocksErased := 0
  bytesErased := 0
  blocksPunted := 0
  bytesPunted := 0

/-! ### Exceptions -/

/-- The exceptions of `SVFS::Exceptions`, with their message. A `diff` is also a
write exception in the source. -/
inductive Exception where
  | write (message : String)
  | diff (message : String)
  | read (message : String)
  | erase (message : String)
deriving DecidableEq

def Exception.message : Exception → String
  | .write m | .diff m | .read m | .erase m => m

/-- A byte streamed as a `char`, one character per byte. -/
def charText (b : Byte) : String := String.singleton (Char.ofNat b.toNat)

/-- `static_cast<int>` of a (signed) `char`. -/
def charOrdinal (b : Byte) : Int := if b.toNat < 128 then b.toNat else b.toNat - 256

/-! ### Worlds -/

/-- What a call does that the file it leaves does not show. -/
inductive Event where
  /-- `std::memcmp` on `len` bytes of a block of `size` bytes, from `offset`. -/
  | memcmp (size offset len : Nat)
  /-- `data[i]` on a block of `size` bytes. -/
  | index (size i : Nat)
  /-- The bytes from `offset` on of a block of `size` bytes, `len` of them. -/
  | copy (size offset len : Nat)
  /-- The `size_t` difference `a - b`. -/
  | subtract (a b : Nat)
  /-- An assertion, and whether it would have held. -/
  | assertion (holds : Bool)
  /-- The block at `fpos` left the map with these bytes in its buffer. -/
  | discard (fpos : Nat) (data : List Byte)
deriving DecidableEq

/-- The bytes looked at lie in the buffer of their block. -/
def Event.InBuffer : Event → Prop
  | .memcmp size offset len | .copy size offset len => offset + len ≤ size
  | .index size i => i < size
  | .subtract _ _ | .assertion _ | .discard _ _ => True

instance : DecidablePred Event.InBuffer
  | .memcmp size offset len | .copy size offset len => inferInstanceAs (Decidable (offset + len ≤ size))
  | .index size i => inferInstanceAs (Decidable (i < size))
  | .subtract _ _ | .assertion _ | .discard _ _ => isTrue trivial

/-- The file, and the log of the calls so far, latest first. -/
structure World where
  file : SparseVirtualFile
  log : List Event

/-- No call so far looked outside a buffer. -/
def World.LogInBuffers (w : World) : Prop := ∀ e ∈ w.log, e.InBuffer

instance (w : World) : Decidable w.LogInBuffers := inferInstanceAs (Decidable (∀ e ∈ w.log, e.InBuffer))

/-- How a call ends: with a value or by throwing, and the world it leaves. -/
structure Outcome (α : Type) where
  result : Except Exception α
  world : World

namespace Outcome
variable {α β : Type}

def returned (a : α) (w : World) : Outcome α := ⟨.ok a, w⟩

def threw (e : Exception) (w : World) : Outcome α := ⟨.error e, w⟩

/-- Go on from a call that returned; a throw goes through. -/
def bind (o : Outcome α) (f : α → World → Outcome β) : Outcome β :=
  match o.result with
  | .ok a => f a o.world
  | .error e => ⟨.error e, o.world⟩

abbrev file (o : Outcome α) : SparseVirtualFile := o.world.file

/-- The call did not throw. -/
def Returns (o : Outcome α) : Prop := ∃ a, o.result = .ok a

@[simp] theorem returned_result (a : α) (w : World) : (returned a w).result = .ok a := rfl
@[simp] theorem returned_world (a : α) (w : World) : (returned a w).world = w := rfl
@[simp] theorem threw_result (e : Exception) (w : World) : (threw e w : Outcome α).result = .error e := rfl
@[simp] theorem threw_world (e : Exception) (w : World) : (threw e w : Outcome α).world = w := rfl

theorem bind_of_ok {o : Outcome α} {f : α → World → Outcome β} {a : α} (h : o.result = .ok a) :
    o.bind f = f a o.world := by
  simp [bind, h]

theorem bind_of_error {o : Outcome α} {f : α → World → Outcome β} {e : Exception}
    (h : o.result = .error e) : o.bind f = ⟨.error e, o.world⟩ := by
  simp [bind, h]

@[simp] theorem bind_returned (a : α) (w : World) (f : α → World → Outcome β) :
    (returned a w).bind f = f a w := rfl

@[simp] theorem bind_threw (e : Exception) (w : World) (f : α → World → Outcome β) :
    (threw e w : Outcome α).bind f = threw e w := rfl

/-- What holds of the world one call leaves, and goes on to hold through the next,
holds of the world both leave. -/
theorem bind_world {P : World → Prop} {o : Outcome α} {f : α → World → Outcome β} (h : P o.world)
    (hf : ∀ a w, P w → P (f a w).world) : P (o.bind f).world := by
  cases hr : o.result with
  | ok a =>
    rw [bind_of_ok hr]
    exact hf a _ h
  | error e =>
    rw [bind_of_error hr]
    exact h

end Outcome

namespace World

def emit (w : World) (e : Event) : World := {w with log := e :: w.log}

@[simp] theorem emit_file (w : World) (e : Event) : (w.emit e).file = w.file := rfl
@[simp] theorem emit_log (w : World) (e : Event) : (w.emit e).log = e :: w.log := rfl

end World

/-! ### Reading the map -/

/-- `_file_position_immediatly_after_block`. -/
def filePositionImmediatlyAfterBlock (iter : Nat × Val) : Nat :=
  sizeAdd iter.1 iter.2.data.length

theorem filePositionImmediatlyAfterBlock_of_lt {iter : Nat × Val}
    (h : iter.1 + iter.2.data.length < 2 ^ 64) :
    filePositionImmediatlyAfterBlock iter = iter.1 + iter.2.data.length := sizeAdd_of_lt h

/-- Blocks as segments: position and bytes, without the touch. -/
def segmentsOf (l : List (Nat × Val)) : List (Segments.Segment Byte) :=
  l.map fun iter => (iter.1, iter.2.data)

@[simp] theorem segmentsOf_nil : segmentsOf [] = [] := rfl

@[simp] theorem segmentsOf_cons (iter : Nat × Val) (rest : List (Nat × Val)) :
    segmentsOf (iter :: rest) = (iter.1, iter.2.data) :: segmentsOf rest := rfl

@[simp] theorem segmentsOf_append (a b : List (Nat × Val)) :
    segmentsOf (a ++ b) = segmentsOf a ++ segmentsOf b := List.map_append

theorem mem_segmentsOf {l : List (Nat × Val)} {seg : Segments.Segment Byte} :
    seg ∈ segmentsOf l ↔ ∃ iter ∈ l, (iter.1, iter.2.data) = seg := List.mem_map

namespace SparseVirtualFile

/-- `_file_position_immediatly_after_end`. -/
def filePositionImmediatlyAfterEnd (s : SparseVirtualFile) : Nat :=
  match s.svf.entries.getLast? with
  | none => 0
  | some iter => filePositionImmediatlyAfterBlock iter

def lastFilePosition (s : SparseVirtualFile) : Nat := s.filePositionImmediatlyAfterEnd

def numBytes (s : SparseVirtualFile) : Nat := s.bytesTotal

def numBlocks (s : SparseVirtualFile) : Nat := s.svf.size

/-- The existing blocks as file position and length. -/
def blocks (s : SparseVirtualFile) : List SeekRead :=
  s.svf.entries.map fun iter => (iter.1, iter.2.data.length)

/-- The blocks as segments. -/
def segments (s : SparseVirtualFile) : List (Segments.Segment Byte) := segmentsOf s.svf.entries

/-- The byte held at a position. -/
def held (s : SparseVirtualFile) (p : Nat) : Option Byte := Segments.lookup s.segments p

end SparseVirtualFile

end Svfs
