import Svfs.File.State

/-! Python objects, as far as the extension looks at them.

What CPython does is taken as documented: the format unit `s` takes a `str` to its
UTF-8 bytes and refuses one that has none or has a NUL in them, the unit `K` takes an
`int` modulo `2 ^ 64`, and a string made of one-byte characters has a code point for
each byte. Allocations succeed. -/
namespace Svfs

/-- A `str` is its code points; of a `dict` only the entries under strings matter. -/
inductive PyObject where
  | none
  | int (n : Int)
  | float (x : Float)
  | str (codePoints : List Nat)
  | bytes (data : List Byte)
  | tuple (items : List PyObject)
  | dict (items : List (String × PyObject))

/-- `PyDict_GetItemString`. -/
def PyObject.getItemString (items : List (String × PyObject)) (key : String) : Option PyObject :=
  (items.find? fun item => item.1 == key).map Prod.snd

/-! ### Errors -/

inductive PyErrorKind where
  | valueError
  | keyError
  | typeError
  | indexError
  | runtimeError
  | osError
deriving DecidableEq

structure PyError where
  kind : PyErrorKind
  message : String
deriving DecidableEq

/-- `"%s()#%d: "` with the function's name and the line, and a text. -/
def pyMessage (function : String) (line : Nat) (text : String) : String :=
  function ++ "()#" ++ toString line ++ ": " ++ text

/-- How a function of the extension ends: with an object, with a Python error, or with
a C++ exception that it does not catch. -/
inductive PyResult (α : Type) where
  | returned (a : α)
  | raised (e : PyError)
  | terminated (e : Exception)

/-- How a method ends, and the object it leaves. -/
structure PyOutcome (σ α : Type) where
  result : PyResult α
  self : σ

namespace PyOutcome
variable {σ τ α β : Type}

/-- Go on from a call that returned; an error goes through. -/
def bind (o : PyOutcome σ α) (f : α → σ → PyOutcome σ β) : PyOutcome σ β :=
  match o.result with
  | .returned a => f a o.self
  | .raised e => ⟨.raised e, o.self⟩
  | .terminated e => ⟨.terminated e, o.self⟩

theorem bind_of_returned {o : PyOutcome σ α} {f : α → σ → PyOutcome σ β} {a : α}
    (h : o.result = .returned a) : o.bind f = f a o.self := by
  simp [bind, h]

end PyOutcome

/-! ### Arguments -/

/-- The UTF-8 bytes of a code point; a surrogate has none. -/
def utf8Char (c : Nat) : Option (List Byte) :=
  if c < 0x80 then some [.ofNat c]
  else if c < 0x800 then some [.ofNat (0xC0 + c / 64), .ofNat (0x80 + c % 64)]
  else if 0xD800 ≤ c ∧ c < 0xE000 then none
  else if c < 0x10000 then
    some [.ofNat (0xE0 + c / 4096), .ofNat (0x80 + c / 64 % 64), .ofNat (0x80 + c % 64)]
  else
    some [.ofNat (0xF0 + c / 262144), .ofNat (0x80 + c / 4096 % 64), .ofNat (0x80 + c / 64 % 64),
      .ofNat (0x80 + c % 64)]

def utf8 : List Nat → Option (List Byte)
  | [] => some []
  | c :: rest => (utf8Char c).bind fun bs => (utf8 rest).map (bs ++ ·)

/-- The format unit `s`. -/
def parseString : PyObject → Option (List Byte)
  | .str codePoints => (utf8 codePoints).filter fun bs => !bs.contains 0
  | _ => none

/-- The format unit `K`: no check for overflow. -/
def parseUnsignedLongLong : PyObject → Option Nat
  | .int n => some (n % 2 ^ 64).toNat
  | _ => none

/-- `PyLong_AsLong`, which returns `-1` where it fails. -/
def pyLongAsLong : PyObject → Int
  | .int n => if -2 ^ 63 ≤ n ∧ n < 2 ^ 63 then n else -1
  | _ => -1

/-- `(int)` of a `long`. -/
def castInt (n : Int) : Int := n.bmod (2 ^ 32)

/-- The most bytes that `PyBytes_FromStringAndSize` makes an object of: `PY_SSIZE_T_MAX` less the
room it takes itself. -/
def pyBytesMax : Nat := 2 ^ 63 - 34

/-- `PyUnicode_FromKindAndData` of one-byte characters. -/
def fromOneByteKind (bs : List Byte) : PyObject := .str (bs.map UInt8.toNat)

theorem parseString_ne_nul {o : PyObject} {bs : List Byte} (h : parseString o = some bs) : 0 ∉ bs := by
  cases o with
  | str codePoints =>
    obtain ⟨_, hcontains⟩ := Option.filter_eq_some_iff.mp h
    simpa using hcontains
  | _ => cases h

/-- A character of one byte has UTF-8 bytes, and no NUL among them unless it is one. -/
theorem utf8Char_oneByte (b : Byte) : ∃ bs, utf8Char b.toNat = some bs ∧ (b ≠ 0 → 0 ∉ bs) := by
  have hlt := b.toNat_lt
  unfold utf8Char
  split
  · refine ⟨_, rfl, fun hb hmem => hb ?_⟩
    rw [List.mem_singleton] at hmem
    simpa using hmem.symm
  · rw [if_pos (by omega)]
    refine ⟨_, rfl, fun _ hmem => ?_⟩
    rcases List.mem_pair.mp hmem with heq | heq
    · have := congrArg UInt8.toNat heq
      simp only [UInt8.toNat_ofNat', UInt8.toNat_zero] at this
      omega
    · have := congrArg UInt8.toNat heq
      simp only [UInt8.toNat_ofNat', UInt8.toNat_zero] at this
      omega

/-- A string made of the bytes of a C string can be taken for one again. -/
theorem parseString_fromOneByteKind {bs : List Byte} (h : 0 ∉ bs) :
    ∃ id, parseString (fromOneByteKind bs) = some id := by
  have hutf8 : ∃ id, utf8 (bs.map UInt8.toNat) = some id ∧ 0 ∉ id := by
    induction bs with
    | nil => exact ⟨[], rfl, by simp⟩
    | cons b rest ih =>
      obtain ⟨hb, hrest⟩ := List.ne_and_not_mem_of_not_mem_cons h
      obtain ⟨id, hid, hnul⟩ := ih hrest
      obtain ⟨cs, hcs, hnul'⟩ := utf8Char_oneByte b
      refine ⟨cs ++ id, by simp [utf8, hcs, hid], ?_⟩
      rw [List.mem_append, not_or]
      exact ⟨hnul' hb.symm, hnul⟩
  obtain ⟨id, hid, hnul⟩ := hutf8
  refine ⟨id, ?_⟩
  show (utf8 (bs.map UInt8.toNat)).filter _ = _
  rw [hid]
  simp [hnul]

/-- The unit `K` gives back a position. -/
theorem parseUnsignedLongLong_ofNat {n : Nat} (h : n < 2 ^ 64) :
    parseUnsignedLongLong (.int n) = some n := by
  have : ((n : Int) % 2 ^ 64).toNat = n := by omega
  simp only [parseUnsignedLongLong, this]

end Svfs
