import Svfs.Library.Run
import Svfs.File.Evict

/-! The calls a client makes, and runs of them. -/
namespace Svfs

/-- A call that may change a file. A write and a read carry the system time. -/
inductive Command where
  | write (now : Int) (fpos : Nat) (data : List Byte)
  | read (now : Int) (fpos : Nat) (len : Nat)
  | erase (fpos : Nat)
  | clear
  | lruPunt (cacheSizeUpperBound : Nat)

/-- What a call hands back. -/
inductive Reply where
  | none
  | bytes (data : List Byte)
  | size (n : Nat)
deriving DecidableEq

def Command.exec (c : Command) (w : World) : Outcome Reply :=
  match c with
  | .write now fpos data => (w.write now fpos data).bind fun _ w => .returned .none w
  | .read now fpos len => (w.read now fpos len).bind fun data w => .returned (.bytes data) w
  | .erase fpos => (w.erase fpos).bind fun n w => .returned (.size n) w
  | .clear => .returned .none w.clear
  | .lruPunt bound => (w.lruPunt bound).bind fun n w => .returned (.size n) w

/-- The world a call leaves, whether or not it throws. -/
def Command.step (c : Command) (w : World) : World := (c.exec w).world

/-- The call looks at no byte outside the buffers of the blocks. What one that does hands back, or
throws, is not the file's to say: it goes by what happens to lie there. -/
def Command.InBuffers (c : Command) (w : World) : Prop := (c.step ⟨w.file, []⟩).LogInBuffers

instance (c : Command) (w : World) : Decidable (c.InBuffers w) :=
  inferInstanceAs (Decidable (c.step ⟨w.file, []⟩).LogInBuffers)

/-- A newly constructed file. -/
def World.new (id : List Byte) (modTime : Float) (config : SparseVirtualFileConfig := {}) : World :=
  ⟨SparseVirtualFile.new id modTime config, []⟩

namespace Outcome

@[simp] theorem bind_returned_world {α β : Type} (o : Outcome α) (f : α → β) :
    (o.bind fun a w => .returned (f a) w).world = o.world := by
  cases h : o.result with
  | ok a => rw [bind_of_ok h]; rfl
  | error e => rw [bind_of_error h]

end Outcome

@[simp] theorem step_write (now : Int) (fpos : Nat) (data : List Byte) (w : World) :
    (Command.write now fpos data).step w = (w.write now fpos data).world :=
  Outcome.bind_returned_world _ _

@[simp] theorem step_read (now : Int) (fpos : Nat) (len : Nat) (w : World) :
    (Command.read now fpos len).step w = (w.read now fpos len).world :=
  Outcome.bind_returned_world _ _

@[simp] theorem step_erase (fpos : Nat) (w : World) :
    (Command.erase fpos).step w = (w.erase fpos).world :=
  Outcome.bind_returned_world _ _

@[simp] theorem step_clear (w : World) : Command.clear.step w = w.clear := rfl

@[simp] theorem step_lruPunt (bound : Nat) (w : World) :
    (Command.lruPunt bound).step w = (w.lruPunt bound).world :=
  Outcome.bind_returned_world _ _

end Svfs
