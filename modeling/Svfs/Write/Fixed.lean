import Svfs.Evict.Remove
import Svfs.File.Command
import Svfs.Query.Read
import Svfs.Write.Walk

/-! What construction fixes.

The id, the modification time and the configuration of a file are given to its
constructor, and no call changes them, on any map and whether or not it throws. -/
namespace Svfs

/-- Made by the same construction. -/
structure Fixed (s s' : SparseVirtualFile) : Prop where
  id : s'.id = s.id
  fileModTime : s'.fileModTime = s.fileModTime
  config : s'.config = s.config

theorem Fixed.refl (s : SparseVirtualFile) : Fixed s s := ⟨rfl, rfl, rfl⟩

theorem Fixed.trans {a b c : SparseVirtualFile} (hab : Fixed a b) (hbc : Fixed b c) : Fixed a c :=
  ⟨hbc.id.trans hab.id, hbc.fileModTime.trans hab.fileModTime, hbc.config.trans hab.config⟩

theorem Frame.fixed {w w' : World} (h : Frame w w') : Fixed w.file w'.file := by
  unfold Frame at h
  rw [h]
  exact ⟨rfl, rfl, rfl⟩

namespace World

theorem fixed_keptByWrite : KeptByWrite fun w w' => Fixed w.file w'.file where
  walk _ := ⟨fun _ => .refl _, .trans, fun _ _ _ => .refl _, fun _ _ => ⟨rfl, rfl, rfl⟩,
    fun _ _ _ => ⟨rfl, rfl, rfl⟩, fun w k _ => (frame_swallow w k).fixed⟩
  bump _ := ⟨rfl, rfl, rfl⟩
  insertNew caller fpos v w := by
    unfold insertNew
    dsimp only
    split <;> exact ⟨rfl, rfl, rfl⟩
  touch _ _ := ⟨rfl, rfl, rfl⟩
  countWrite _ _ _ := ⟨rfl, rfl, rfl⟩

theorem fixed_write (now : Int) (fpos : Nat) (data : List Byte) (w : World) :
    Fixed w.file (w.write now fpos data).world.file :=
  fixed_keptByWrite.write now fpos data w

theorem fixed_readFrom (now : Int) (fpos len : Nat) (iter : Nat × Val) (offset : Nat) (w : World) :
    Fixed w.file (w.readFrom now fpos len iter offset).world.file := by
  unfold readFrom
  split
  · exact .refl _
  · exact ⟨rfl, rfl, rfl⟩

theorem fixed_read (now : Int) (fpos len : Nat) (w : World) :
    Fixed w.file (w.read now fpos len).world.file := by
  rcases read_cases now fpos len w with ⟨_, m, heq⟩ | ⟨pre, iter, rest, _, _, _, heq⟩
  · rw [heq]
    exact .refl _
  · rw [heq]
    exact fixed_readFrom ..

theorem fixed_erase (fpos : Nat) (w : World) : Fixed w.file (w.erase fpos).world.file := by
  rcases erase_cases fpos w with ⟨_, heq⟩ | ⟨pre, v, post, _, _, _, hfile, _⟩
  · rw [heq]
    exact .refl _
  · rw [hfile]
    exact ⟨rfl, rfl, rfl⟩

theorem fixed_lruPuntLoop (bound : Nat) (touches : List (Nat × Nat)) (ret : Nat) (w : World) :
    Fixed w.file (lruPuntLoop bound touches ret w).world.file := by
  induction touches generalizing ret w with
  | nil => exact .refl _
  | cons iter rest ih =>
    unfold lruPuntLoop
    split
    · refine Outcome.bind_world (P := fun w' => Fixed w.file w'.file) (fixed_erase iter.2 w)
        fun n w' hw' => ?_
      refine Fixed.trans ?_ (ih _ _)
      exact hw'.trans ⟨rfl, rfl, rfl⟩
    · exact .refl _

theorem fixed_lruPunt (bound : Nat) (w : World) : Fixed w.file (w.lruPunt bound).world.file := by
  refine Outcome.bind_world (P := fun w' => Fixed w.file w'.file) ?_ fun _ w' hw' =>
    hw'.trans ⟨rfl, rfl, rfl⟩
  split
  · exact fixed_lruPuntLoop ..
  · exact .refl _

end World

/-- One call leaves what construction fixed. -/
theorem step_fixed (c : Command) (w : World) : Fixed w.file (c.step w).file := by
  cases c with
  | write now fpos data =>
    rw [step_write]
    exact World.fixed_write now fpos data w
  | read now fpos len =>
    rw [step_read]
    exact World.fixed_read now fpos len w
  | erase fpos =>
    rw [step_erase]
    exact World.fixed_erase fpos w
  | clear =>
    rw [step_clear, World.clear_file]
    exact ⟨rfl, rfl, rfl⟩
  | lruPunt bound =>
    rw [step_lruPunt]
    exact World.fixed_lruPunt bound w

/-- and so does every run. -/
theorem run_fixed (cs : List Command) (w : World) : Fixed w.file (Run.run Command.step w cs).file := by
  induction cs generalizing w with
  | nil => exact .refl _
  | cons c rest ih => exact (step_fixed c w).trans (ih _)

end Svfs
