import Mathlib.Data.Nat.Basic
import Mathlib.Tactic.Ring

/-! Unsigned arithmetic on `w` bits: sums and differences modulo `2 ^ w`. -/
namespace Wrap

/-- `a + b` on `w` bits. -/
def add (w a b : Nat) : Nat := (a + b) % 2 ^ w

/-- `a - b` on `w` bits. -/
def sub (w a b : Nat) : Nat := (a + (2 ^ w - b % 2 ^ w)) % 2 ^ w

variable {w a b c : Nat}

theorem add_lt : add w a b < 2 ^ w := Nat.mod_lt _ (Nat.two_pow_pos w)

/-- A sum that fits is the sum. -/
theorem add_of_lt (h : a + b < 2 ^ w) : add w a b = a + b := Nat.mod_eq_of_lt h

/-- A sum that does not fit loses `2 ^ w`. -/
theorem add_of_ge (ha : a < 2 ^ w) (hb : b < 2 ^ w) (h : 2 ^ w ≤ a + b) :
    add w a b = a + b - 2 ^ w := by
  unfold add
  rw [Nat.mod_eq_sub_mod h, Nat.mod_eq_of_lt (by omega)]

/-- A difference that does not go below zero is the difference. -/
theorem sub_of_le (h : b ≤ a) (ha : a < 2 ^ w) : sub w a b = a - b := by
  unfold sub
  rw [Nat.mod_eq_of_lt (h.trans_lt ha), show a + (2 ^ w - b) = a - b + 2 ^ w by omega,
    Nat.add_mod_right, Nat.mod_eq_of_lt (by omega)]

theorem sub_self : sub w a a = 0 := by
  have hsplit := Nat.div_add_mod a (2 ^ w)
  have hlt := Nat.mod_lt a (Nat.two_pow_pos w)
  have heq : a + (2 ^ w - a % 2 ^ w) = 2 ^ w * (a / 2 ^ w + 1) := by
    rw [Nat.mul_add, Nat.mul_one]
    omega
  rw [sub, heq, Nat.mul_mod_right]

/-- Taking back what was added, whether or not the sum fitted. -/
theorem sub_add_cancel (ha : a < 2 ^ w) (hb : b < 2 ^ w) : sub w (add w a b) a = b := by
  rcases Nat.lt_or_ge (a + b) (2 ^ w) with h | h
  · rw [add_of_lt h, sub_of_le (by omega) h]
    omega
  · unfold sub
    rw [add_of_ge ha hb h, Nat.mod_eq_of_lt ha, show a + b - 2 ^ w + (2 ^ w - a) = b by omega,
      Nat.mod_eq_of_lt hb]

theorem add_assoc : add w (add w a b) c = add w a (b + c) := by
  simp [add, Nat.add_assoc]

/-- A sum that wraps at every step wraps once. -/
theorem foldl_add {α : Type*} (f : α → Nat) (l : List α) (ha : a < 2 ^ w) :
    l.foldl (fun ret x => add w ret (f x)) a = add w a (l.map f).sum := by
  induction l generalizing a with
  | nil => exact (Nat.mod_eq_of_lt ha).symm
  | cons x rest ih => rw [List.foldl_cons, ih add_lt, add_assoc, List.map_cons, List.sum_cons]

theorem add_zero (ha : a < 2 ^ w) : add w a 0 = a := add_of_lt (by omega)

end Wrap
