import Mathlib.Algebra.BigOperators.Group.Finset.Basic
import Mathlib.Data.Finmap

/-! Finite maps without an order, and sums over their values.

Mathlib's `Finmap` stands for a hash map: it has no order, so that what is computed from one
cannot depend on the order it is walked in. The sum of a measure over its values goes up by
what an entry put in adds, and a walk that changes one value at a time changes it by the
sum of the changes. -/
namespace Finmap
universe u v
variable {κ : Type u} {α : Type v} [DecidableEq κ] {m : Finmap fun _ : κ => α} {k : κ} {a b : α}

/-- The sum of a measure over the values. -/
def sumOver (f : α → Nat) (m : Finmap fun _ : κ => α) : Nat := (m.entries.map fun e => f e.2).sum

theorem sumOver_insert_of_notMem (f : α → Nat) (h : k ∉ m) (a : α) :
    (m.insert k a).sumOver f = f a + m.sumOver f := by
  rw [sumOver, entries_insert_of_notMem h, Multiset.map_cons, Multiset.sum_cons]
  rfl

/-- An entry put back where it was taken from. -/
theorem insert_erase (m : Finmap fun _ : κ => α) (k : κ) (a : α) : (m.erase k).insert k a = m.insert k a := by
  refine ext_lookup fun j => ?_
  by_cases hj : j = k
  · rw [hj, lookup_insert, lookup_insert]
  · rw [lookup_insert_of_ne _ hj, lookup_insert_of_ne _ hj, lookup_erase_ne hj]

theorem insert_of_lookup (h : m.lookup k = some a) : m.insert k a = m := by
  refine ext_lookup fun j => ?_
  by_cases hj : j = k
  · rw [hj, lookup_insert, h]
  · rw [lookup_insert_of_ne _ hj]

/-- One value for another. -/
theorem sumOver_insert (f : α → Nat) (h : m.lookup k = some a) (b : α) :
    (m.insert k b).sumOver f + f a = m.sumOver f + f b := by
  have hold : m.sumOver f = f a + (m.erase k).sumOver f := by
    conv_lhs => rw [← insert_of_lookup h, ← insert_erase, sumOver_insert_of_notMem f notMem_erase_self]
  rw [← insert_erase, sumOver_insert_of_notMem f notMem_erase_self, hold]
  omega

theorem keys_insert_of_mem (h : k ∈ m) (a : α) : (m.insert k a).keys = m.keys := by
  refine Finset.ext fun j => ?_
  rw [mem_keys, mem_keys, mem_insert]
  exact ⟨fun hj => hj.elim (fun heq => heq ▸ h) id, .inr⟩

/-- The sum of what the values measure is that of what is said of their keys. -/
theorem sumOver_eq_sum_keys (f : α → Nat) (g : κ → Nat) (h : ∀ k a, m.lookup k = some a → f a = g k) :
    m.sumOver f = ∑ k ∈ m.keys, g k := by
  have hmap : m.entries.map (fun e => f e.2) = m.entries.map fun e => g e.1 :=
    Multiset.map_congr rfl fun e he => h e.1 e.2 (lookup_eq_some_iff.mpr he)
  rw [sumOver, hmap, Finset.sum_eq_multiset_sum]
  exact congrArg Multiset.sum (Multiset.map_map g Sigma.fst m.entries).symm

end Finmap
