import Mathlib.Data.Finmap
import Svfs.Library.Run

/-! Stores of machines.

A store keeps machines under keys. A machine is made under a key that is free, taken away
again, and handed inputs by its key; what is asked of a key in any other way is refused. So
what a store holds under a key, and what it answers there, depends on nothing but what was
asked of that key since its machine was made, its history (`Machine.lookup_run`, `Machine.answer_run`): a store
is its machines side by side. -/
namespace Store
universe u v w x y
variable {κ : Type u} {ε : Type v} {ι : Type w} {σ : Type x} {ρ : Type y}

/-- What is asked of a store. -/
inductive Input (κ : Type u) (ε : Type v) (ι : Type w) where
  | insert (k : κ) (e : ε)
  | remove (k : κ)
  | call (k : κ) (i : ι)

/-- The key it is asked of. -/
def Input.key : Input κ ε ι → κ
  | .insert k _ | .remove k | .call k _ => k

/-- What a store answers. -/
inductive Reply (ρ : Type y) where
  | done
  | refused
  | replied (r : ρ)

/-- What machines are made of, how they step, and what they reply. -/
structure Machine (κ : Type u) (ε : Type v) (ι : Type w) (σ : Type x) (ρ : Type y) where
  make : κ → ε → σ
  step : ι → σ → σ
  reply : ι → σ → ρ

abbrev Held (κ : Type u) (σ : Type x) := Finmap fun _ : κ => σ

section History
variable [DecidableEq κ]

/-- What the machine under a key was made of, and the inputs it was handed since; `none` where
there is no machine. -/
def history (k : κ) : Input κ ε ι → Option (ε × List ι) → Option (ε × List ι)
  | .insert k' e, h => if k' = k then some (h.getD (e, [])) else h
  | .remove k', h => if k' = k then none else h
  | .call k' i, h => if k' = k then h.map fun h => (h.1, h.2 ++ [i]) else h

/-- The history of a key in a run of a store that was empty. -/
def historyOf (k : κ) (is : List (Input κ ε ι)) : Option (ε × List ι) := Run.run (history k) none is

theorem historyOf_append (k : κ) (is : List (Input κ ε ι)) (i : Input κ ε ι) :
    historyOf k (is ++ [i]) = history k i (historyOf k is) := by
  rw [historyOf, Run.run_append]
  rfl

end History

namespace Machine
variable [DecidableEq κ] (M : Machine κ ε ι σ ρ)

def next : Input κ ε ι → Held κ σ → Held κ σ
  | .insert k e, m => if k ∈ m then m else m.insert k (M.make k e)
  | .remove k, m => m.erase k
  | .call k i, m =>
    match m.lookup k with
    | some s => m.insert k (M.step i s)
    | none => m

def answer : Input κ ε ι → Held κ σ → Reply ρ
  | .insert k _, m => if k ∈ m then .refused else .done
  | .remove k, m => if k ∈ m then .done else .refused
  | .call k i, m =>
    match m.lookup k with
    | some s => .replied (M.reply i s)
    | none => .refused

/-- The machine of a history. -/
def ofHistory (k : κ) (h : ε × List ι) : σ := Run.run M.step (M.make k h.1) h.2

/-- What is answered to one whose key has this history. -/
def answerTo (h : Option (ε × List ι)) : Input κ ε ι → Reply ρ
  | .insert _ _ => if h.isSome then .refused else .done
  | .remove _ => if h.isSome then .done else .refused
  | .call k i =>
    match h with
    | some h => .replied (M.reply i (M.ofHistory k h))
    | none => .refused

variable {M} {m : Held κ σ} {k : κ} {h : Option (ε × List ι)} {is : List (Input κ ε ι)}

/-- One input takes what is held under each key along with its history. -/
theorem lookup_next (i : Input κ ε ι) (hk : m.lookup k = h.map (M.ofHistory k)) :
    (M.next i m).lookup k = (history k i h).map (M.ofHistory k) := by
  cases i with
  | insert k' e =>
    by_cases hkey : k' = k
    · subst hkey
      cases h with
      | none =>
        have hnot : k' ∉ m := Finmap.lookup_eq_none.mp hk
        simp only [next, if_neg hnot, Finmap.lookup_insert, history, if_pos]
        rfl
      | some h =>
        have hmem : k' ∈ m := Finmap.mem_of_lookup_eq_some hk
        simp only [next, if_pos hmem, history, if_pos, hk]
        rfl
    · simp only [next, history, if_neg hkey, ← hk]
      split
      · rfl
      · exact Finmap.lookup_insert_of_ne _ (Ne.symm hkey)
  | remove k' =>
    by_cases hkey : k' = k
    · subst hkey
      simp only [next, Finmap.lookup_erase, history, if_pos, Option.map_none]
    · simp only [next, history, if_neg hkey, ← hk]
      exact Finmap.lookup_erase_ne (Ne.symm hkey)
  | call k' i =>
    by_cases hkey : k' = k
    · subst hkey
      cases h with
      | none =>
        rw [Option.map_none] at hk
        simp only [next, hk, history, if_pos, Option.map_none]
      | some h =>
        rw [Option.map_some] at hk
        simp only [next, hk, Finmap.lookup_insert, history, if_pos, Option.map_some, ofHistory, Run.run_append]
        rfl
    · simp only [next, history, if_neg hkey, ← hk]
      split
      · exact Finmap.lookup_insert_of_ne _ (Ne.symm hkey)
      · rfl

theorem lookup_run_of (hk : m.lookup k = h.map (M.ofHistory k)) :
    (Run.run M.next m is).lookup k = (Run.run (history k) h is).map (M.ofHistory k) := by
  induction is generalizing m h with
  | nil => exact hk
  | cons i rest ih => exact ih (lookup_next i hk)

/-- **What a store holds under a key** is the machine of its history. -/
theorem lookup_run (k : κ) (is : List (Input κ ε ι)) :
    (Run.run M.next ∅ is).lookup k = (historyOf k is).map (M.ofHistory k) :=
  lookup_run_of (Finmap.lookup_empty k)

/-- **What a store answers** goes by the history of the key it is asked of. -/
theorem answer_eq (i : Input κ ε ι) (hk : m.lookup i.key = h.map (M.ofHistory i.key)) :
    M.answer i m = M.answerTo h i := by
  have hmem : i.key ∈ m ↔ h.isSome := by
    rw [← Finmap.lookup_isSome, hk, Option.isSome_map]
  cases i with
  | insert k e => simp only [answer, answerTo, ← hmem, Input.key]
  | remove k => simp only [answer, answerTo, ← hmem, Input.key]
  | call k i =>
    simp only [Input.key] at hk
    simp only [answer, hk]
    cases h <;> rfl

/-- What is asked of the inputs along a run of a store is asked along the run of each of its
machines. -/
theorem along_history {A : κ → ι → σ → Prop} {e : ε} {js : List ι}
    (hrun : Run.Along M.next (fun i m => ∀ j s, i = .call i.key j → m.lookup i.key = some s → A i.key j s) ∅ is)
    (hk : historyOf k is = some (e, js)) : Run.Along M.step (A k) (M.make k e) js := by
  induction is using List.reverseRecOn generalizing e js with
  | nil => cases hk
  | append_singleton done i ih =>
    obtain ⟨hdone, hi, _⟩ := (Run.along_append done [i]).mp hrun
    have hbefore := lookup_run (M := M) k done
    rw [historyOf_append] at hk
    cases i with
    | insert k' e' =>
      simp only [history] at hk
      split at hk
      · cases hhistory : historyOf k done with
        | none =>
          rw [hhistory] at hk
          obtain ⟨rfl, rfl⟩ := Prod.mk.inj (Option.some.inj hk)
          trivial
        | some h =>
          rw [hhistory] at hk
          obtain rfl := Option.some.inj hk
          exact ih hdone hhistory
      · exact ih hdone hk
    | remove k' =>
      simp only [history] at hk
      split at hk
      · cases hk
      · exact ih hdone hk
    | call k' j =>
      simp only [history] at hk
      split at hk
      · rename_i hkey
        subst hkey
        obtain ⟨h, hhistory, heq⟩ := Option.map_eq_some_iff.mp hk
        obtain ⟨rfl, rfl⟩ := Prod.mk.inj heq
        rw [hhistory] at hbefore
        exact (Run.along_append h.2 [j]).mpr ⟨ih hdone hhistory, hi j _ rfl hbefore, trivial⟩
      · exact ih hdone hk

theorem answer_run (i : Input κ ε ι) (is : List (Input κ ε ι)) :
    M.answer i (Run.run M.next ∅ is) = M.answerTo (historyOf i.key is) i :=
  answer_eq i (lookup_run i.key is)

end Machine
end Store
