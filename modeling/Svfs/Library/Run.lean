import Mathlib.Data.List.Basic
import Mathlib.Data.List.Induction

/-! Runs of a system that takes one input at a time.

`run` is the state a list of inputs leads to, `states` every state on the way,
and `Along A` says that each input meets `A` in the state it is given in. An
invariant that every allowed step keeps holds in every state of an allowed run
(`invariant_states`). Two systems whose states stay related answer a run the same way
(`lockstep_answers_iff`). -/
namespace Run

universe u v
variable {σ : Type u} {ι : Type v} (step : ι → σ → σ)

def run (s : σ) : List ι → σ
  | [] => s
  | i :: rest => run (step i s) rest

/-- Every state of a run, the first one included. -/
def states (s : σ) : List ι → List σ
  | [] => [s]
  | i :: rest => s :: states (step i s) rest

/-- `P` holds in every state of a run. -/
def Always (P : σ → Prop) (s : σ) (is : List ι) : Prop := ∀ t ∈ states step s is, P t

/-- Each input meets `A` in the state it is given in. -/
def Along (A : ι → σ → Prop) (s : σ) : List ι → Prop
  | [] => True
  | i :: rest => A i s ∧ Along A (step i s) rest

instance decidableAlong (A : ι → σ → Prop) [∀ i s, Decidable (A i s)] :
    (s : σ) → (is : List ι) → Decidable (Along step A s is)
  | _, [] => isTrue trivial
  | s, i :: rest =>
    haveI := decidableAlong A (step i s) rest
    inferInstanceAs (Decidable (_ ∧ _))

variable {step} {s : σ} {is : List ι}

theorem run_append (a b : List ι) : run step s (a ++ b) = run step (run step s a) b := by
  induction a generalizing s with
  | nil => rfl
  | cons i rest ih => exact ih

theorem run_mem_states : run step s is ∈ states step s is := by
  induction is generalizing s with
  | nil => exact List.mem_singleton.mpr rfl
  | cons i rest ih => exact List.mem_cons_of_mem _ ih

/-- The states of a run are where its beginnings lead. -/
theorem mem_states_iff {t : σ} :
    t ∈ states step s is ↔ ∃ done rest, is = done ++ rest ∧ t = run step s done := by
  constructor
  · intro h
    induction is generalizing s with
    | nil => exact ⟨[], [], rfl, List.mem_singleton.mp h⟩
    | cons i tail ih =>
      rcases List.mem_cons.mp h with rfl | h
      · exact ⟨[], i :: tail, rfl, rfl⟩
      · obtain ⟨done, rest, rfl, ht⟩ := ih h
        exact ⟨i :: done, rest, rfl, ht⟩
  · rintro ⟨done, rest, rfl, rfl⟩
    induction done generalizing s with
    | nil =>
      cases rest with
      | nil => exact List.mem_singleton.mpr rfl
      | cons i tail => exact List.mem_cons_self ..
    | cons i tail ih => exact List.mem_cons_of_mem _ ih

section Along
variable {A B : ι → σ → Prop}

theorem along_append (a b : List ι) :
    Along step A s (a ++ b) ↔ Along step A s a ∧ Along step A (run step s a) b := by
  induction a generalizing s with
  | nil => simp [Along, run]
  | cons i rest ih => simp [Along, run, ih, and_assoc]

/-- What holds along a run holds at each of its inputs. -/
theorem along_iff : Along step A s is ↔
    ∀ done i rest, is = done ++ i :: rest → A i (run step s done) := by
  constructor
  · rintro h done i rest rfl
    exact ((along_append done (i :: rest)).mp h).2.1
  · intro h
    induction is generalizing s with
    | nil => trivial
    | cons i tail ih =>
      refine ⟨h [] i tail rfl, ih fun done j rest hr => ?_⟩
      exact h (i :: done) j rest (by rw [hr]; rfl)

theorem along_and : Along step (fun i t => A i t ∧ B i t) s is ↔
    Along step A s is ∧ Along step B s is := by
  induction is generalizing s with
  | nil => simp [Along]
  | cons i rest ih =>
    simp only [Along, ih]
    tauto

theorem along_mono (h : ∀ i t, A i t → B i t) (ha : Along step A s is) : Along step B s is := by
  induction is generalizing s with
  | nil => trivial
  | cons i rest ih => exact ⟨h i s ha.1, ih ha.2⟩

/-- What is said of a part of the state is said along the run of that part. -/
theorem along_map {τ : Type*} {step' : ι → τ → τ} {A : ι → τ → Prop} (f : σ → τ)
    (hf : ∀ i t, f (step i t) = step' i (f t)) (h : Run.Along step (fun i t => A i (f t)) s is) :
    Run.Along step' A (f s) is := by
  induction is generalizing s with
  | nil => trivial
  | cons i rest ih => exact ⟨h.1, hf i s ▸ ih h.2⟩

/-- What holds of each input, whatever the state, holds along a run. -/
theorem along_of_forall {P : ι → Prop} (h : ∀ i ∈ is, P i) : Along step (fun i _ => P i) s is := by
  induction is generalizing s with
  | nil => trivial
  | cons i rest ih =>
    exact ⟨h i (List.mem_cons_self ..), ih fun j hj => h j (List.mem_cons_of_mem _ hj)⟩

theorem along_forall_iff {P : ι → Prop} : Along step (fun i _ => P i) s is ↔ ∀ i ∈ is, P i := by
  refine ⟨fun h i hi => ?_, along_of_forall⟩
  obtain ⟨done, rest, rfl⟩ := List.append_of_mem hi
  exact along_iff.mp h done i rest rfl

/-- Where an invariant holds that both keep, it does not matter which of the two is asked of
the inputs. -/
theorem along_congr {P : σ → Prop} (hstep : ∀ i ∈ is, ∀ t, P t → A i t → P (step i t))
    (hiff : ∀ i ∈ is, ∀ t, P t → (A i t ↔ B i t)) (h : P s) : Along step A s is ↔ Along step B s is := by
  induction is generalizing s with
  | nil => exact Iff.rfl
  | cons i rest ih =>
    have hi : i ∈ i :: rest := List.mem_cons_self ..
    simp only [Along, ← hiff i hi s h]
    refine and_congr_right fun ha => ih (fun j hj => hstep j (List.mem_cons_of_mem _ hj))
      (fun j hj => hiff j (List.mem_cons_of_mem _ hj)) (hstep i hi s h ha)

/-- What holds in every state of a run holds after each of its inputs. -/
theorem along_of_states {P : σ → Prop} (h : ∀ t ∈ states step s is, P t) :
    Along step (fun i t => P t ∧ P (step i t)) s is := by
  rw [along_iff]
  rintro done i rest rfl
  refine ⟨h _ (mem_states_iff.mpr ⟨done, i :: rest, rfl, rfl⟩),
    h _ (mem_states_iff.mpr ⟨done ++ [i], rest, by simp, ?_⟩)⟩
  rw [run_append]
  rfl

/-- An invariant of the allowed steps holds at the end of an allowed run. -/
theorem invariant_run {P : σ → Prop} (hstep : ∀ i t, A i t → P t → P (step i t))
    (h : P s) (ha : Along step A s is) : P (run step s is) := by
  induction is generalizing s with
  | nil => exact h
  | cons i rest ih => exact ih (hstep i s ha.1 h) ha.2

/-- and in every state on the way. -/
theorem invariant_states {P : σ → Prop} (hstep : ∀ i t, A i t → P t → P (step i t))
    (h : P s) (ha : Along step A s is) : ∀ t ∈ states step s is, P t := by
  intro t ht
  obtain ⟨done, rest, rfl, rfl⟩ := mem_states_iff.mp ht
  exact invariant_run hstep h ((along_append done rest).mp ha).1

end Along

/-! ### What has held since -/

theorem states_concat (is : List ι) (i : ι) :
    states step s (is ++ [i]) = states step s is ++ [run step s (is ++ [i])] := by
  induction is generalizing s with
  | nil => rfl
  | cons j rest ih => exact congrArg (s :: ·) ih

variable (step) in
/-- An input with `G` was taken, and `P` has held in every state since. -/
def Since (G : ι → Prop) (P : σ → Prop) (s : σ) (is : List ι) : Prop :=
  ∃ before i after, is = before ++ i :: after ∧ G i ∧ Always step P (run step s (before ++ [i])) after

/-- What did not hold at first, and comes to hold only by an input with `G`, has held since one. -/
theorem since_of_run {A : ι → σ → Prop} {G : ι → Prop} {P : σ → Prop}
    (hstep : ∀ i t, A i t → P (step i t) → P t ∨ G i) (hnot : ¬ P s) (ha : Along step A s is)
    (h : P (run step s is)) : Since step G P s is := by
  induction is using List.reverseRecOn with
  | nil => exact absurd h hnot
  | append_singleton done i ih =>
    obtain ⟨hdone, hi, _⟩ := (along_append done [i]).mp ha
    have hlast : run step s (done ++ [i]) = step i (run step s done) := run_append done [i]
    rcases hstep i _ hi (hlast ▸ h) with hbefore | hgives
    · obtain ⟨before, j, after, rfl, hj, hsince⟩ := ih hdone hbefore
      refine ⟨before, j, after ++ [i], by simp, hj, ?_⟩
      rw [Always, states_concat, ← run_append]
      intro t ht
      rcases List.mem_append.mp ht with ht | ht
      · exact hsince t ht
      · rw [List.mem_singleton.mp ht]
        simpa using h
    · exact ⟨done, i, [], rfl, hgives, fun t ht => List.mem_singleton.mp ht ▸ h⟩

/-! ### Two systems in step -/

/-- What is answered along a run. -/
def answers {ρ : Type*} (step : ι → σ → σ) (reply : ι → σ → ρ) (s : σ) : List ι → List ρ
  | [] => []
  | i :: rest => reply i s :: answers step reply (step i s) rest

section Lockstep
variable {τ ρ : Type*} {step' : ι → τ → τ} {reply : ι → σ → ρ} {reply' : ι → τ → ρ} {t : τ}
  {R : σ → τ → Prop} {A : ι → σ → Prop}

/-- Systems that stay related by the inputs that meet `A` are related at the end of a run of them, -/
theorem lockstep_run (hgo : ∀ i s t, R s t → A i s → R (step i s) (step' i t)) (h : R s t)
    (ha : Along step A s is) : R (run step s is) (run step' t is) := by
  induction is generalizing s t with
  | nil => exact h
  | cons i rest ih => exact ih (hgo i s t h ha.1) ha.2

/-- The second meets along the run what it owes wherever the first meets it, -/
theorem lockstep_along {B : ι → σ → Prop} {B' : ι → τ → Prop}
    (hgo : ∀ i s t, R s t → A i s → R (step i s) (step' i t))
    (hmeets : ∀ i s t, R s t → A i s → B i s → B' i t) (h : R s t) (ha : Along step A s is)
    (hb : Along step B s is) : Along step' B' t is := by
  induction is generalizing s t with
  | nil => trivial
  | cons i rest ih => exact ⟨hmeets i s t h ha.1 hb.1, ih (hgo i s t h ha.1) ha.2 hb.2⟩

/-- and if they answer those inputs the same way, and only those, then a run is answered the
same way just if it is one of them. -/
theorem lockstep_answers_iff (hgo : ∀ i s t, R s t → A i s → R (step i s) (step' i t))
    (hreply : ∀ i s t, R s t → (reply' i t = reply i s ↔ A i s)) (h : R s t) :
    answers step' reply' t is = answers step reply s is ↔ Along step A s is := by
  induction is generalizing s t with
  | nil => exact iff_of_true rfl trivial
  | cons i rest ih =>
    simp only [answers, List.cons.injEq, Along]
    rw [hreply i s t h]
    exact and_congr_right fun ha => ih (hgo i s t h ha)

end Lockstep

end Run
