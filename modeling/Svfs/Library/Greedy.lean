import Mathlib.Order.Bounds.Basic
import Mathlib.Data.Set.Lattice

/-! Covering a set of positions greedily, by runs of a length at least.

The greedy cover of `M` opens a run at the first position of `M` it has not passed, lets
it go on for `g` positions and further to the first position outside of `M`, and starts
again from there. It is determined by `M` and `g` (`IsCover.unique`), and a greater `g`
never costs more runs (`IsCover.length_le`).

`add` takes one more piece into the runs kept so far, latest first. Pieces may come in
any order in which each, as far as it lies before a position seen, was seen itself
(`Backfilled`); then adding them one after another makes the greedy cover of what they
are over (`isCover_foldl`). Pieces in order may be empty as well, and are merged
(`merged_of_sorted`). -/
namespace Greedy

/-- The runs `l` are those a greedy cover of `M` opens from `lo` up to `hi`. -/
def Leads (M : Set Nat) (g : Nat) : Nat → List (Nat × Nat) → Nat → Prop
  | lo, [], hi => lo = hi
  | lo, r :: rest, hi => IsLeast {q | q ∈ M ∧ lo ≤ q} r.1 ∧
      IsLeast {e | e ∉ M ∧ r.1 + g ≤ e} (r.1 + r.2) ∧ Leads M g (r.1 + r.2) rest hi

/-- The greedy cover of `M`. -/
def IsCover (M : Set Nat) (g : Nat) (l : List (Nat × Nat)) : Prop :=
  ∃ hi, Leads M g 0 l hi ∧ ∀ q ∈ M, q < hi

variable {M M' : Set Nat} {g g' lo lo' hi hi' : Nat} {l l' : List (Nat × Nat)} {r : Nat × Nat}

theorem leads_append (a b : List (Nat × Nat)) :
    Leads M g lo (a ++ b) hi ↔ ∃ mid, Leads M g lo a mid ∧ Leads M g mid b hi := by
  induction a generalizing lo with
  | nil => simp [Leads]
  | cons r rest ih => simp only [List.cons_append, Leads, ih, ← exists_and_left, and_assoc]

/-- Where the last run ends the runs end. -/
theorem Leads.stop_eq (h : Leads M g lo (l ++ [r]) hi) : r.1 + r.2 = hi := by
  obtain ⟨_, _, _, _, hend⟩ := (leads_append _ _).mp h
  exact hend

theorem Leads.le (h : Leads M g lo l hi) : lo ≤ hi := by
  induction l generalizing lo with
  | nil => exact h.le
  | cons r rest ih =>
    obtain ⟨hstart, hstop, hrest⟩ := h
    have hle := hstart.1.2
    have hend := hstop.1.2
    have := ih hrest
    omega

/-- What lies past the runs does not matter to them. -/
theorem Leads.congr (h : Leads M g lo l hi) (hM : ∀ q ≤ hi, q ∈ M ↔ q ∈ M') : Leads M' g lo l hi := by
  induction l generalizing lo with
  | nil => exact h
  | cons r rest ih =>
    obtain ⟨hstart, hstop, hrest⟩ := h
    have hle := hrest.le
    have hend := hstop.1.2
    refine ⟨⟨⟨(hM r.1 (by omega)).mp hstart.1.1, hstart.1.2⟩, fun q hq => ?_⟩,
      ⟨⟨fun hmem => hstop.1.1 ((hM _ hle).mpr hmem), hend⟩, fun e he => ?_⟩, ih hrest⟩
    · rcases Nat.lt_or_ge hi q with hpast | hwithin
      · omega
      · exact hstart.2 ⟨(hM q hwithin).mpr hq.1, hq.2⟩
    · rcases Nat.lt_or_ge hi e with hpast | hwithin
      · omega
      · exact hstop.2 ⟨fun hmem => he.1 ((hM e hwithin).mp hmem), he.2⟩

/-! ### What the cover is -/

section Runs

theorem Leads.mem (h : Leads M g lo l hi) (hr : r ∈ l) :
    (r.1 ∈ M ∧ lo ≤ r.1) ∧ IsLeast {e | e ∉ M ∧ r.1 + g ≤ e} (r.1 + r.2) := by
  induction l generalizing lo with
  | nil => cases hr
  | cons t rest ih =>
    obtain ⟨hstart, hstop, hrest⟩ := h
    rcases List.mem_cons.mp hr with rfl | hr
    · exact ⟨hstart.1, hstop⟩
    · obtain ⟨⟨hmem, hle⟩, hleast⟩ := ih hrest hr
      have := hstart.1.2
      exact ⟨⟨hmem, by omega⟩, hleast⟩

/-- Every position of `M` is passed by some run. -/
theorem Leads.covers (h : Leads M g lo l hi) {q : Nat} (hq : q ∈ M) (hlo : lo ≤ q) (hhi : q < hi) :
    ∃ r ∈ l, r.1 ≤ q ∧ q < r.1 + r.2 := by
  induction l generalizing lo with
  | nil =>
    have heq : lo = hi := h
    omega
  | cons t rest ih =>
    obtain ⟨hstart, hstop, hrest⟩ := h
    rcases Nat.lt_or_ge q (t.1 + t.2) with hinside | hpast
    · exact ⟨t, List.mem_cons_self .., hstart.2 ⟨hq, hlo⟩, hinside⟩
    · obtain ⟨r, hr, hrange⟩ := ih hrest hpast
      exact ⟨r, List.mem_cons_of_mem _ hr, hrange⟩

/-- Between two runs there is a position of neither. -/
theorem Leads.sorted (h : Leads M g lo l hi) : l.Pairwise fun a b => a.1 + a.2 < b.1 := by
  induction l generalizing lo with
  | nil => exact .nil
  | cons t rest ih =>
    obtain ⟨_, hstop, hrest⟩ := h
    refine List.pairwise_cons.mpr ⟨fun r hr => ?_, ih hrest⟩
    obtain ⟨⟨hmem, hle⟩, _⟩ := hrest.mem hr
    have hne : t.1 + t.2 ≠ r.1 := fun heq => hstop.1.1 (heq ▸ hmem)
    omega

/-- Runs that are all of a length are the runs a cover of that length opens. -/
theorem Leads.raise (h : Leads M g lo l hi) (hlength : ∀ r ∈ l, g' ≤ r.2) (hle : g ≤ g') :
    Leads M g' lo l hi := by
  induction l generalizing lo with
  | nil => exact h
  | cons t rest ih =>
    obtain ⟨hstart, hstop, hrest⟩ := h
    obtain ⟨hfirst, hothers⟩ := List.forall_mem_cons.mp hlength
    refine ⟨hstart, ⟨⟨hstop.1.1, by omega⟩, fun e he => ?_⟩, ih hrest hothers⟩
    have hpast := he.2
    exact hstop.2 ⟨he.1, by omega⟩

/-- All of `M` from `lo` on is passed by one sequence of runs only. -/
theorem Leads.unique (h : Leads M g lo l hi) (h' : Leads M g lo l' hi') (hbound : ∀ q ∈ M, q < hi)
    (hbound' : ∀ q ∈ M, q < hi') : l = l' := by
  induction l generalizing lo l' with
  | nil =>
    cases l' with
    | nil => rfl
    | cons t rest' =>
      have heq : lo = hi := h
      have hlt := hbound t.1 h'.1.1.1
      have hle := h'.1.1.2
      omega
  | cons r rest ih =>
    cases l' with
    | nil =>
      have heq : lo = hi' := h'
      have hlt := hbound' r.1 h.1.1.1
      have hle := h.1.1.2
      omega
    | cons t rest' =>
      obtain ⟨hstart, hstop, hrest⟩ := h
      obtain ⟨hstart', hstop', hrest'⟩ := h'
      have hfirst := hstart.unique hstart'
      rw [← hfirst] at hstop' hrest'
      have hend := hstop.unique hstop'
      rw [← hend] at hrest'
      rw [ih hrest hrest', Prod.ext hfirst (by omega)]

/-- A greedier cover that starts no earlier stays ahead, run for run. -/
theorem Leads.length_le (h : Leads M g lo l hi) (h' : Leads M g' lo' l' hi') (hbound : ∀ q ∈ M, q < hi)
    (hlo : lo ≤ lo') (hle : g ≤ g') : l'.length ≤ l.length := by
  induction l' generalizing lo lo' l with
  | nil => exact Nat.zero_le _
  | cons t rest' ih =>
    obtain ⟨hstart', hstop', hrest'⟩ := h'
    have hle' := hstart'.1.2
    cases l with
    | nil =>
      have heq : lo = hi := h
      have hlt := hbound t.1 hstart'.1.1
      omega
    | cons r rest =>
      obtain ⟨hstart, hstop, hrest⟩ := h
      have hfirst : r.1 ≤ t.1 := hstart.2 ⟨hstart'.1.1, by omega⟩
      have hend' := hstop'.1.2
      have hend : r.1 + r.2 ≤ t.1 + t.2 := hstop.2 ⟨hstop'.1.1, by omega⟩
      exact Nat.succ_le_succ (ih hrest hrest' hend)

end Runs

section Cover

theorem IsCover.start_mem (h : IsCover M g l) (hr : r ∈ l) : r.1 ∈ M := by
  obtain ⟨_, hleads, _⟩ := h
  exact (hleads.mem hr).1.1

theorem IsCover.le_length (h : IsCover M g l) (hr : r ∈ l) : g ≤ r.2 := by
  obtain ⟨_, hleads, _⟩ := h
  have := (hleads.mem hr).2.1.2
  omega

theorem IsCover.covers (h : IsCover M g l) {q : Nat} (hq : q ∈ M) : ∃ r ∈ l, r.1 ≤ q ∧ q < r.1 + r.2 := by
  obtain ⟨_, hleads, hbound⟩ := h
  exact hleads.covers hq (Nat.zero_le _) (hbound q hq)

theorem IsCover.sorted (h : IsCover M g l) : l.Pairwise fun a b => a.1 + a.2 < b.1 := by
  obtain ⟨_, hleads, _⟩ := h
  exact hleads.sorted

/-- Without greed the runs are over nothing else. -/
theorem IsCover.inside (h : IsCover M 0 l) (hr : r ∈ l) {q : Nat} (hq : r.1 ≤ q) (hq' : q < r.1 + r.2) :
    q ∈ M := by
  obtain ⟨_, hleads, _⟩ := h
  by_contra hmem
  have := (hleads.mem hr).2.2 ⟨hmem, hq⟩
  omega

theorem IsCover.raise (h : IsCover M g l) (hlength : ∀ r ∈ l, g' ≤ r.2) (hle : g ≤ g') : IsCover M g' l := by
  obtain ⟨hi, hleads, hbound⟩ := h
  exact ⟨hi, hleads.raise hlength hle, hbound⟩

/-- **The cover is unique.** -/
theorem IsCover.unique (h : IsCover M g l) (h' : IsCover M g l') : l = l' := by
  obtain ⟨hi, hleads, hbound⟩ := h
  obtain ⟨hi', hleads', hbound'⟩ := h'
  exact hleads.unique hleads' hbound hbound'

/-- **Greed never costs more runs.** -/
theorem IsCover.length_le (h : IsCover M g l) (h' : IsCover M g' l') (hle : g ≤ g') :
    l'.length ≤ l.length := by
  obtain ⟨hi, hleads, hbound⟩ := h
  obtain ⟨hi', hleads', _⟩ := h'
  exact hleads.length_le hleads' hbound (le_refl 0) hle

end Cover

/-! ### Taking pieces in -/

/-- The positions some piece is over. -/
def positions (l : List (Nat × Nat)) : Set Nat := {q | ∃ r ∈ l, r.1 ≤ q ∧ q < r.1 + r.2}

theorem positions_nil : positions [] = ∅ := by simp [positions]

theorem positions_append (a b : List (Nat × Nat)) : positions (a ++ b) = positions a ∪ positions b := by
  ext q
  simp only [positions, List.mem_append, Set.mem_ofPred_eq, Set.mem_union, or_and_right, exists_or]

theorem positions_singleton (r : Nat × Nat) : positions [r] = Set.Ico r.1 (r.1 + r.2) := by
  ext q
  simp [positions]

/-- Take in one more piece: past the last run it opens one, and otherwise lengthens the
last run as far as it goes beyond. -/
def add (g : Nat) (kept : List (Nat × Nat)) (r : Nat × Nat) : List (Nat × Nat) :=
  match kept with
  | [] => [(r.1, max r.2 g)]
  | last :: rest =>
    if last.1 + last.2 < r.1 then (r.1, max r.2 g) :: last :: rest
    else (last.1, max last.2 (r.1 + r.2 - last.1)) :: rest

/-- What taking in a piece does. -/
theorem add_cases (g : Nat) (kept : List (Nat × Nat)) (r : Nat × Nat) :
    ((∀ last ∈ kept.head?, last.1 + last.2 < r.1) ∧ add g kept r = (r.1, max r.2 g) :: kept) ∨
    ∃ last rest, kept = last :: rest ∧ r.1 ≤ last.1 + last.2 ∧
      add g kept r = (last.1, max last.2 (r.1 + r.2 - last.1)) :: rest := by
  cases kept with
  | nil => exact .inl ⟨by simp, rfl⟩
  | cons last rest =>
    unfold add
    dsimp only
    split
    · rename_i hpast
      refine .inl ⟨fun t ht => ?_, rfl⟩
      cases ht
      exact hpast
    · rename_i hreach
      exact .inr ⟨last, rest, rfl, Nat.le_of_not_lt hreach, rfl⟩

/-- A piece that, as far as it lies before a position of `D`, is in `D` itself. -/
def Behind (D : Set Nat) (r : Nat × Nat) : Prop :=
  ∀ q, r.1 ≤ q → q < r.1 + r.2 → ∀ p ∈ D, q < p → q ∈ D

/-- Each piece lies behind those before it. -/
def Backfilled (D : Set Nat) : List (Nat × Nat) → Prop
  | [] => True
  | r :: rest => Behind D r ∧ Backfilled (D ∪ Set.Ico r.1 (r.1 + r.2)) rest

theorem backfilled_append {D : Set Nat} (a b : List (Nat × Nat)) :
    Backfilled D (a ++ b) ↔ Backfilled D a ∧ Backfilled (D ∪ positions a) b := by
  induction a generalizing D with
  | nil => simp [Backfilled, positions_nil]
  | cons r rest ih =>
    rw [List.cons_append, Backfilled, Backfilled, ih, and_assoc, Set.union_assoc, ← positions_singleton,
      ← positions_append, List.singleton_append]

/-- Pieces in order, past all there was, are backfilled. -/
theorem backfilled_of_sorted {D : Set Nat} (hsorted : l.Pairwise fun a b => a.1 + a.2 < b.1)
    (hpast : ∀ r ∈ l, Behind D r) : Backfilled D l := by
  induction l generalizing D with
  | nil => trivial
  | cons r rest ih =>
    obtain ⟨hfirst, hothers⟩ := List.forall_mem_cons.mp hpast
    obtain ⟨hhead, htail⟩ := List.pairwise_cons.mp hsorted
    refine ⟨hfirst, ih htail fun t ht q hq hq' p hp hlt => ?_⟩
    rcases hp with hp | hp
    · exact .inl (hothers t ht q hq hq' p hp hlt)
    · have := hhead t ht
      have := hp.2
      omega

section Add
variable {D : Set Nat} {kept : List (Nat × Nat)}

/-- A piece past all runs opens a new one. -/
theorem leads_open (hleads : Leads D g lo l hi) (hbound : ∀ q ∈ D, q < hi) (hpast : l = [] ∨ hi < r.1)
    (hlo : lo ≤ r.1) (hr : 0 < r.2) :
    Leads (D ∪ Set.Ico r.1 (r.1 + r.2)) g lo (l ++ [(r.1, max r.2 g)]) (r.1 + max r.2 g) := by
  have hle : hi ≤ r.1 := by
    rcases hpast with rfl | hlt
    · have heq : lo = hi := hleads
      omega
    · exact hlt.le
  have hbefore : Leads (D ∪ Set.Ico r.1 (r.1 + r.2)) g lo l hi := by
    rcases hpast with rfl | hlt
    · exact hleads
    · refine hleads.congr fun q hq => ⟨.inl, fun hmem => hmem.resolve_right fun hrange => ?_⟩
      have := hrange.1
      omega
  refine (leads_append _ _).mpr ⟨hi, hbefore, ⟨⟨.inr ⟨le_refl _, by omega⟩, hle⟩, fun q hq => ?_⟩,
    ⟨⟨fun hmem => ?_, Nat.add_le_add_left (le_max_right _ _) _⟩, fun e he => ?_⟩, rfl⟩
  · rcases hq.1 with hmem | hrange
    · have := hbound q hmem
      have := hq.2
      omega
    · exact hrange.1
  · rcases hmem with hmem | hrange
    · have := hbound _ hmem
      omega
    · have := hrange.2
      omega
  · have hge := he.2
    have hout : ¬ (r.1 ≤ e ∧ e < r.1 + r.2) := fun hrange => he.1 (.inr hrange)
    simp only at hge ⊢
    omega

/-- A piece that begins within the last run, or before it, lengthens that one. -/
theorem leads_lengthen {last : Nat × Nat} (hleads : Leads D g lo (l ++ [last]) hi)
    (hbound : ∀ q ∈ D, q < hi) (hreach : r.1 ≤ hi) (hbehind : Behind D r) :
    Leads (D ∪ Set.Ico r.1 (r.1 + r.2)) g lo (l ++ [(last.1, max last.2 (r.1 + r.2 - last.1))])
      (max hi (r.1 + r.2)) := by
  obtain ⟨mid, hbefore, hstart, hstop, hend⟩ := (leads_append _ _).mp hleads
  have hend : last.1 + last.2 = hi := hend
  -- Of the piece only what lies past the start of the last run is new.
  have hnew : ∀ q ≤ last.1, q ∈ D ↔ q ∈ D ∪ Set.Ico r.1 (r.1 + r.2) := by
    refine fun q hq => ⟨.inl, fun hmem => hmem.elim id fun hrange => ?_⟩
    rcases hq.lt_or_eq with hlt | rfl
    · exact hbehind q hrange.1 hrange.2 last.1 hstart.1.1 hlt
    · exact hstart.1.1
  have hmid := hstart.1.2
  refine (leads_append _ _).mpr ⟨mid, hbefore.congr fun q hq => hnew q (by omega),
    ⟨⟨.inl hstart.1.1, hmid⟩, fun q hq => ?_⟩, ⟨⟨fun hmem => ?_, ?_⟩, fun e he => ?_⟩, ?_⟩
  · rcases Nat.lt_or_ge q last.1 with hlt | hge
    · exact hstart.2 ⟨(hnew q hlt.le).mpr hq.1, hq.2⟩
    · exact hge
  · rcases hmem with hmem | hrange
    · have := hbound _ hmem
      simp only at this
      omega
    · have := hrange.2
      simp only at this
      omega
  · have := hstop.1.2
    simp only
    omega
  · have hout : ¬ (r.1 ≤ e ∧ e < r.1 + r.2) := fun hrange => he.1 (.inr hrange)
    have hle : last.1 + last.2 ≤ e := hstop.2 ⟨fun hmem => he.1 (.inl hmem), he.2⟩
    simp only
    omega
  · show last.1 + max last.2 (r.1 + r.2 - last.1) = max hi (r.1 + r.2)
    omega

/-- **One turn**: the cover of what was seen becomes that of what is seen now. -/
theorem isCover_add (h : IsCover D g kept.reverse) (hr : 0 < r.2) (hbehind : Behind D r) :
    IsCover (D ∪ Set.Ico r.1 (r.1 + r.2)) g (add g kept r).reverse := by
  obtain ⟨hi, hleads, hbound⟩ := h
  have hgrown : ∀ hi', hi ≤ hi' → r.1 + r.2 ≤ hi' → ∀ q ∈ D ∪ Set.Ico r.1 (r.1 + r.2), q < hi' := by
    intro hi' hle hle' q hq
    rcases hq with hq | hq
    · exact (hbound q hq).trans_le hle
    · exact hq.2.trans_le hle'
  cases add_cases g kept r with
  | inl hopen =>
    obtain ⟨hpast, heq⟩ := hopen
    have hstop : r.1 + r.2 ≤ r.1 + max r.2 g := Nat.add_le_add_left (le_max_left _ _) _
    rw [heq, List.reverse_cons]
    cases kept with
    | nil =>
      have hnone : 0 = hi := hleads
      exact ⟨_, leads_open hleads hbound (.inl rfl) (Nat.zero_le _) hr, hgrown _ (by omega) hstop⟩
    | cons last rest =>
      have hlt := hpast last rfl
      rw [List.reverse_cons] at hleads ⊢
      rw [hleads.stop_eq] at hlt
      exact ⟨_, leads_open hleads hbound (.inr hlt) (Nat.zero_le _) hr, hgrown _ (by omega) hstop⟩
  | inr hreach =>
    obtain ⟨last, rest, rfl, hreach, heq⟩ := hreach
    rw [List.reverse_cons] at hleads
    rw [hleads.stop_eq] at hreach
    rw [heq, List.reverse_cons]
    exact ⟨_, leads_lengthen hleads hbound hreach hbehind, hgrown _ (le_max_left _ _) (le_max_right _ _)⟩

/-- **Adding** pieces one after another makes the greedy cover of what they are over. -/
theorem isCover_foldl (h : IsCover D g kept.reverse) (hpos : ∀ r ∈ l, 0 < r.2) (hl : Backfilled D l) :
    IsCover (D ∪ positions l) g (l.foldl (add g) kept).reverse := by
  induction l generalizing D kept with
  | nil => rwa [positions_nil, Set.union_empty]
  | cons r rest ih =>
    obtain ⟨hr, hothers⟩ := List.forall_mem_cons.mp hpos
    rw [← List.singleton_append, positions_append, positions_singleton, ← Set.union_assoc]
    exact ih (isCover_add h hr hl.1) hothers hl.2

/-- From nothing kept, it is the greedy cover of what the pieces are over. -/
theorem isCover_of_backfilled (hpos : ∀ r ∈ l, 0 < r.2) (hl : Backfilled ∅ l) :
    IsCover (positions l) g (l.foldl (add g) []).reverse := by
  have h : IsCover ∅ g ([] : List (Nat × Nat)).reverse := ⟨0, rfl, nofun⟩
  have hcover := isCover_foldl h hpos hl
  rwa [Set.empty_union] at hcover

/-- Without greed, pieces that come in order and apart are kept as they are. -/
theorem foldl_add_of_sorted (hsorted : l.Pairwise fun a b => a.1 + a.2 < b.1)
    (hkept : ∀ last ∈ kept.head?, ∀ r ∈ l, last.1 + last.2 < r.1) :
    l.foldl (add 0) kept = l.reverse ++ kept := by
  induction l generalizing kept with
  | nil => rfl
  | cons r rest ih =>
    obtain ⟨hhead, htail⟩ := List.pairwise_cons.mp hsorted
    have hadd : add 0 kept r = r :: kept := by
      cases add_cases 0 kept r with
      | inl hopen => rw [hopen.2, Nat.max_zero]
      | inr hreach =>
        obtain ⟨last, _, rfl, hreach, _⟩ := hreach
        exact absurd (hkept last rfl r (List.mem_cons_self ..)) (Nat.not_lt_of_le hreach)
    have hnext : ∀ last ∈ (r :: kept).head?, ∀ t ∈ rest, last.1 + last.2 < t.1 := by
      intro last hlast t ht
      cases hlast
      exact hhead t ht
    rw [List.foldl_cons, hadd, ih htail hnext, List.reverse_cons, List.append_assoc, List.singleton_append]

/-- So they are the cover of what they are over. -/
theorem isCover_of_sorted (hpos : ∀ r ∈ l, 0 < r.2) (hsorted : l.Pairwise fun a b => a.1 + a.2 < b.1) :
    IsCover (positions l) 0 l := by
  have hl : Backfilled ∅ l := backfilled_of_sorted hsorted fun _ _ _ _ _ p hp _ => hp.elim
  have hcover := isCover_of_backfilled (g := 0) hpos hl
  rwa [foldl_add_of_sorted hsorted (by simp), List.append_nil, List.reverse_reverse] at hcover

end Add

/-! ### Pieces in order

Pieces that come in order may be empty, lie within one another, touch or repeat. -/

section Merge
variable {pieces kept : List (Nat × Nat)} {last : Nat × Nat}

/-- The runs `l` are the pieces merged: in order and apart, each from where a piece begins
and of a length at least, and every piece within one of them. Without greed they are over
what the pieces are over. -/
structure Merged (g : Nat) (pieces l : List (Nat × Nat)) : Prop where
  sorted : l.Pairwise fun a b => a.1 + a.2 < b.1
  starts : ∀ t ∈ l, ∃ r ∈ pieces, t.1 = r.1
  length : ∀ t ∈ l, g ≤ t.2
  within : ∀ r ∈ pieces, ∃ t ∈ l, t.1 ≤ r.1 ∧ r.1 + r.2 ≤ t.1 + t.2
  exact : g = 0 → positions l = positions pieces

theorem merged_nil : Merged g [] [] := ⟨.nil, nofun, nofun, nofun, fun _ => rfl⟩

/-- A piece past all runs opens a new one. -/
theorem Merged.openRun (h : Merged g pieces l) (hpast : ∀ t ∈ l, t.1 + t.2 < r.1) :
    Merged g (pieces ++ [r]) (l ++ [(r.1, max r.2 g)]) where
  sorted := by
    refine List.pairwise_append.mpr ⟨h.sorted, List.pairwise_singleton .., fun t ht => ?_⟩
    exact List.forall_mem_singleton.mpr (hpast t ht)
  starts := by
    refine List.forall_mem_append.mpr ⟨fun t ht => ?_, List.forall_mem_singleton.mpr ?_⟩
    · obtain ⟨u, hu, heq⟩ := h.starts t ht
      exact ⟨u, List.mem_append_left _ hu, heq⟩
    · exact ⟨r, List.mem_append_right _ (List.mem_singleton_self r), rfl⟩
  length := List.forall_mem_append.mpr ⟨h.length, List.forall_mem_singleton.mpr (le_max_right _ _)⟩
  within := by
    refine List.forall_mem_append.mpr ⟨fun u hu => ?_, List.forall_mem_singleton.mpr ?_⟩
    · obtain ⟨t, ht, hwithin⟩ := h.within u hu
      exact ⟨t, List.mem_append_left _ ht, hwithin⟩
    · refine ⟨_, List.mem_append_right _ (List.mem_singleton_self _), le_refl _, ?_⟩
      exact Nat.add_le_add_left (le_max_left _ _) _
  exact hg := by
    rw [positions_append, positions_append, h.exact hg, hg, positions_singleton, positions_singleton,
      Nat.max_zero]

/-- A piece that begins within the last run lengthens it as far as it goes beyond. -/
theorem Merged.lengthen (h : Merged g pieces (l ++ [last])) (hafter : last.1 ≤ r.1)
    (hreach : r.1 ≤ last.1 + last.2) :
    Merged g (pieces ++ [r]) (l ++ [(last.1, max last.2 (r.1 + r.2 - last.1))]) where
  sorted := by
    obtain ⟨hbefore, _, hpast⟩ := List.pairwise_append.mp h.sorted
    refine List.pairwise_append.mpr ⟨hbefore, List.pairwise_singleton .., fun t ht => ?_⟩
    exact List.forall_mem_singleton.mpr (hpast t ht last (List.mem_singleton_self _))
  starts := by
    have hkept : ∀ t ∈ l ++ [last], ∃ u ∈ pieces ++ [r], t.1 = u.1 := by
      intro t ht
      obtain ⟨u, hu, heq⟩ := h.starts t ht
      exact ⟨u, List.mem_append_left _ hu, heq⟩
    obtain ⟨hbefore, hlast⟩ := List.forall_mem_append.mp hkept
    have hstart := List.forall_mem_singleton.mp hlast
    exact List.forall_mem_append.mpr ⟨hbefore, List.forall_mem_singleton.mpr hstart⟩
  length := by
    obtain ⟨hbefore, hlast⟩ := List.forall_mem_append.mp h.length
    refine List.forall_mem_append.mpr ⟨hbefore, List.forall_mem_singleton.mpr ?_⟩
    exact (List.forall_mem_singleton.mp hlast).trans (le_max_left _ _)
  within := by
    have hmem := List.mem_append_right l (List.mem_singleton_self (last.1, max last.2 (r.1 + r.2 - last.1)))
    refine List.forall_mem_append.mpr ⟨fun u hu => ?_, List.forall_mem_singleton.mpr ⟨_, hmem, hafter, ?_⟩⟩
    · obtain ⟨t, ht, hstart, hstop⟩ := h.within u hu
      cases List.mem_append.mp ht with
      | inl ht => exact ⟨t, List.mem_append_left _ ht, hstart, hstop⟩
      | inr ht =>
        cases List.mem_singleton.mp ht
        exact ⟨_, hmem, hstart, hstop.trans (Nat.add_le_add_left (le_max_left _ _) _)⟩
    · dsimp only
      omega
  exact hg := by
    have hgrown : Set.Ico last.1 (last.1 + max last.2 (r.1 + r.2 - last.1)) =
        Set.Ico last.1 (last.1 + last.2) ∪ Set.Ico r.1 (r.1 + r.2) := by
      ext q
      simp only [Set.mem_Ico, Set.mem_union]
      omega
    have hexact := h.exact hg
    rw [positions_append, positions_singleton] at hexact
    rw [positions_append, positions_append, positions_singleton, positions_singleton, hgrown,
      ← Set.union_assoc, hexact]

/-- **One turn**: a piece that begins no earlier than those merged is merged with them. -/
theorem Merged.add (h : Merged g pieces kept.reverse) (hle : ∀ p ∈ pieces, p.1 ≤ r.1) :
    Merged g (pieces ++ [r]) (add g kept r).reverse := by
  cases add_cases g kept r with
  | inl hopen =>
    obtain ⟨hpast, heq⟩ := hopen
    rw [heq, List.reverse_cons]
    refine h.openRun fun t ht => ?_
    cases kept with
    | nil => cases ht
    | cons last rest =>
      have hsorted := List.pairwise_reverse.mp h.sorted
      have hlast := hpast last rfl
      cases List.mem_cons.mp (List.mem_reverse.mp ht) with
      | inl hsame => exact hsame ▸ hlast
      | inr ht =>
        have := List.rel_of_pairwise_cons hsorted ht
        omega
  | inr hreach =>
    obtain ⟨last, rest, rfl, hreach, heq⟩ := hreach
    rw [heq, List.reverse_cons]
    rw [List.reverse_cons] at h
    obtain ⟨p, hp, hstart⟩ := h.starts last (List.mem_append_right _ (List.mem_singleton_self _))
    exact h.lengthen (hstart ▸ hle p hp) hreach

theorem Merged.foldl (h : Merged g pieces kept.reverse) (hle : ∀ p ∈ pieces, ∀ r ∈ l, p.1 ≤ r.1)
    (hsorted : l.Pairwise fun a b => a.1 ≤ b.1) :
    Merged g (pieces ++ l) (l.foldl (Greedy.add g) kept).reverse := by
  induction l generalizing pieces kept with
  | nil => rwa [List.append_nil]
  | cons r rest ih =>
    obtain ⟨hhead, htail⟩ := List.pairwise_cons.mp hsorted
    have hstep := h.add fun p hp => hle p hp r (List.mem_cons_self ..)
    have hnext : ∀ p ∈ pieces ++ [r], ∀ t ∈ rest, p.1 ≤ t.1 := List.forall_mem_append.mpr
      ⟨fun p hp t ht => hle p hp t (List.mem_cons_of_mem _ ht), List.forall_mem_singleton.mpr hhead⟩
    rw [List.append_cons, List.foldl_cons]
    exact ih hstep hnext htail

/-- **Pieces in order**, added one after another, are merged. -/
theorem merged_of_sorted (hsorted : l.Pairwise fun a b => a.1 ≤ b.1) :
    Merged g l (l.foldl (add g) []).reverse := by
  have h : Merged g [] ([] : List (Nat × Nat)).reverse := merged_nil
  exact h.foldl (fun p hp => by cases hp) hsorted

/-- Whatever the order of the pieces, no run is shorter than the greed wants. -/
theorem le_length_foldl (h : ∀ t ∈ kept, g ≤ t.2) : ∀ t ∈ l.foldl (add g) kept, g ≤ t.2 := by
  induction l generalizing kept with
  | nil => exact h
  | cons r rest ih =>
    refine ih ?_
    cases add_cases g kept r with
    | inl hopen =>
      rw [hopen.2]
      exact List.forall_mem_cons.mpr ⟨le_max_right _ _, h⟩
    | inr hreach =>
      obtain ⟨last, others, rfl, _, heq⟩ := hreach
      obtain ⟨hlast, hothers⟩ := List.forall_mem_cons.mp h
      rw [heq]
      exact List.forall_mem_cons.mpr ⟨hlast.trans (le_max_left _ _), hothers⟩

end Merge

end Greedy
