import Svfs.Library.Demand

/-! Where the runs of a set begin.

A set of positions has as many runs as starts. A demand that is served in `k` pieces joins
what lies between them, so that `k` and the runs there are afterwards are two more than the
runs there were, at most (`length_add_ncard_starts_le`): over many demands the pieces are
paid for by the misses, two for each. -/
namespace Demand
open Segments (Attached IsRun Separated support)

/-- The positions of a set that a run of it begins at. -/
def starts (H : Set Nat) : Set Nat := {x | x ∈ H ∧ ∀ p, p + 1 = x → p ∉ H}

variable {H : Set Nat} {g lo hi p : Nat} {d : Nat × Nat} {ts : List (Nat × Nat)}

theorem starts_subset : starts H ⊆ H := fun _ hx => hx.1

/-- A run that includes a position begins somewhere before it. -/
theorem exists_start (hp : p ∈ H) : ∃ x ∈ starts H, x ≤ p ∧ ∀ q, x ≤ q → q ≤ p → q ∈ H := by
  induction p with
  | zero =>
    refine ⟨0, ⟨hp, fun q hq => by omega⟩, le_refl _, fun q _ hq => ?_⟩
    rwa [Nat.le_zero.mp hq]
  | succ p ih =>
    by_cases hbefore : p ∈ H
    · obtain ⟨x, hx, hle, hrun⟩ := ih hbefore
      refine ⟨x, hx, by omega, fun q hxq hq => ?_⟩
      rcases hq.lt_or_eq with hlt | rfl
      · exact hrun q hxq (by omega)
      · exact hp
    · refine ⟨p + 1, ⟨hp, fun q hq => ?_⟩, le_refl _, fun q hle hq => ?_⟩
      · rwa [show q = p by omega]
      · rwa [le_antisymm hq hle]

/-- Separated segments begin where the runs of what they hold do. -/
theorem starts_support {α : Type*} {l : List (Segments.Segment α)} (h : Separated l) :
    starts (support l) = {x | x ∈ l.map Prod.fst} := by
  ext x
  constructor
  · rintro ⟨hx, hleft⟩
    obtain ⟨s, hs, hle, hlt⟩ := Segments.mem_support_iff.mp hx
    have hstart : s.1 = x := by
      by_contra hne
      exact hleft (x - 1) (by omega) (Segments.mem_support_iff.mpr ⟨s, hs, by omega, by omega⟩)
    exact List.mem_map.mpr ⟨s, hs, hstart⟩
  · intro hx
    obtain ⟨s, hs, rfl⟩ := List.mem_map.mp hx
    have hrun : IsRun (support l) s.1 (Segments.stop s) := h.isRun_iff.mpr ⟨s, hs, rfl, rfl⟩
    exact ⟨hrun.inside _ (le_refl _) hrun.lt, hrun.left⟩

/-- They are as many. -/
theorem ncard_starts_support {α : Type*} {l : List (Segments.Segment α)} (h : Separated l) :
    (starts (support l)).ncard = l.length := by
  have hnodup : (l.map Prod.fst).Nodup := by
    refine List.pairwise_map.mpr (h.apart.imp fun hlt heq => ?_)
    simp only [Segments.stop] at hlt
    omega
  rw [starts_support h, ← List.coe_toFinset, Set.ncard_coe_finset, List.toFinset_card_of_nodup hnodup,
    List.length_map]

/-! ### What a demand costs -/

/-- Between missing positions that each come just after the set there is a start each. -/
theorem length_le_ncard_starts {ps : List Nat} (hfinite : H.Finite) (hlo : lo ∉ H)
    (hps : ∀ p ∈ ps, p ∉ H ∧ Attached H p ∧ lo < p ∧ p ≤ hi) (hsorted : ps.Pairwise (· < ·)) :
    ps.length ≤ (starts H ∩ Set.Ioo lo hi).ncard := by
  induction ps generalizing lo with
  | nil => exact Nat.zero_le _
  | cons p rest ih =>
    obtain ⟨⟨hmiss, hattached, hafter, hle⟩, hrest⟩ := List.forall_mem_cons.mp hps
    obtain ⟨hhead, htail⟩ := List.pairwise_cons.mp hsorted
    obtain ⟨q, hq, rfl⟩ := hattached.resolve_left hmiss
    obtain ⟨x, hx, hxq, hrun⟩ := exists_start hq
    have hlox : lo < x := by
      by_contra hnot
      exact hlo (hrun lo (by omega) (by omega))
    have hlater := ih hmiss (fun r hr => ⟨(hrest r hr).1, (hrest r hr).2.1, hhead r hr, (hrest r hr).2.2.2⟩) htail
    have hsubset : insert x (starts H ∩ Set.Ioo (q + 1) hi) ⊆ starts H ∩ Set.Ioo lo hi := by
      refine Set.insert_subset ⟨hx, hlox, by omega⟩ fun y hy => ?_
      exact ⟨hy.1, by have := hy.2.1; omega, hy.2.2⟩
    have hfin : (starts H ∩ Set.Ioo (q + 1) hi).Finite := hfinite.subset fun y hy => starts_subset hy.1
    have hnew : x ∉ starts H ∩ Set.Ioo (q + 1) hi := fun hmem => by
      have := hmem.2.1
      omega
    calc rest.length + 1 ≤ (starts H ∩ Set.Ioo (q + 1) hi).ncard + 1 := Nat.succ_le_succ hlater
      _ = (insert x (starts H ∩ Set.Ioo (q + 1) hi)).ncard := (Set.ncard_insert_of_notMem hnew hfin).symm
      _ ≤ (starts H ∩ Set.Ioo lo hi).ncard :=
        Set.ncard_le_ncard hsubset (hfinite.subset fun y hy => starts_subset hy.1)

/-- The runs of what a demand leaves begin where those before it did, or with the demand, and
not within it. -/
theorem starts_serve_subset (hpositions : Greedy.positions ts = fetched g H d)
    (hstarts : ∀ t ∈ ts, t.1 = d.1 ∨ d.1 < t.1 ∧ Attached H t.1) :
    starts (serve g d H) ⊆ insert d.1 (starts H \ Set.Ioo d.1 (d.1 + d.2)) := by
  rintro x ⟨hx, hleft⟩
  have hout : x ∉ Set.Ioo d.1 (d.1 + d.2) := fun hin =>
    hleft (x - 1) (by have := hin.1; omega) (hit_serve (mem_range.mpr ⟨by have := hin.1; omega, by
      have := hin.2
      omega⟩))
  cases hx with
  | inl hold => exact .inr ⟨⟨hold, fun p hp hmem => hleft p hp (.inl hmem)⟩, hout⟩
  | inr hnew =>
    rw [← hpositions] at hnew
    obtain ⟨t, ht, hle, hlt⟩ := hnew
    have hstart : t.1 = x := by
      by_contra hne
      refine hleft (x - 1) (by omega) (.inr ?_)
      rw [← hpositions]
      exact ⟨t, ht, by omega, by omega⟩
    cases hstarts t ht with
    | inl heq => exact .inl (hstart.symm.trans heq)
    | inr hlater =>
      by_cases hheld : x ∈ H
      · exact .inr ⟨⟨hheld, fun p hp hmem => hleft p hp (.inl hmem)⟩, hout⟩
      · obtain ⟨q, hq, heq⟩ := (hstart ▸ hlater.2).resolve_left hheld
        exact absurd (.inl hq) (hleft q heq)

/-- **The charge.** A demand served in pieces that all begin within it leaves as many runs
fewer as it took pieces, but for two. -/
theorem length_add_ncard_starts_le (hfinite : H.Finite) (hpositions : Greedy.positions ts = fetched g H d)
    (hpieces : ∀ t ∈ ts, t.1 ∈ range d \ H ∧ (t.1 = d.1 ∨ d.1 < t.1 ∧ Attached H t.1))
    (hsorted : ts.Pairwise fun a b => a.1 < b.1) :
    ts.length + (starts (serve g d H)).ncard ≤ (starts H).ncard + 2 := by
  have hfin : (starts H).Finite := hfinite.subset starts_subset
  have hbefore := Set.ncard_inter_add_ncard_sdiff_eq_ncard (starts H) (Set.Ioo d.1 (d.1 + d.2)) hfin
  have hafter : (starts (serve g d H)).ncard ≤ (starts H \ Set.Ioo d.1 (d.1 + d.2)).ncard + 1 :=
    calc (starts (serve g d H)).ncard
      _ ≤ (insert d.1 (starts H \ Set.Ioo d.1 (d.1 + d.2))).ncard :=
        Set.ncard_le_ncard (starts_serve_subset hpositions fun t ht => (hpieces t ht).2) (hfin.sdiff.insert _)
      _ ≤ _ := Set.ncard_insert_le _ _
  cases ts with
  | nil =>
    rw [List.length_nil]
    omega
  | cons t rest =>
    obtain ⟨⟨hfirst, _⟩, hrest⟩ := List.forall_mem_cons.mp hpieces
    obtain ⟨hhead, htail⟩ := List.pairwise_cons.mp hsorted
    have hle := hfirst.1.1
    -- Each piece but the first begins just after a run that the demand joins to others.
    have hjoined : rest.length ≤ (starts H ∩ Set.Ioo t.1 (d.1 + d.2)).ncard := by
      rw [← @List.length_map _ _ rest Prod.fst]
      refine length_le_ncard_starts hfinite hfirst.2 (fun p hp => ?_) (List.pairwise_map.mpr htail)
      obtain ⟨u, hu, rfl⟩ := List.mem_map.mp hp
      obtain ⟨⟨hrange, hmiss⟩, hstart⟩ := hrest u hu
      have hlt := hhead u hu
      have hattached : Attached H u.1 := by
        cases hstart with
        | inl heq => omega
        | inr hlater => exact hlater.2
      exact ⟨hmiss, hattached, hlt, hrange.2.le⟩
    have hwithin : (starts H ∩ Set.Ioo t.1 (d.1 + d.2)).ncard ≤ (starts H ∩ Set.Ioo d.1 (d.1 + d.2)).ncard := by
      apply Set.ncard_le_ncard _ (hfin.inter_of_left _)
      intro y hy
      exact ⟨hy.1, by have := hy.2.1; omega, hy.2.2⟩
    rw [List.length_cons]
    omega

/-! ### How much is fetched -/

/-- Pieces apart are over as many positions as they are long. -/
theorem ncard_positions (h : ts.Pairwise fun a b => a.1 + a.2 < b.1) :
    (Greedy.positions ts).ncard = (ts.map Prod.snd).sum := by
  induction ts with
  | nil => rw [Greedy.positions_nil, Set.ncard_empty, List.map_nil, List.sum_nil]
  | cons t rest ih =>
    obtain ⟨hhead, htail⟩ := List.pairwise_cons.mp h
    have hfin : (Greedy.positions rest).Finite := by
      refine ((List.finite_toSet rest).biUnion fun r _ => Set.finite_Ico r.1 (r.1 + r.2)).subset ?_
      rintro q ⟨r, hr, hq⟩
      exact Set.mem_biUnion hr hq
    have hdisj : Disjoint (Set.Ico t.1 (t.1 + t.2)) (Greedy.positions rest) := by
      apply Set.disjoint_left.mpr
      rintro q hq ⟨r, hr, hle, _⟩
      have := hhead r hr
      have := hq.2
      omega
    have hcard : (Set.Ico t.1 (t.1 + t.2)).ncard = t.2 := by
      rw [← Finset.coe_Ico, Set.ncard_coe_finset, Nat.card_Ico, Nat.add_sub_cancel_left]
    rw [← List.singleton_append, Greedy.positions_append, Greedy.positions_singleton,
      Set.ncard_union_eq hdisj (Set.finite_Ico _ _) hfin, ih htail, hcard]
    simp

end Demand
