import Svfs.Library.Demand

/-! Demands in order of their starts.

What is missing of such a demand is one run, so that one piece is fetched for each miss and
no position twice. If every demand is shorter than what is fetched at least, the first
missing positions of the misses lie so far apart that no piece of that length can serve two
of them (`exists_apart`): however the demands are covered by pieces no longer than that, it
takes as many of them (`misses_le_of_cover`), and more greed never makes more misses
(`hits_le_hits`). -/
namespace Demand

variable {g g' p q x : Nat} {H : Set Nat} {d : Nat × Nat} {ds ts : List (Nat × Nat)}

/-! ### One demand -/

/-- After its first missing position nothing is there. -/
theorem OneRunFrom.notMem_of_le (h : OneRunFrom H d.1) (hp : IsLeast (range d \ H) p) (hle : p ≤ q) : q ∉ H :=
  fun hq => hp.1.2 (h q hq p hp.1.1.1 hle)

theorem OneRunFrom.fetched_eq (h : OneRunFrom H d.1) (hp : IsLeast (range d \ H) p) :
    fetched g H d = Set.Ico p (if d.2 < g then p + g else d.1 + d.2) := by
  split
  · rename_i hlt
    exact fetched_of_lt hlt hp
  · rename_i hge
    rw [fetched_of_le (not_lt.mp hge)]
    ext q
    constructor
    · exact fun hq => ⟨hp.2 hq, hq.1.2⟩
    · exact fun hq => ⟨⟨hp.1.1.1.trans hq.1, hq.2⟩, h.notMem_of_le hp hq.1⟩

/-- Nothing is fetched that is there. -/
theorem OneRunFrom.notMem_of_fetched (h : OneRunFrom H d.1) (hq : q ∈ fetched g H d) : q ∉ H := by
  by_cases hhit : Hit H d
  · rw [fetched_of_hit hhit] at hq
    exact hq.elim
  · obtain ⟨p, hp⟩ := exists_first hhit
    rw [h.fetched_eq hp] at hq
    exact h.notMem_of_le hp hq.1

/-- Pieces apart that make one run are one piece. -/
theorem length_le_one_of_positions {stop : Nat} (hapart : ts.Pairwise fun a b => a.1 + a.2 < b.1)
    (hpositions : Greedy.positions ts = Set.Ico p stop) (hpos : ∀ t ∈ ts, 0 < t.2) : ts.length ≤ 1 := by
  cases ts with
  | nil => exact Nat.zero_le 1
  | cons t rest =>
    cases rest with
    | nil => exact le_refl 1
    | cons u rest =>
      obtain ⟨hhead, _⟩ := List.pairwise_cons.mp hapart
      have hgap := hhead u (List.mem_cons_self ..)
      have hmem : ∀ v ∈ t :: u :: rest, v.1 ∈ Set.Ico p stop := by
        intro v hv
        have := hpos v hv
        rw [← hpositions]
        exact ⟨v, hv, le_refl _, by omega⟩
      -- The position after the first piece would be in one of the others.
      have hbetween : t.1 + t.2 ∈ Greedy.positions (t :: u :: rest) := by
        have hfirst := hmem t (List.mem_cons_self ..)
        have hsecond := hmem u (by simp)
        rw [hpositions]
        exact ⟨hfirst.1.trans (Nat.le_add_right _ _), hgap.trans hsecond.2⟩
      obtain ⟨v, hv, hle, hlt⟩ := hbetween
      rcases List.mem_cons.mp hv with rfl | hv
      · omega
      · have := hhead v hv
        omega

/-! ### Runs of demands -/

theorem subset_run_serve (H : Set Nat) (ds : List (Nat × Nat)) : H ⊆ Run.run (serve g) H ds := by
  induction ds generalizing H with
  | nil => exact subset_rfl
  | cons d rest ih => exact Set.subset_union_left.trans (ih (serve g d H))

/-- What is served stays. -/
theorem range_subset_run_serve (hd : d ∈ ds) : range d ⊆ Run.run (serve g) H ds := by
  induction ds generalizing H with
  | nil => cases hd
  | cons e rest ih =>
    rcases List.mem_cons.mp hd with rfl | hd
    · exact hit_serve.trans (subset_run_serve _ rest)
    · exact ih hd

/-- One piece for each miss. -/
theorem exists_pieces (h : OneRunFrom H x) (hx : ∀ d ∈ ds, x ≤ d.1) (hsorted : ds.Pairwise fun a b => a.1 ≤ b.1)
    (hle : g ≤ g') (hshort : ∀ d ∈ ds, d.2 ≤ g') :
    ∃ ts : List (Nat × Nat), ts.length + hits g H ds = ds.length ∧ (∀ t ∈ ts, t.2 ≤ g') ∧
      Run.run (serve g) H ds = H ∪ Greedy.positions ts := by
  induction ds generalizing H x with
  | nil => exact ⟨[], rfl, nofun, by rw [Greedy.positions_nil, Set.union_empty, Run.run]⟩
  | cons d rest ih =>
    obtain ⟨hhead, htail⟩ := List.pairwise_cons.mp hsorted
    obtain ⟨hd, hrest⟩ := List.forall_mem_cons.mp hshort
    have hhere := h.later (hx d (List.mem_cons_self ..))
    obtain ⟨ts, hlength, hts, hrun⟩ := ih hhere.serve hhead htail hrest
    rw [Run.run, hrun, hits]
    by_cases hhit : Hit H d
    · rw [serve_of_hit hhit] at hlength
      rw [if_pos hhit, serve_of_hit hhit]
      exact ⟨ts, by rw [List.length_cons]; omega, hts, rfl⟩
    · obtain ⟨p, hp⟩ := exists_first hhit
      have hfirst := hp.1.1
      rw [mem_range] at hfirst
      rw [if_neg hhit]
      refine ⟨(p, (if d.2 < g then p + g else d.1 + d.2) - p) :: ts, ?_, ?_, ?_⟩
      · rw [List.length_cons, List.length_cons]
        omega
      · refine List.forall_mem_cons.mpr ⟨?_, hts⟩
        dsimp only
        split <;> omega
      · have hstop : p + ((if d.2 < g then p + g else d.1 + d.2) - p) = if d.2 < g then p + g else d.1 + d.2 := by
          split <;> omega
        rw [← List.singleton_append, Greedy.positions_append, Greedy.positions_singleton, hstop, ← hhere.fetched_eq hp,
          serve, Set.union_assoc]

/-- For each miss a position of a demand, so far apart that what is fetched for one of them
does not reach another. -/
theorem exists_apart (hsorted : ds.Pairwise fun a b => a.1 ≤ b.1) (hshort : ∀ d ∈ ds, d.2 < g) :
    ∃ ps : List Nat, ps.length + hits g H ds = ds.length ∧ ps.Pairwise (fun a b => a + g ≤ b) ∧
      ∀ p ∈ ps, p ∉ H ∧ ∃ d ∈ ds, p ∈ range d := by
  induction ds generalizing H with
  | nil => exact ⟨[], rfl, .nil, nofun⟩
  | cons d rest ih =>
    obtain ⟨hhead, htail⟩ := List.pairwise_cons.mp hsorted
    obtain ⟨hd, hrest⟩ := List.forall_mem_cons.mp hshort
    obtain ⟨ps, hlength, hapart, hps⟩ := ih (H := serve g d H) htail hrest
    have hold : ∀ q ∈ ps, q ∉ H ∧ ∃ e ∈ d :: rest, q ∈ range e := by
      intro q hq
      obtain ⟨hnot, e, he, hmem⟩ := hps q hq
      exact ⟨fun hheld => hnot (.inl hheld), e, List.mem_cons_of_mem d he, hmem⟩
    rw [hits]
    by_cases hhit : Hit H d
    · rw [if_pos hhit]
      exact ⟨ps, by rw [List.length_cons]; omega, hapart, hold⟩
    · obtain ⟨p, hp⟩ := exists_first hhit
      rw [if_neg hhit]
      refine ⟨p :: ps, by rw [List.length_cons, List.length_cons]; omega, List.pairwise_cons.mpr ⟨?_, hapart⟩,
        List.forall_mem_cons.mpr ⟨⟨hp.1.2, d, List.mem_cons_self .., hp.1.1⟩, hold⟩⟩
      intro q hq
      obtain ⟨hnot, e, he, hmem⟩ := hps q hq
      by_contra hnear
      -- A later miss is neither among what was fetched for this one nor before it.
      have hbefore : q < p := by
        by_contra hge
        exact hnot (.inr (by rw [fetched_of_lt hd hp]; exact ⟨not_lt.mp hge, not_le.mp hnear⟩))
      have hstart := hhead e he
      have hlast := hp.1.1.2
      exact absurd (hp.2 ⟨⟨hstart.trans hmem.1, by omega⟩, fun hheld => hnot (.inl hheld)⟩) (by omega)

/-- Pieces no longer than the positions are apart serve one of them each. -/
theorem length_le_of_apart {ps : List Nat} (hapart : ps.Pairwise fun a b => a + g ≤ b) (hshort : ∀ t ∈ ts, t.2 ≤ g)
    (hcover : ∀ p ∈ ps, p ∈ Greedy.positions ts) : ps.length ≤ ts.length := by
  choose! piece hpiece using hcover
  have hnodup : (ps.map piece).Nodup := by
    refine List.pairwise_map.mpr (hapart.imp_of_mem fun {a b} ha hb hle heq => ?_)
    obtain ⟨hmem, hfrom, _⟩ := hpiece a ha
    obtain ⟨_, _, hto⟩ := hpiece b hb
    have := hshort _ hmem
    rw [← heq] at hto
    omega
  have hsub : ps.map piece ⊆ ts := by
    intro t ht
    obtain ⟨p, hp, rfl⟩ := List.mem_map.mp ht
    exact (hpiece p hp).1
  rw [← List.length_map piece]
  exact (hnodup.subperm hsub).length_le

/-- **As few pieces as there can be.** Pieces no longer than what is fetched at least that
together have all the demands are as many as the misses. -/
theorem misses_le_of_cover (hsorted : ds.Pairwise fun a b => a.1 ≤ b.1) (hshort : ∀ d ∈ ds, d.2 < g)
    (hts : ∀ t ∈ ts, t.2 ≤ g) (hcover : ∀ d ∈ ds, range d ⊆ H ∪ Greedy.positions ts) :
    ds.length ≤ hits g H ds + ts.length := by
  obtain ⟨ps, hlength, hapart, hps⟩ := exists_apart (H := H) hsorted hshort
  have := length_le_of_apart hapart hts fun p hp => by
    obtain ⟨hnot, d, hd, hmem⟩ := hps p hp
    exact (hcover d hd hmem).resolve_left hnot
  omega

/-- **More greed, no fewer hits**, if it is for more than any demand. -/
theorem hits_le_hits (h : OneRunFrom H x) (hx : ∀ d ∈ ds, x ≤ d.1) (hsorted : ds.Pairwise fun a b => a.1 ≤ b.1)
    (hle : g ≤ g') (hshort : ∀ d ∈ ds, d.2 < g') : hits g H ds ≤ hits g' H ds := by
  obtain ⟨ts, hlength, hts, hrun⟩ := exists_pieces h hx hsorted hle fun d hd => (hshort d hd).le
  have := misses_le_of_cover hsorted hshort hts fun d hd => by
    rw [← hrun]
    exact range_subset_run_serve hd
  omega

end Demand
