import Svfs.Query.Cover

/-! `need` returns exactly the runs that are missing.

It does so for a demand all of whose blocks end within the `size_t` range: then the
walk lists the gaps, and greed merges them into the greedy cover that `need_many`
returns. A block that runs up to or past the end of the range breaks the walk. Begun in
it, a demand is needed although all of it is held; and reached from before, the block is
taken off a demand shorter than it is (`needLoop_unsound`). So the promise holds exactly
where no such block begins before the demand's end (`need_exact_iff`). -/
namespace Svfs
namespace SparseVirtualFile
open Segments (gaps missing IsRun)

/-- What pairs are to be with greed: in order and apart, over all that is missing, each
from a missing position on. -/
structure GreedyExact (s : SparseVirtualFile) (fpos len : Nat) (pieces : List SeekRead) : Prop where
  cover : ∀ p ∈ missing s.segments fpos (fpos + len), Covers pieces p
  starts : ∀ t ∈ pieces, t.1 ∈ missing s.segments fpos (fpos + len)
  sorted : pieces.Pairwise fun a b => a.1 + a.2 < b.1

/-- What `need` promises of a demand: without greed the maximal runs of what is missing,
in order; no assertion that would fail and no difference below zero; and with greed, where
no piece overflows, a cover of what is missing. -/
structure NeedExact (s : SparseVirtualFile) (fpos len : Nat) : Prop where
  runs : ∀ t, t ∈ s.need fpos len 0 ↔ IsRun (missing s.segments fpos (fpos + len)) t.1 (t.1 + t.2)
  sorted : (s.need fpos len 0).Pairwise fun a b => a.1 + a.2 < b.1
  pos : ∀ t ∈ s.need fpos len 0, 0 < t.2
  sound : ∀ greedyLength, ∀ e ∈ (s.needNoLock fpos len greedyLength).2, e.Sound
  greedy : ∀ greedyLength, (∀ p ∈ missing s.segments fpos (fpos + len), p + greedyLength < 2 ^ 64) →
    GreedyExact s fpos len (s.need fpos len greedyLength)

variable {s : SparseVirtualFile} {fpos len greedyLength : Nat}

theorem covers_one {p : Nat} : Covers [(fpos, len)] p ↔ fpos ≤ p ∧ p < fpos + len := by simp [Covers]

/-- One request wants what is missing of it. -/
theorem wanted_one (s : SparseVirtualFile) (fpos len : Nat) :
    s.wanted [(fpos, len)] = missing s.segments fpos (fpos + len) := by
  ext p
  simp only [wanted, missing, held, Set.mem_ofPred_eq, covers_one, and_assoc]

theorem noOverflow_one (hends : s.EndsWithin (fpos + len)) (hfit : fpos + len < 2 ^ 64)
    (hpiece : ∀ p ∈ missing s.segments fpos (fpos + len), p + greedyLength < 2 ^ 64) :
    NoOverflow s [(fpos, len)] greedyLength := by
  refine ⟨fun p hp => ?_, fun p hp iter hiter hle => ?_, by rwa [wanted_one]⟩
  · have := (covers_one.mp hp).2
    omega
  · have := (covers_one.mp hp).2
    exact hends iter hiter (by omega)

/-- Merging the gaps of a demand covers what is missing of it. -/
theorem minimise_gaps_isCover_of_placed (hplaced : Segments.Placed s.segments) (hlen : 0 < len)
    (h : NoOverflow s [(fpos, len)] greedyLength) :
    Greedy.IsCover (missing s.segments fpos (fpos + len)) greedyLength
      (minimiseSeekReads (gaps s.segments fpos (fpos + len)) greedyLength) := by
  have hone : ∀ r ∈ [(fpos, len)], 0 < r.2 := by simpa using hlen
  have hcover := minimise_isCover hplaced hone (List.pairwise_singleton ..) h
  rwa [List.flatMap_singleton, wanted_one] at hcover

/-- The gaps of a demand are the cover, without greed, of what is missing of it. -/
theorem gaps_isCover_of_placed (hplaced : Segments.Placed s.segments) (fpos len : Nat) :
    Greedy.IsCover (missing s.segments fpos (fpos + len)) 0 (gaps s.segments fpos (fpos + len)) := by
  have hpos : ∀ t ∈ gaps s.segments fpos (fpos + len), 0 < t.2 := fun t ht => by
    have := (hplaced.isRun_of_mem_gaps ht).lt
    omega
  have hcover := Greedy.isCover_of_sorted hpos hplaced.gaps_sorted
  rwa [positions_gaps hplaced] at hcover

theorem minimise_gaps_isCover (hsep : Segments.Separated s.segments) (hlen : 0 < len)
    (h : NoOverflow s [(fpos, len)] greedyLength) :
    Greedy.IsCover (missing s.segments fpos (fpos + len)) greedyLength
      (minimiseSeekReads (gaps s.segments fpos (fpos + len)) greedyLength) :=
  minimise_gaps_isCover_of_placed hsep.placed hlen h

theorem gaps_isCover (hsep : Segments.Separated s.segments) (fpos len : Nat) :
    Greedy.IsCover (missing s.segments fpos (fpos + len)) 0 (gaps s.segments fpos (fpos + len)) :=
  gaps_isCover_of_placed hsep.placed fpos len

/-! ### Where every block reached ends within the range -/

/-- **need is exact** for a demand before whose end no block runs out of the range. -/
theorem need_exact_of_placed (hplaced : Segments.Placed s.segments) (hends : s.EndsWithin (fpos + len)) (hlen : 0 < len)
    (hfit : fpos + len < 2 ^ 64) : NeedExact s fpos len := by
  have hgaps : s.need fpos len 0 = gaps s.segments fpos (fpos + len) := by
    rw [need_eq_of_placed hplaced hends hlen hfit, if_neg (by omega)]
  refine ⟨fun t => ?_, ?_, fun t ht => ?_, needNoLock_sound hplaced hends hlen hfit, fun g hpiece => ?_⟩
  · rw [hgaps]
    exact hplaced.mem_gaps_iff
  · rw [hgaps]
    exact hplaced.gaps_sorted
  · rw [hgaps] at ht
    have := (hplaced.isRun_of_mem_gaps ht).lt
    omega
  · have hcover : ∃ g', Greedy.IsCover (missing s.segments fpos (fpos + len)) g' (s.need fpos len g) := by
      rw [need_eq_of_placed hplaced hends hlen hfit]
      split
      · exact ⟨g, minimise_gaps_isCover_of_placed hplaced hlen (noOverflow_one hends hfit hpiece)⟩
      · exact ⟨0, gaps_isCover_of_placed hplaced fpos len⟩
    obtain ⟨_, hcover⟩ := hcover
    exact ⟨fun p hp => hcover.covers hp, fun t ht => hcover.start_mem ht, hcover.sorted⟩

theorem need_exact (hsep : Segments.Separated s.segments) (hends : s.EndsWithin (fpos + len)) (hlen : 0 < len)
    (hfit : fpos + len < 2 ^ 64) : NeedExact s fpos len :=
  need_exact_of_placed hsep.placed hends hlen hfit

/-! ### Where one runs out of it -/

theorem Need.log_suffix_arrive (first : Nat) (n : Need) : n.log <:+ (n.arrive first).log := by
  unfold Need.arrive Need.gap
  dsimp only
  split
  · exact ⟨[_, _, _, _], rfl⟩
  · exact ⟨[_], rfl⟩

/-- The walk only ever adds to its log. -/
theorem needLoop_log (l : List (Nat × Val)) (n : Need) : n.log <:+ (needLoop l n).log := by
  induction l generalizing n with
  | nil =>
    unfold needLoop
    split
    · exact List.suffix_refl _
    · exact List.suffix_refl _
  | cons iter rest ih =>
    by_cases hlen : n.len = 0
    · rw [needLoop_of_done _ hlen]
    · rcases Nat.lt_or_ge iter.1 (sizeAdd n.fpos n.len) with hreach | hbefore
      · have harrive := Need.log_suffix_arrive iter.1 n
        rw [needLoop_reach hlen hreach]
        split
        · exact harrive
        · have hpass : (n.arrive iter.1).log <:+ ((n.arrive iter.1).pass iter.2.data.length).log :=
            List.suffix_cons _ _
          exact (harrive.trans hpass).trans (ih _)
      · rw [needLoop_before hlen hbefore]
        exact List.suffix_refl _

variable {last : Nat × Val}

/-- The end of a block that runs out of the range looks to be before its start. -/
theorem filePositionImmediatlyAfterBlock_lt (hs : Representable s) (hlast : last ∈ s.svf.entries)
    (hends : 2 ^ 64 ≤ last.1 + last.2.data.length) : filePositionImmediatlyAfterBlock last < last.1 := by
  have hsize := hs.size last hlast
  have hafter := hs.after_of_wraps hlast hends
  omega

/-- Reaching a block that runs out of the range, the walk takes more off the demand than
there is of it. -/
theorem needLoop_unsound {l : List (Nat × Val)} {n : Need} (hsep : Segments.Separated (segmentsOf l))
    (hlast : last ∈ l) (hends : 2 ^ 64 ≤ last.1 + last.2.data.length)
    (hafter : filePositionImmediatlyAfterBlock last < last.1)
    (hbefore : ∀ iter ∈ l, n.fpos ≤ iter.1) (hreach : last.1 < n.fpos + n.len)
    (hfit : n.fpos + n.len < 2 ^ 64) (hsound : n.Sound) : ∃ e ∈ (needLoop l n).log, ¬ e.Sound := by
  induction l generalizing n with
  | nil => cases hlast
  | cons iter rest ih =>
    obtain ⟨_, hrest, hsep'⟩ := Segments.separated_cons.mp hsep
    have hle := hbefore iter (List.mem_cons_self ..)
    have hfirst : iter = last ∨ (last ∈ rest ∧ iter.1 + iter.2.data.length < last.1) :=
      (List.mem_cons.mp hlast).imp Eq.symm fun hmem =>
        ⟨hmem, hrest _ (mem_segmentsOf.mpr ⟨last, hmem, rfl⟩)⟩
    have hreach' : iter.1 < n.fpos + n.len := by
      rcases hfirst with rfl | ⟨_, hlt⟩ <;> omega
    obtain ⟨hfpos, hrem, -, hsound'⟩ := Need.arrive_eq hle hreach' hfit hsound
    have hend : sizeAdd (n.arrive iter.1).fpos (n.arrive iter.1).len = n.fpos + n.len := by
      rw [hfpos, hrem, sizeAdd_of_lt (by omega)]
      omega
    have hpast : ¬ n.fpos + n.len ≤ filePositionImmediatlyAfterBlock iter := by
      rcases hfirst with rfl | ⟨_, hlt⟩
      · omega
      · rw [filePositionImmediatlyAfterBlock_of_lt (by omega)]
        omega
    rw [needLoop_reach (by omega) (by rwa [sizeAdd_of_lt hfit]), hend, if_neg hpast]
    rcases hfirst with rfl | ⟨hmem, hlt⟩
    · -- What is left of the demand ends before the block does.
      have hlog : Event.subtract (n.arrive iter.1).len iter.2.data.length ∈
          ((n.arrive iter.1).pass iter.2.data.length).log := List.mem_cons_self ..
      refine ⟨_, (needLoop_log rest _).subset hlog, fun hle' => ?_⟩
      have hle' : iter.2.data.length ≤ (n.arrive iter.1).len := hle'
      omega
    · obtain ⟨hfpos', hlen', -, hsound''⟩ := Need.pass_eq (n := n.arrive iter.1)
        iter.2.data.length (by omega) (by omega) (by omega) hsound'
      exact ih hsep' hmem (fun t ht => by
        have := hrest _ (mem_segmentsOf.mpr ⟨t, ht, rfl⟩)
        simp only [Segments.stop_mk] at this
        omega) (by omega) (by omega) hsound''

/-- What the walk starts on is the part of the demand past the block before. -/
theorem needStart_reach (hsep : Segments.Separated s.segments) {pre rest : List (Nat × Val)}
    (hcut : s.svf.entries = pre ++ rest) (hpre : ∀ iter ∈ pre, iter.1 ≤ fpos)
    (hrest : ∀ iter ∈ rest, fpos < iter.1) (hs : Representable s) (hlast : last ∈ rest)
    (hreach : last.1 < fpos + len) (hfit : fpos + len < 2 ^ 64) :
    (needStart ⟨pre, rest⟩ fpos len).fpos + (needStart ⟨pre, rest⟩ fpos len).len = fpos + len ∧
      (∀ iter ∈ rest, (needStart ⟨pre, rest⟩ fpos len).fpos ≤ iter.1) ∧
      (needStart ⟨pre, rest⟩ fpos len).Sound := by
  rcases List.eq_nil_or_concat' pre with rfl | ⟨front, prev, rfl⟩
  · obtain ⟨first, others, rfl⟩ := List.exists_cons_of_ne_nil (List.ne_nil_of_mem hlast)
    have hsorted : first.1 ≤ last.1 := by
      rcases List.mem_cons.mp hlast with rfl | hmem
      · exact le_refl _
      · exact ((OrderedMap.cut_lt s.svf.sorted hcut).2 last hmem).le
    simp only [needStart, List.getLast?_nil]
    rw [if_neg (by rw [sizeAdd_of_lt hfit]; omega)]
    exact ⟨rfl, fun iter hiter => (hrest iter hiter).le, need_sound_start _ _⟩
  · rw [List.append_assoc, List.singleton_append] at hcut
    have hle := hpre prev (by simp)
    have hafter := (lt_of_separated hsep hcut).2
    have hlt := hafter last hlast
    have hposition := hs.position last (by simp [hcut, hlast])
    have hlastFpos : filePositionImmediatlyAfterBlock prev = prev.1 + prev.2.data.length :=
      filePositionImmediatlyAfterBlock_of_lt (by omega)
    simp only [needStart, List.getLast?_concat, hlastFpos]
    split
    · rw [sizeSub_of_le (a := prev.1 + prev.2.data.length) (by omega) (by omega),
        sizeSub_of_le (a := len) (by omega) (by omega), sizeAdd_of_lt hfit]
      refine ⟨by simp only; omega, fun iter hiter => ?_, fun e he => ?_⟩
      · have := hafter iter hiter
        simp only
        omega
      · rcases List.mem_pair.mp he with rfl | rfl
        · exact min_le_left _ _
        · show fpos ≤ prev.1 + prev.2.data.length
          omega
    · exact ⟨rfl, fun iter hiter => (hrest iter hiter).le, need_sound_start _ _⟩

/-- With a block out of the range begun before its end, a demand is not answered exactly. -/
theorem endsWithin_of_need_exact (hsep : Segments.Separated s.segments) (hs : Representable s)
    (hlen : 0 < len) (hfit : fpos + len < 2 ^ 64) (h : NeedExact s fpos len) : s.EndsWithin (fpos + len) := by
  intro last hlast hreach
  by_contra hends
  have hends : 2 ^ 64 ≤ last.1 + last.2.data.length := by omega
  have hafter := filePositionImmediatlyAfterBlock_lt hs hlast hends
  have hempty : s.svf.isEmpty = false := OrderedMap.isEmpty_eq_false (List.ne_nil_of_mem hlast)
  obtain ⟨pre, rest, hcut, hpre, hrest⟩ := s.svf.cut_at fpos
  rcases Nat.lt_or_ge fpos last.1 with hbefore | hinside
  · have hmem : last ∈ rest := by
      rw [hcut] at hlast
      rcases List.mem_append.mp hlast with hmem | hmem
      · have := hpre last hmem
        omega
      · exact hmem
    have hsep' := separated_after hsep hcut
    obtain ⟨hsum, hstart, hsound⟩ := needStart_reach hsep hcut hpre hrest hs hmem hreach hfit
    obtain ⟨e, he, hunsound⟩ := needLoop_unsound hsep' hmem hends hafter hstart (hsum ▸ hreach)
      (hsum ▸ hfit) hsound
    refine hunsound (h.sound 0 e ?_)
    simp only [needNoLock, hempty, Bool.false_eq_true, if_false, OrderedMap.upperBound_cut hcut hpre hrest]
    split
    · exact List.mem_cons_of_mem _ (List.mem_cons_of_mem _ he)
    · exact List.mem_cons_of_mem _ (List.mem_cons_of_mem _ he)
  · -- All of the demand is held by that block, which the walk takes to end before it.
    obtain ⟨front, others, hcut'⟩ := List.append_of_mem hlast
    have hothers : ∀ next ∈ others, fpos < next.1 := fun next hnext => by
      have := (lt_of_separated hsep hcut').2 next hnext
      omega
    have hall := (allHeld_iff hsep hlen hcut' hinside hothers).mpr (by omega)
    have hneeded : s.need fpos len 0 ≠ [] := by
      rw [ne_eq, need_eq_nil_iff (List.ne_nil_of_mem hlast), upperBound_of_cut hcut' hinside hothers]
      simp only [needStart, List.getLast?_concat]
      rw [if_neg (by omega)]
      exact needLoop_ne_nil hlen.ne' fun next hnext => hothers next (List.mem_of_mem_head? hnext)
    obtain ⟨t, ht⟩ := List.exists_mem_of_ne_nil _ hneeded
    have hrun := (h.runs t).mp ht
    obtain ⟨hlo, hhi, hnone⟩ := hrun.inside t.1 (le_refl _) hrun.lt
    exact hall t.1 hlo hhi hnone

/-- **need is exact** exactly where no block that begins before the demand's end runs out
of the `size_t` range. -/
theorem need_exact_iff (s : SparseVirtualFile) (fpos len : Nat) (hsep : Segments.Separated s.segments)
    (hs : Representable s) (hlen : 0 < len) (hfit : fpos + len < 2 ^ 64) :
    NeedExact s fpos len ↔ s.EndsWithin (fpos + len) :=
  ⟨endsWithin_of_need_exact hsep hs hlen hfit, fun hends => need_exact hsep hends hlen hfit⟩

theorem need_exact_iff_first :
    NeedExact threeBlocks.file 4 30 ↔ threeBlocks.file.EndsWithin (4 + 30) :=
  need_exact_iff threeBlocks.file 4 30 tidy_threeBlocks.separated tidy_threeBlocks.representable (by decide)
    (by decide)

/-- The last position there is but one is held, and needed all the same. -/
theorem not_need_exact : ¬ ∀ (s : SparseVirtualFile) (fpos len : Nat),
    Segments.Separated s.segments → Representable s → 0 < len → fpos + len < 2 ^ 64 →
    NeedExact s fpos len := by
  intro h
  have hexact := h lastBlock.file (2 ^ 64 - 2) 1 separated_lastBlock representable_lastBlock (by decide)
    (by decide)
  have hneeded : (2 ^ 64 - 2, 1) ∈ lastBlock.file.need (2 ^ 64 - 2) 1 0 := by decide
  have hrun := (hexact.runs _).mp hneeded
  have hmissing := hrun.inside (2 ^ 64 - 2) (le_refl _) (by decide)
  have hheld : lastBlock.file.held (2 ^ 64 - 2) = some 1 := by decide
  rw [held, hmissing.2.2] at hheld
  cases hheld

/-! ### need and need_many -/

/-- `need` says of one demand what `need_many` says of it, in pairs as long as the greed
wants. -/
structure NeedsAgree (s : SparseVirtualFile) (fpos len greedyLength : Nat) : Prop where
  same : s.need fpos len greedyLength = s.needMany [(fpos, len)] greedyLength
  length : ∀ t ∈ s.need fpos len greedyLength, greedyLength ≤ t.2

/-- **need and need_many agree** exactly where the greed is for more than the demand, or
for no more than the shortest run that is missing of it. -/
theorem needs_agree_iff (s : SparseVirtualFile) (fpos len greedyLength : Nat)
    (hsep : Segments.Separated s.segments) (hlen : 0 < len) (h : NoOverflow s [(fpos, len)] greedyLength) :
    NeedsAgree s fpos len greedyLength ↔ len < greedyLength ∨
      ∀ lo hi, IsRun (missing s.segments fpos (fpos + len)) lo hi → greedyLength ≤ hi - lo := by
  have hone : ∀ r ∈ [(fpos, len)], 0 < r.2 := by simpa using hlen
  have hmany := needMany_isCover hsep hone h
  rw [wanted_one] at hmany
  have hneed := need_eq hsep (h.endsWithin (List.mem_singleton.mpr rfl) hlen)
    hlen (h.fit (List.mem_singleton.mpr rfl) hlen) greedyLength
  constructor
  · intro hagree
    rcases Nat.lt_or_ge len greedyLength with hlt | hle
    · exact .inl hlt
    · refine .inr fun lo hi hrun => ?_
      rw [if_neg (not_lt.mpr hle)] at hneed
      have hlt := hrun.lt
      have hmem : (lo, hi - lo) ∈ gaps s.segments fpos (fpos + len) := by
        rw [Segments.mem_gaps_iff hsep]
        simpa only [Nat.add_sub_cancel' hlt.le] using hrun
      exact hagree.length (lo, hi - lo) (hneed ▸ hmem)
  · intro hcond
    have hcover : Greedy.IsCover (missing s.segments fpos (fpos + len)) greedyLength
        (s.need fpos len greedyLength) := by
      rw [hneed]
      split
      · exact minimise_gaps_isCover hsep hlen h
      · rename_i hshort
        have hruns := hcond.resolve_left hshort
        refine (gaps_isCover hsep fpos len).raise (fun t ht => ?_) (Nat.zero_le _)
        have := hruns _ _ (Segments.isRun_of_mem_gaps hsep ht)
        omega
    exact ⟨hcover.unique hmany, fun t ht => hcover.le_length ht⟩

theorem needs_agree_iff_first : NeedsAgree threeBlocks.file 8 40 4 ↔ 40 < 4 ∨
    ∀ lo hi, IsRun (missing threeBlocks.file.segments 8 (8 + 40)) lo hi → 4 ≤ hi - lo :=
  needs_agree_iff threeBlocks.file 8 40 4 tidy_threeBlocks.separated (by decide)
    (noOverflow_of_tidy tidy_threeBlocks (by decide))

/-- With greed for less than the demand `need` returns runs shorter than that. -/
theorem not_needs_agree : ¬ ∀ (s : SparseVirtualFile) (fpos len greedyLength : Nat),
    Segments.Separated s.segments → 0 < len → NoOverflow s [(fpos, len)] greedyLength →
    NeedsAgree s fpos len greedyLength := by
  intro h
  have hagree := h threeBlocks.file 8 40 8 tidy_threeBlocks.separated (by decide)
    (noOverflow_of_tidy tidy_threeBlocks (by decide))
  have hneed : threeBlocks.file.need 8 40 8 = [(12, 4), (20, 12), (36, 12)] := by decide
  have hmany : threeBlocks.file.needMany [(8, 40)] 8 = [(12, 20), (36, 12)] := by decide
  have hsame := hagree.same
  rw [hneed, hmany] at hsame
  cases hsame

end SparseVirtualFile
end Svfs
