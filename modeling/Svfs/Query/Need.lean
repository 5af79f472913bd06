import Svfs.Library.Gaps
import Svfs.Query.Agree
import Svfs.Write.Steps

/-! `need` lists the gaps.

The walk of `need` over the blocks is the walk that lists the gaps of segments in order
(`needLoop_done`), so that without greed it returns the maximal runs missing from the
demand (`need_eq`). On the way every assertion would pass and no difference
goes below zero. -/
namespace Svfs
open Segments (gaps whole)

namespace SparseVirtualFile

/-- Nothing in the log to complain about. -/
def Need.Sound (n : Need) : Prop := ∀ e ∈ n.log, e.Sound

/-- The demand is done, with these gaps added to what is needed. -/
structure Need.Done (n : Need) (found : List SeekRead) (n' : Need) : Prop where
  ret : n'.ret = n.ret ++ found
  fpos : n'.fpos = n.fpos + n.len
  len : n'.len = 0
  sound : n'.Sound

section Steps
variable {n : Need} {first : Nat}

theorem Need.finish_done (hlen : n.len ≠ 0) (hfit : n.fpos + n.len < 2 ^ 64) (hsound : n.Sound) :
    n.Done (whole n.fpos (n.fpos + n.len)) n.finish := by
  refine ⟨?_, sizeAdd_of_lt hfit, rfl, hsound⟩
  simp only [Need.finish, whole, if_pos (show n.fpos < n.fpos + n.len by omega), Nat.add_sub_cancel_left]

/-- In front of a block the demand moves up to it, and what it passes is needed. -/
theorem Need.arrive_eq (hle : n.fpos ≤ first) (hreach : first < n.fpos + n.len)
    (hfit : n.fpos + n.len < 2 ^ 64) (hsound : n.Sound) :
    (n.arrive first).fpos = first ∧ (n.arrive first).len = n.fpos + n.len - first ∧
      (n.arrive first).ret = n.ret ++ whole n.fpos first ∧ (n.arrive first).Sound := by
  rcases hle.lt_or_eq with hlt | heq
  · have hadded : sizeSub first n.fpos = first - n.fpos := sizeSub_of_le hle (by omega)
    have hfpos : sizeAdd n.fpos (first - n.fpos) = first := by
      rw [sizeAdd_of_lt (by omega)]
      omega
    have hlen : sizeSub n.len (first - n.fpos) = n.fpos + n.len - first := by
      rw [sizeSub_of_le (by omega) (by omega)]
      omega
    simp only [Need.arrive, if_pos hlt, Need.gap, hadded, hfpos, hlen, whole]
    refine ⟨trivial, trivial, trivial, fun e he => ?_⟩
    simp only [List.mem_cons] at he
    rcases he with rfl | rfl | rfl | rfl | he
    · simp [Event.Sound]
    · show first - n.fpos ≤ n.len
      omega
    · simp only [Event.Sound, decide_eq_true_eq]
      omega
    · exact hle
    · exact hsound e he
  · subst heq
    simp only [Need.arrive, lt_irrefl, if_false, Segments.whole_of_le (le_refl _), List.append_nil,
      Nat.add_sub_cancel_left]
    refine ⟨trivial, trivial, trivial, fun e he => ?_⟩
    rcases List.mem_cons.mp he with rfl | he
    · simp [Event.Sound]
    · exact hsound e he

/-- Past a block the demand goes on from its end. -/
theorem Need.pass_eq (size : Nat) (hfpos : n.fpos + size < 2 ^ 64) (hle : size ≤ n.len)
    (hlen : n.len < 2 ^ 64) (hsound : n.Sound) :
    (n.pass size).fpos = n.fpos + size ∧ (n.pass size).len = n.len - size ∧
      (n.pass size).ret = n.ret ∧ (n.pass size).Sound := by
  refine ⟨sizeAdd_of_lt hfpos, sizeSub_of_le hle hlen, rfl, fun e he => ?_⟩
  rcases List.mem_cons.mp he with rfl | he
  · exact hle
  · exact hsound e he

end Steps

/-- Where nothing is left to ask for nothing is missing. -/
theorem needLoop_idle (l : List (Nat × Val)) {n : Need} (hlen : n.len = 0) (hsound : n.Sound) :
    n.Done (gaps (segmentsOf l) n.fpos (n.fpos + n.len)) (needLoop l n) := by
  rw [needLoop_of_done l hlen, hlen, Segments.gaps_of_le (by omega)]
  exact ⟨(List.append_nil _).symm, by omega, hlen, hsound⟩

/-- The walk finds the gaps. -/
theorem needLoop_done {l : List (Nat × Val)} {n : Need} (hplaced : Segments.Placed (segmentsOf l))
    (hwithin : ∀ iter ∈ l, iter.1 < n.fpos + n.len → iter.1 + iter.2.data.length < 2 ^ 64)
    (hbefore : ∀ iter ∈ l, n.fpos ≤ iter.1)
    (hfit : n.fpos + n.len < 2 ^ 64) (hsound : n.Sound) :
    n.Done (gaps (segmentsOf l) n.fpos (n.fpos + n.len)) (needLoop l n) := by
  induction l generalizing n with
  | nil =>
    by_cases hlen : n.len = 0
    · exact needLoop_idle [] hlen hsound
    · rw [needLoop, if_neg hlen]
      exact Need.finish_done hlen hfit hsound
  | cons iter rest ih =>
    obtain ⟨hne, hrest, hplaced'⟩ := hplaced.of_cons
    have hle := hbefore iter (List.mem_cons_self ..)
    by_cases hlen : n.len = 0
    · exact needLoop_idle _ hlen hsound
    rcases Nat.lt_or_ge iter.1 (n.fpos + n.len) with hreach | hshort
    · have hstop := hwithin iter (List.mem_cons_self ..) hreach
      obtain ⟨hfpos, hrem, hret, hsound'⟩ := Need.arrive_eq hle hreach hfit hsound
      have hend : sizeAdd (n.arrive iter.1).fpos (n.arrive iter.1).len = n.fpos + n.len := by
        rw [hfpos, hrem, sizeAdd_of_lt (by omega)]
        omega
      have hafter := filePositionImmediatlyAfterBlock_of_lt hstop
      rw [needLoop_reach hlen (by rwa [sizeAdd_of_lt hfit]), segmentsOf_cons, gaps,
        if_neg (not_le.mpr hreach), max_eq_right (by simp only [Segments.stop_mk]; omega), hend, hafter]
      split
      · rename_i hinside
        rw [Segments.gaps_of_le (by simpa using hinside), List.append_nil]
        exact ⟨hret, rfl, rfl, hsound'⟩
      · rename_i hpast
        obtain ⟨hfpos', hlen', hret', hsound''⟩ := Need.pass_eq (n := n.arrive iter.1)
          iter.2.data.length (by omega) (by omega) (by omega) hsound'
        rw [hfpos] at hfpos'
        obtain ⟨hret'', hfpos'', hlen'', hlog⟩ := ih hplaced'
          (n := (n.arrive iter.1).pass _)
          (fun t ht hlt => hwithin t (List.mem_cons_of_mem _ ht) (by omega)) (fun t ht => by
            rw [hfpos']
            exact hrest _ (mem_segmentsOf.mpr ⟨t, ht, rfl⟩)) (by omega) hsound''
        refine ⟨?_, by omega, hlen'', hlog⟩
        rw [hret'', hret', hret, List.append_assoc, hfpos', hlen', hrem, Segments.stop_mk,
          show iter.1 + iter.2.data.length + (n.fpos + n.len - iter.1 - iter.2.data.length) =
            n.fpos + n.len by omega]
    · rw [needLoop_before hlen (by rwa [sizeAdd_of_lt hfit]), segmentsOf_cons, gaps, if_pos hshort]
      exact Need.finish_done hlen hfit hsound

variable {s : SparseVirtualFile} {fpos len : Nat}

theorem need_sound_start (fpos len : Nat) : Need.Sound ⟨fpos, len, [], []⟩ := by simp [Need.Sound]

/-- Before all blocks: a demand that ends before the first one is done at once, as the
walk would have it. -/
theorem needStart_first (hplaced : Segments.Placed s.segments) (hends : s.EndsWithin (fpos + len))
    (hlen : 0 < len) (hfit : fpos + len < 2 ^ 64)
    (hne : s.svf.entries ≠ []) (hfirst : ∀ iter ∈ s.svf.entries, fpos < iter.1) :
    Need.Done ⟨fpos, len, [], []⟩ (gaps s.segments fpos (fpos + len))
      (needLoop (s.svf.upperBound fpos).after (needStart (s.svf.upperBound fpos) fpos len)) := by
  have hwalk := needLoop_done (n := ⟨fpos, len, [], []⟩) hplaced hends
    (fun iter hiter => (hfirst iter hiter).le) hfit (need_sound_start _ _)
  rw [OrderedMap.upperBound_first hfirst]
  obtain ⟨iter, rest, hcut⟩ := List.exists_cons_of_ne_nil hne
  rw [segments]
  rw [hcut] at hwalk ⊢
  simp only [needStart, List.getLast?_nil]
  split
  · rename_i hshort
    rw [needLoop_before hlen.ne' hshort] at hwalk
    rwa [needLoop_of_done _ rfl]
  · exact hwalk

section Before
variable {front rest : List (Nat × Val)} {prev : Nat × Val}

/-- The blocks before the last one to begin at or before `fpos` leave no gap past it. -/
theorem gaps_of_cut (hplaced : Segments.Placed s.segments)
    (hcut : s.svf.entries = front ++ prev :: rest) (hle : prev.1 ≤ fpos) :
    gaps s.segments fpos (fpos + len) =
      gaps ((prev.1, prev.2.data) :: segmentsOf rest) fpos (fpos + len) := by
  rw [segments_of_cut hcut, Segments.gaps_append]
  intro seg hseg
  obtain ⟨t, ht, rfl⟩ := mem_segmentsOf.mp hseg
  have := (le_of_placed hplaced hcut).1 t ht
  exact ⟨hplaced.nonempty _ (mem_segments (by simp [hcut, ht])),
    by simp only [Segments.stop_mk]; omega⟩

/-- Inside a block: the demand is cut at the end of that one. -/
theorem needStart_inside (hplaced : Segments.Placed s.segments) (hends : s.EndsWithin (fpos + len))
    (hfit : fpos + len < 2 ^ 64) (hlen : 0 < len)
    (hcut : s.svf.entries = front ++ prev :: rest) (hle : prev.1 ≤ fpos)
    (hinside : fpos < prev.1 + prev.2.data.length) (hplaced' : Segments.Placed (segmentsOf rest)) :
    Need.Done ⟨fpos, len, [], []⟩ (gaps s.segments fpos (fpos + len))
      (needLoop rest (needStart ⟨front ++ [prev], rest⟩ fpos len)) := by
  have hstop := hends prev (by simp [hcut]) (by omega)
  have hlast := filePositionImmediatlyAfterBlock_of_lt hstop
  have hafter := (le_of_placed hplaced hcut).2
  simp only [needStart, List.getLast?_concat, hlast]
  rw [if_pos hinside, gaps_of_cut hplaced hcut hle,
    Segments.gaps_inside hle (by simp only [Segments.stop_mk]; omega), Segments.stop_mk,
    sizeSub_of_le (a := prev.1 + prev.2.data.length) (by omega) (by omega),
    sizeSub_of_le (a := len) (by omega) (by omega), sizeAdd_of_lt hfit]
  have hcutSound : Need.Sound ⟨min (fpos + len) (prev.1 + prev.2.data.length),
      len - min len (prev.1 + prev.2.data.length - fpos), [],
      [.subtract len (min len (prev.1 + prev.2.data.length - fpos)),
        .subtract (prev.1 + prev.2.data.length) fpos]⟩ := by
    intro e he
    rcases List.mem_pair.mp he with rfl | rfl
    · exact min_le_left _ _
    · exact hinside.le
  obtain ⟨hret, hfpos, hlen', hlog⟩ := needLoop_done (l := rest) hplaced' (n := ⟨_, _, [], _⟩)
    (fun iter hiter hlt => hends iter (by simp [hcut, hiter]) (by simp only at hlt; omega))
    (fun iter hiter => by
      have := hafter iter hiter
      simp only
      omega) (by simp only; omega) hcutSound
  refine ⟨?_, by simp only at hfpos ⊢; omega, hlen', hlog⟩
  rw [hret]
  rcases Nat.lt_or_ge (prev.1 + prev.2.data.length) (fpos + len) with hpast | hwhole
  · simp only [List.nil_append]
    rw [min_eq_right (by omega), show prev.1 + prev.2.data.length +
      (len - min len (prev.1 + prev.2.data.length - fpos)) = fpos + len by omega]
  · rw [Segments.gaps_of_le (by simp only; omega), Segments.gaps_of_le (by omega)]

/-- Past the block before: that one is of no account. -/
theorem needStart_past (hplaced : Segments.Placed s.segments) (hends : s.EndsWithin (fpos + len))
    (hfit : fpos + len < 2 ^ 64) (hlen : 0 < len)
    (hcut : s.svf.entries = front ++ prev :: rest) (hle : prev.1 ≤ fpos)
    (hpast : prev.1 + prev.2.data.length ≤ fpos) (hrest : ∀ next ∈ rest, fpos < next.1)
    (hplaced' : Segments.Placed (segmentsOf rest)) :
    Need.Done ⟨fpos, len, [], []⟩ (gaps s.segments fpos (fpos + len))
      (needLoop rest (needStart ⟨front ++ [prev], rest⟩ fpos len)) := by
  have hmem : prev ∈ s.svf.entries := by simp [hcut]
  have hlast : filePositionImmediatlyAfterBlock prev = prev.1 + prev.2.data.length :=
    filePositionImmediatlyAfterBlock_of_lt (hends prev hmem (by omega))
  have hskip : ∀ seg ∈ [(prev.1, prev.2.data)], seg.2 ≠ [] ∧ Segments.stop seg ≤ fpos := by
    intro seg hseg
    rw [List.mem_singleton.mp hseg]
    exact ⟨hplaced.nonempty _ (mem_segments hmem), hpast⟩
  simp only [needStart, List.getLast?_concat, hlast]
  rw [if_neg (not_lt.mpr hpast), gaps_of_cut hplaced hcut hle, ← List.singleton_append,
    Segments.gaps_append hskip]
  exact needLoop_done hplaced' (fun iter hiter => hends iter (by simp [hcut, hiter]))
    (fun iter hiter => (hrest iter hiter).le) hfit (need_sound_start _ _)

end Before

/-- From any demand the walk finds the gaps of the whole file. -/
theorem needStart_done (hplaced : Segments.Placed s.segments) (hends : s.EndsWithin (fpos + len))
    (hlen : 0 < len) (hfit : fpos + len < 2 ^ 64)
    (hne : s.svf.entries ≠ []) :
    Need.Done ⟨fpos, len, [], []⟩ (gaps s.segments fpos (fpos + len))
      (needLoop (s.svf.upperBound fpos).after (needStart (s.svf.upperBound fpos) fpos len)) := by
  obtain ⟨pre, rest, hcut, hpre, hrest⟩ := s.svf.cut_at fpos
  have hplaced' := placed_after hplaced hcut
  rcases List.eq_nil_or_concat' pre with rfl | ⟨front, prev, rfl⟩
  · rw [List.nil_append] at hcut
    exact needStart_first hplaced hends hlen hfit hne (hcut ▸ hrest)
  · rw [List.append_assoc, List.singleton_append] at hcut
    have hle := hpre prev (by simp)
    rw [upperBound_of_cut hcut hle hrest]
    rcases Nat.lt_or_ge fpos (prev.1 + prev.2.data.length) with hinside | hpast
    · exact needStart_inside hplaced hends hfit hlen hcut hle hinside hplaced'
    · exact needStart_past hplaced hends hfit hlen hcut hle hpast hrest hplaced'

/-- **need** returns the gaps, merged if there is greed enough, -/
theorem need_eq_of_placed (hplaced : Segments.Placed s.segments) (hends : s.EndsWithin (fpos + len)) (hlen : 0 < len)
    (hfit : fpos + len < 2 ^ 64) (greedyLength : Nat) :
    s.need fpos len greedyLength =
      if len < greedyLength then minimiseSeekReads (gaps s.segments fpos (fpos + len)) greedyLength
      else gaps s.segments fpos (fpos + len) := by
  unfold need needNoLock
  by_cases hne : s.svf.entries = []
  · have hempty : s.svf.isEmpty = true := (OrderedMap.isEmpty_iff _).mpr hne
    have hgaps : gaps s.segments fpos (fpos + len) = [(fpos, len)] := by
      rw [segments, hne, segmentsOf_nil, gaps, whole, if_pos (by omega), Nat.add_sub_cancel_left]
    simp only [hempty, if_true, hgaps, minimiseSeekReads, List.foldl_cons, List.foldl_nil, minimiseStep,
      amountToRead, List.reverse_singleton]
    split
    · rename_i hgreedy
      rw [if_neg (by omega)]
    · rfl
  · have hempty : s.svf.isEmpty = false := OrderedMap.isEmpty_eq_false hne
    have hret := (needStart_done hplaced hends hlen hfit hne).ret
    simp only [List.nil_append] at hret
    simp only [hempty, Bool.false_eq_true, if_false, hret]
    by_cases hgreedy : len < greedyLength
    · by_cases hnil : gaps s.segments fpos (fpos + len) = []
      · simp [hnil, minimiseSeekReads]
      · rw [if_pos ⟨by omega, hgreedy, hnil⟩, if_pos hgreedy]
    · rw [if_neg (fun hc => hgreedy hc.2.1), if_neg hgreedy]

/-- and complains of nothing on the way. -/
theorem needNoLock_sound (hplaced : Segments.Placed s.segments) (hends : s.EndsWithin (fpos + len))
    (hlen : 0 < len) (hfit : fpos + len < 2 ^ 64) (greedyLength : Nat) :
    ∀ e ∈ (s.needNoLock fpos len greedyLength).2, e.Sound := by
  unfold needNoLock
  by_cases hne : s.svf.entries = []
  · have hempty : s.svf.isEmpty = true := (OrderedMap.isEmpty_iff _).mpr hne
    simp [hempty]
  · have hempty : s.svf.isEmpty = false := OrderedMap.isEmpty_eq_false hne
    obtain ⟨_, hfpos, hlen', hlog⟩ := needStart_done hplaced hends hlen hfit hne
    simp only at hfpos
    have hlast : ∀ e ∈ Event.assertion ((needLoop (s.svf.upperBound fpos).after
        (needStart (s.svf.upperBound fpos) fpos len)).len == 0) ::
        .assertion ((needLoop (s.svf.upperBound fpos).after
          (needStart (s.svf.upperBound fpos) fpos len)).fpos == sizeAdd fpos len) ::
        (needLoop (s.svf.upperBound fpos).after (needStart (s.svf.upperBound fpos) fpos len)).log,
        e.Sound := by
      intro e he
      simp only [List.mem_cons] at he
      rcases he with rfl | rfl | he
      · simp [Event.Sound, hlen']
      · simp [Event.Sound, hfpos, sizeAdd_of_lt hfit]
      · exact hlog e he
    simp only [hempty, Bool.false_eq_true, if_false]
    split
    · exact hlast
    · exact hlast

theorem need_eq (hsep : Segments.Separated s.segments) (hends : s.EndsWithin (fpos + len)) (hlen : 0 < len)
    (hfit : fpos + len < 2 ^ 64) (greedyLength : Nat) :
    s.need fpos len greedyLength =
      if len < greedyLength then minimiseSeekReads (gaps s.segments fpos (fpos + len)) greedyLength
      else gaps s.segments fpos (fpos + len) :=
  need_eq_of_placed hsep.placed hends hlen hfit greedyLength

end SparseVirtualFile
end Svfs
