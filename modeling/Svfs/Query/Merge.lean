import Svfs.Query.Need

/-! Merging keeps what is missing covered.

`_minimise_seek_reads` walks over pieces that need not come in order: those of a later
request may lie before the last piece kept. Such a piece is dropped, and rightly so,
since the requests begin in order and what it asks for has been seen before
(`Merging.step`). The end of a greedy piece may wrap; then every piece after it is
kept. -/
namespace Svfs
namespace SparseVirtualFile
open Segments (gaps missing)

/-- Some piece is over the position, its end not wrapped. -/
def Covers (pieces : List SeekRead) (q : Nat) : Prop := ∃ r ∈ pieces, r.1 ≤ q ∧ q < r.1 + r.2

/-- A piece of the request that begins at `start`: all of it is missing, and what lies
before it is not, unless the request begins there. -/
structure IsPiece (M : Set Nat) (start : Nat) (r : SeekRead) : Prop where
  after : start ≤ r.1
  pos : 0 < r.2
  fit : r.1 + r.2 < 2 ^ 64
  inside : ∀ q, r.1 ≤ q → q < r.1 + r.2 → q ∈ M
  edge : r.1 = start ∨ r.1 - 1 ∉ M

/-- The pieces kept so far, latest first, once those over `D` have been seen and the
request that begins at `start` is under way. -/
structure Merging (M : Set Nat) (P : Nat → Prop) (start : Nat) (D : Set Nat) (kept : List SeekRead) :
    Prop where
  cover : ∀ q ∈ D, Covers kept q
  size : ∀ r ∈ kept, r.1 < 2 ^ 64 ∧ 0 < r.2 ∧ r.2 < 2 ^ 64
  starts : ∀ r ∈ kept, P r.1
  seen : ∀ last ∈ kept.head?, ∀ q ∈ M, start ≤ q → q < last.1 → q ∈ D
  edge : ∀ last ∈ kept.head?, last.1 ≤ start ∨ last.1 - 1 ∉ M

section Merging
variable {M D : Set Nat} {P : Nat → Prop} {start greedyLength : Nat} {kept : List SeekRead}

theorem covers_cons {r : SeekRead} {pieces : List SeekRead} {q : Nat} :
    Covers (r :: pieces) q ↔ (r.1 ≤ q ∧ q < r.1 + r.2) ∨ Covers pieces q := by
  simp [Covers]

theorem merging_nil (M : Set Nat) (P : Nat → Prop) (start : Nat) : Merging M P start ∅ [] :=
  ⟨nofun, nofun, nofun, nofun, nofun⟩

/-- A request that begins later can go on from there. -/
theorem Merging.later (h : Merging M P start D kept) {start' : Nat} (hle : start ≤ start') :
    Merging M P start' D kept :=
  ⟨h.cover, h.size, h.starts, fun last hlast q hq hsq => h.seen last hlast q hq (hle.trans hsq),
    fun last hlast => (h.edge last hlast).imp_left fun hl => hl.trans hle⟩

/-- A piece kept as it is, or longer. -/
theorem Merging.push (h : Merging M P start D kept) (hg : greedyLength < 2 ^ 64) {r : SeekRead}
    (hr : IsPiece M start r) (hP : P r.1) (hseen : ∀ q ∈ M, start ≤ q → q < r.1 → q ∈ D) :
    Merging M P start (D ∪ Set.Ico r.1 (r.1 + r.2)) ((r.1, max r.2 greedyLength) :: kept) := by
  have hfit := hr.fit
  have hpos := hr.pos
  have hle := le_max_left r.2 greedyLength
  have hlt : max r.2 greedyLength < 2 ^ 64 := max_lt (by omega) hg
  refine ⟨fun q hq => covers_cons.mpr ?_, fun t ht => ?_, fun t ht => ?_, fun last hlast q hq hsq hlt => ?_,
    fun last hlast => ?_⟩
  · rcases hq with hq | hq
    · exact .inr (h.cover q hq)
    · exact .inl ⟨hq.1, by have := hq.2; simp only; omega⟩
  · rcases List.mem_cons.mp ht with rfl | ht
    · exact ⟨by simp only; omega, by simp only; omega, hlt⟩
    · exact h.size t ht
  · rcases List.mem_cons.mp ht with rfl | ht
    · exact hP
    · exact h.starts t ht
  · cases hlast
    exact .inl (hseen q hq hsq hlt)
  · cases hlast
    exact hr.edge.imp_left fun heq => heq.le

/-- The last piece grown, or left as it is. -/
theorem Merging.grow {last : SeekRead} {rest : List SeekRead} (h : Merging M P start D (last :: rest))
    {size : Nat} (hle : last.2 ≤ size) (hlt : size < 2 ^ 64) {r : SeekRead} (hr : IsPiece M start r)
    (hend : ∀ q, last.1 ≤ q → q < r.1 + r.2 → q < last.1 + size) :
    Merging M P start (D ∪ Set.Ico r.1 (r.1 + r.2)) ((last.1, size) :: rest) := by
  have hcover : ∀ q ∈ D, Covers ((last.1, size) :: rest) q := by
    intro q hq
    refine covers_cons.mpr ((covers_cons.mp (h.cover q hq)).imp_left fun hlast => ⟨hlast.1, ?_⟩)
    have := hlast.2
    simp only
    omega
  refine ⟨fun q hq => ?_, fun t ht => ?_, fun t ht => ?_, fun l hl q hq hsq hlt => ?_, fun l hl => ?_⟩
  · rcases hq with hq | ⟨hq, hq'⟩
    · exact hcover q hq
    · rcases Nat.lt_or_ge q last.1 with hbefore | hafter
      · -- What lies before the last piece kept was asked for by a request before.
        exact hcover q (h.seen last rfl q (hr.inside q hq hq') (hr.after.trans hq) hbefore)
      · exact covers_cons.mpr (.inl ⟨hafter, hend q hafter hq'⟩)
  · obtain ⟨hlast, hrest⟩ := List.forall_mem_cons.mp h.size
    rcases List.mem_cons.mp ht with rfl | ht
    · exact ⟨hlast.1, hlast.2.1.trans_le hle, hlt⟩
    · exact hrest t ht
  · obtain ⟨hlast, hrest⟩ := List.forall_mem_cons.mp h.starts
    rcases List.mem_cons.mp ht with rfl | ht
    · exact hlast
    · exact hrest t ht
  · cases hl
    exact .inl (h.seen last rfl q hq hsq hlt)
  · cases hl
    exact h.edge last rfl

/-- **One turn** of the merge takes in one more piece. -/
theorem Merging.step (h : Merging M P start D kept) (hg : greedyLength < 2 ^ 64) {r : SeekRead}
    (hr : IsPiece M start r) (hP : P r.1) (hseen : ∀ q ∈ M, start ≤ q → q < r.1 → q ∈ D) :
    Merging M P start (D ∪ Set.Ico r.1 (r.1 + r.2)) (minimiseStep greedyLength kept r) := by
  cases minimiseStep_cases greedyLength kept r with
  | inl hopen =>
    rw [hopen.2]
    exact h.push hg hr hP hseen
  | inr hreach =>
    obtain ⟨last, rest, size, rfl, hnot, heq, hgrown⟩ := hreach
    have hfit := hr.fit
    have hle : r.1 ≤ sizeAdd last.1 last.2 := Nat.le_of_not_lt hnot
    obtain ⟨hstart, hpos, hsize⟩ := h.size last (List.mem_cons_self ..)
    -- Where the end of the last piece wraps, a piece at or before that end lies before the last one.
    have hend : (sizeAdd last.1 last.2 = last.1 + last.2) ∨
        (sizeAdd last.1 last.2 + 2 ^ 64 = last.1 + last.2 ∧ r.1 + r.2 < last.1) := by
      rcases Nat.lt_or_ge (last.1 + last.2) (2 ^ 64) with hlt | hge
      · exact .inl (sizeAdd_of_lt hlt)
      · right
        have hwrap : sizeAdd last.1 last.2 = last.1 + last.2 - 2 ^ 64 := Wrap.add_of_ge hstart hsize hge
        refine ⟨by omega, ?_⟩
        by_contra hover
        have hafter := hr.after
        rcases h.edge last rfl with hedge | hedge
        · omega
        · exact hedge (hr.inside (last.1 - 1) (by omega) (by omega))
    rw [heq]
    rw [sizeAdd_of_lt hfit] at hgrown
    rcases hgrown with ⟨hwithin, rfl⟩ | ⟨hlt, rfl⟩
    · exact h.grow (le_refl _) hsize hr fun q hq hq' => by omega
    · have hmore : sizeSub (r.1 + r.2) (sizeAdd last.1 last.2) = r.1 + r.2 - sizeAdd last.1 last.2 :=
        sizeSub_of_le hlt.le hfit
      have hsum : last.2 + (r.1 + r.2 - sizeAdd last.1 last.2) < 2 ^ 64 := by omega
      rw [hmore, sizeAdd_of_lt hsum]
      exact h.grow (by omega) hsum hr fun q hq hq' => by omega

/-- The pieces of one request, in order. -/
theorem Merging.foldl (h : Merging M P start D kept) (hg : greedyLength < 2 ^ 64)
    {pieces : List SeekRead} (hpieces : ∀ r ∈ pieces, IsPiece M start r ∧ P r.1)
    (hsorted : pieces.Pairwise fun a b => a.1 + a.2 < b.1)
    (hall : ∀ r ∈ pieces, ∀ q ∈ M, start ≤ q → q < r.1 → q ∈ D ∨ Covers pieces q) :
    Merging M P start (D ∪ {q | Covers pieces q}) (pieces.foldl (minimiseStep greedyLength) kept) := by
  induction pieces generalizing D kept with
  | nil =>
    have hsame : D ∪ {q | Covers ([] : List SeekRead) q} = D := by
      ext q
      simp [Covers]
    rw [hsame]
    exact h
  | cons r rest ih =>
    obtain ⟨⟨hr, hP⟩, hrest⟩ := List.forall_mem_cons.mp hpieces
    obtain ⟨hhead, htail⟩ := List.pairwise_cons.mp hsorted
    have hfirst : ∀ q, q < r.1 → ¬ Covers (r :: rest) q := by
      rintro q hq ⟨t, ht, htq, _⟩
      rcases List.mem_cons.mp ht with rfl | ht
      · omega
      · have := hhead t ht
        omega
    have hstep := h.step hg hr hP fun q hq hsq hlt =>
      (hall r (List.mem_cons_self ..) q hq hsq hlt).resolve_right (hfirst q hlt)
    have hnext := ih hstep hrest htail fun t ht q hq hsq hlt => by
      rcases hall t (List.mem_cons_of_mem _ ht) q hq hsq hlt with hD | hcover
      · exact .inl (.inl hD)
      · exact (covers_cons.mp hcover).imp_left .inr
    have hsame : D ∪ Set.Ico r.1 (r.1 + r.2) ∪ {q | Covers rest q} = D ∪ {q | Covers (r :: rest) q} := by
      ext q
      simp only [Set.mem_union, Set.mem_Ico, Set.mem_ofPred_eq, covers_cons, or_assoc]
    rw [hsame] at hnext
    exact hnext

end Merging

/-! ### Requests -/

section Requests
variable {s : SparseVirtualFile} {greedyLength : Nat}

/-- The gaps of a request are pieces of it. -/
theorem isPiece_of_mem_gaps {l : List (Segments.Segment Byte)} (h : Segments.Placed l)
    {start len : Nat} (hfit : start + len < 2 ^ 64) {r : SeekRead}
    (hr : r ∈ gaps l start (start + len)) :
    IsPiece {q | Segments.lookup l q = none} start r ∧ r.1 < start + len := by
  have hrun := h.isRun_of_mem_gaps hr
  have hfirst := hrun.inside r.1 (le_refl _) hrun.lt
  have hlast := hrun.inside (r.1 + r.2 - 1) (by have := hrun.lt; omega) (by have := hrun.lt; omega)
  have hlt := hrun.lt
  have hbound := hlast.2.1
  refine ⟨⟨hfirst.1, by omega, by omega, fun q hq hq' => (hrun.inside q hq hq').2.2, ?_⟩, hfirst.2.1⟩
  by_cases hedge : r.1 = start
  · exact .inl hedge
  · have hafter := hfirst.1
    refine .inr fun hmem => hrun.left (r.1 - 1) (by omega) ⟨by omega, ?_, hmem⟩
    have := hfirst.2.1
    omega

/-- A request is merged in once its gaps are. -/
theorem Merging.gaps {l : List (Segments.Segment Byte)} (hsep : Segments.Separated l)
    {P : Nat → Prop} {start len : Nat} {D : Set Nat} {kept : List SeekRead}
    (h : Merging {q | Segments.lookup l q = none} P start D kept) (hg : greedyLength < 2 ^ 64)
    (hfit : start + len < 2 ^ 64) (hP : ∀ p, start ≤ p → p < start + len → P p) :
    Merging {q | Segments.lookup l q = none} P start (D ∪ missing l start (start + len))
      ((Segments.gaps l start (start + len)).foldl (minimiseStep greedyLength) kept) := by
  have hpiece := fun r (hr : r ∈ Segments.gaps l start (start + len)) =>
    isPiece_of_mem_gaps hsep.placed hfit hr
  have hfold := h.foldl hg (fun r hr => ⟨(hpiece r hr).1, hP r.1 (hpiece r hr).1.after (hpiece r hr).2⟩)
    hsep.placed.gaps_sorted fun r hr q hq hsq hlt =>
      .inr (hsep.placed.gaps_cover ⟨hsq, hlt.trans (hpiece r hr).2, hq⟩)
  have hsame : {q | Covers (Segments.gaps l start (start + len)) q} = missing l start (start + len) := by
    ext q
    constructor
    · rintro ⟨r, hr, hq⟩
      exact (Segments.isRun_of_mem_gaps hsep hr).inside q hq.1 hq.2
    · exact hsep.placed.gaps_cover
  rwa [hsame] at hfold

/-- Requests that begin in order are merged one after another. -/
theorem merging_requests {l : List (Segments.Segment Byte)} (hsep : Segments.Separated l)
    {P : Nat → Prop} {start : Nat} {D : Set Nat} {kept : List SeekRead}
    (h : Merging {q | Segments.lookup l q = none} P start D kept) (hg : greedyLength < 2 ^ 64)
    {rs : List SeekRead} (hsorted : rs.Pairwise fun a b => a.1 ≤ b.1)
    (hrs : ∀ r ∈ rs, start ≤ r.1 ∧ r.1 + r.2 < 2 ^ 64 ∧ ∀ p, r.1 ≤ p → p < r.1 + r.2 → P p) :
    ∃ start', Merging {q | Segments.lookup l q = none} P start'
      (D ∪ {q | ∃ r ∈ rs, q ∈ missing l r.1 (r.1 + r.2)})
      ((rs.flatMap fun r => Segments.gaps l r.1 (r.1 + r.2)).foldl (minimiseStep greedyLength) kept) := by
  induction rs generalizing start D kept with
  | nil =>
    refine ⟨start, ?_⟩
    have hsame : D ∪ {q | ∃ r ∈ ([] : List SeekRead), q ∈ missing l r.1 (r.1 + r.2)} = D := by
      ext q
      simp
    rw [hsame]
    exact h
  | cons r rest ih =>
    obtain ⟨⟨hstart, hfit, hP⟩, hrest⟩ := List.forall_mem_cons.mp hrs
    obtain ⟨hhead, htail⟩ := List.pairwise_cons.mp hsorted
    obtain ⟨start', hmerged⟩ := ih ((h.later hstart).gaps hsep hg hfit hP) htail fun t ht =>
      ⟨hhead t ht, (hrest t ht).2⟩
    refine ⟨start', ?_⟩
    have hsame : D ∪ missing l r.1 (r.1 + r.2) ∪ {q | ∃ t ∈ rest, q ∈ missing l t.1 (t.1 + t.2)} =
        D ∪ {q | ∃ t ∈ r :: rest, q ∈ missing l t.1 (t.1 + t.2)} := by
      ext q
      simp only [Set.mem_union, Set.mem_ofPred_eq, List.mem_cons, exists_eq_or_imp, or_assoc]
    rw [List.flatMap_cons, List.foldl_append, ← hsame]
    exact hmerged

/-- What is asked of the client covers what is missing, and begins in what was asked. -/
structure Answers (s : SparseVirtualFile) (rs pieces : List SeekRead) : Prop where
  cover : ∀ r ∈ rs, ∀ q ∈ missing s.segments r.1 (r.1 + r.2), Covers pieces q
  size : ∀ t ∈ pieces, 0 < t.2
  starts : ∀ t ∈ pieces, ∃ r ∈ rs, r.1 ≤ t.1 ∧ t.1 < r.1 + r.2

theorem answers_minimise (hsep : Segments.Separated s.segments) (hg : greedyLength < 2 ^ 64)
    {rs : List SeekRead} (hsorted : rs.Pairwise fun a b => a.1 ≤ b.1)
    (hrs : ∀ r ∈ rs, r.1 + r.2 < 2 ^ 64) :
    Answers s rs (minimiseSeekReads (rs.flatMap fun r => Segments.gaps s.segments r.1 (r.1 + r.2))
      greedyLength) := by
  obtain ⟨_, hmerged⟩ := merging_requests hsep
    (merging_nil _ (fun p => ∃ r ∈ rs, r.1 ≤ p ∧ p < r.1 + r.2) 0) hg hsorted
    fun r hr => ⟨Nat.zero_le _, hrs r hr, fun p hp hp' => ⟨r, hr, hp, hp'⟩⟩
  refine ⟨fun r hr q hq => ?_, fun t ht => (hmerged.size t (List.mem_reverse.mp ht)).2.1,
    fun t ht => hmerged.starts t (List.mem_reverse.mp ht)⟩
  obtain ⟨t, ht, hrange⟩ := hmerged.cover q (.inr ⟨r, hr, hq⟩)
  exact ⟨t, List.mem_reverse.mpr ht, hrange⟩

/-- **need** asks for what is missing. -/
theorem need_answers (h : Tidy s) {fpos len : Nat} (hlen : 0 < len) (hfit : fpos + len < 2 ^ 64)
    (hg : greedyLength < 2 ^ 64) : Answers s [(fpos, len)] (s.need fpos len greedyLength) := by
  rw [need_eq h.separated (h.endsWithin _) hlen hfit]
  split
  · have hone : ∀ r ∈ [(fpos, len)], r.1 + r.2 < 2 ^ 64 := by
      intro r hr
      rwa [List.mem_singleton.mp hr]
    have hmerged := answers_minimise h.separated hg (List.pairwise_singleton ..) hone
    rwa [List.flatMap_singleton] at hmerged
  · refine ⟨fun r hr q hq => ?_, fun t ht => (isPiece_of_mem_gaps h.separated.placed hfit ht).1.pos, fun t ht => ?_⟩
    · rw [List.mem_singleton.mp hr] at hq
      exact h.separated.placed.gaps_cover hq
    · obtain ⟨hpiece, hlt⟩ := isPiece_of_mem_gaps h.separated.placed hfit ht
      exact ⟨_, List.mem_singleton.mpr rfl, hpiece.after, hlt⟩

theorem mem_sortSeekReads {rs : List SeekRead} {r : SeekRead} : r ∈ sortSeekReads rs ↔ r ∈ rs :=
  List.mem_insertionSort _

theorem sortSeekReads_sorted (rs : List SeekRead) :
    (sortSeekReads rs).Pairwise fun a b => a.1 ≤ b.1 := by
  have htotal : Std.Total fun a b : SeekRead => seekReadLe a b = true := ⟨fun a b => by
    simp only [seekReadLe, Bool.or_eq_true, Bool.and_eq_true, decide_eq_true_eq, beq_iff_eq]
    omega⟩
  have htrans : IsTrans SeekRead fun a b => seekReadLe a b = true := ⟨fun a b c hab hbc => by
    simp only [seekReadLe, Bool.or_eq_true, Bool.and_eq_true, decide_eq_true_eq, beq_iff_eq] at *
    omega⟩
  refine (List.pairwise_insertionSort _ rs).imp fun {a b} hab => ?_
  simp only [seekReadLe, Bool.or_eq_true, Bool.and_eq_true, decide_eq_true_eq, beq_iff_eq] at hab
  omega

/-- `need_many` merges the gaps of the requests, from the first of them on. -/
theorem needMany_eq (hplaced : Segments.Placed s.segments) {rs : List SeekRead}
    (hends : ∀ r ∈ rs, s.EndsWithin (r.1 + r.2)) (hrs : ∀ r ∈ rs, 0 < r.2 ∧ r.1 + r.2 < 2 ^ 64)
    (greedyLength : Nat) :
    s.needMany rs greedyLength = minimiseSeekReads
      ((sortSeekReads rs).flatMap fun r => Segments.gaps s.segments r.1 (r.1 + r.2)) greedyLength := by
  have hsorted : ∀ r ∈ sortSeekReads rs, 0 < r.2 ∧ r.1 + r.2 < 2 ^ 64 := fun r hr =>
    hrs r (mem_sortSeekReads.mp hr)
  unfold needMany
  dsimp only
  split
  · rename_i hempty
    have hgaps : ∀ r ∈ sortSeekReads rs, Segments.gaps s.segments r.1 (r.1 + r.2) = [r] := by
      intro r hr
      have := (hsorted r hr).1
      rw [segments, (OrderedMap.isEmpty_iff _).mp hempty, segmentsOf_nil, Segments.gaps, Segments.whole,
        if_pos (by omega), Nat.add_sub_cancel_left]
    rw [List.flatMap_congr hgaps, List.flatMap_singleton']
  · rw [List.flatMap_congr fun r hr => by
      rw [need_eq_of_placed hplaced (hends r (mem_sortSeekReads.mp hr)) (hsorted r hr).1 (hsorted r hr).2,
        if_neg (by omega)]]

/-- **need_many** asks for what is missing of every request. -/
theorem needMany_answers (h : Tidy s) {rs : List SeekRead}
    (hrs : ∀ r ∈ rs, 0 < r.2 ∧ r.1 + r.2 < 2 ^ 64) (hg : greedyLength < 2 ^ 64) :
    Answers s rs (s.needMany rs greedyLength) := by
  obtain ⟨hcover, hsize, hstarts⟩ := answers_minimise h.separated hg (sortSeekReads_sorted rs)
    fun r hr => (hrs r (mem_sortSeekReads.mp hr)).2
  rw [needMany_eq h.separated.placed (fun r _ => h.endsWithin _) hrs]
  refine ⟨fun r hr => hcover r (mem_sortSeekReads.mpr hr), hsize, fun t ht => ?_⟩
  obtain ⟨r, hr, hrange⟩ := hstarts t ht
  exact ⟨r, mem_sortSeekReads.mp hr, hrange⟩

end Requests
end SparseVirtualFile
end Svfs
