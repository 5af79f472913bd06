import Svfs.File.Command
import Svfs.Query.Read

/-! `has`, `need` and `read` give one answer.

All three look at the block the range begins in. `has` and `need` compute its end,
which wraps where the block runs past the `size_t` range, while `read` counts from
the block's start. So they agree with each other and with what is held exactly when
the block over `fpos` ends within the range (`queries_agree_iff`). -/
namespace Svfs

/-- Every position of the range is held. -/
def SparseVirtualFile.AllHeld (s : SparseVirtualFile) (fpos len : Nat) : Prop :=
  ∀ p, fpos ≤ p → p < fpos + len → s.held p ≠ none

/-! ### The block a range begins in -/

namespace SparseVirtualFile
variable {s : SparseVirtualFile} {fpos len : Nat}

theorem has_of_none (h : ∀ iter ∈ s.svf.entries, fpos < iter.1) : s.has fpos len = false := by
  unfold has
  split
  · rfl
  · rcases s.svf.prev_upperBound fpos with ⟨hcursor, _⟩ | ⟨pre, iter, rest, hcut, hle, _⟩
    · rw [hcursor]
      cases hentries : s.svf.entries with
      | nil => rfl
      | cons iter rest =>
        have := h iter (by rw [hentries]; exact List.mem_cons_self ..)
        simp only [Bool.and_eq_false_iff, decide_eq_false_iff_not]
        left
        omega
    · have := h iter (by simp [hcut])
      omega

/-- Searching past the last block to begin at or before `fpos`. -/
theorem upperBound_of_cut {pre rest : List (Nat × Val)} {iter : Nat × Val}
    (hcut : s.svf.entries = pre ++ iter :: rest) (hle : iter.1 ≤ fpos)
    (hrest : ∀ next ∈ rest, fpos < next.1) : s.svf.upperBound fpos = ⟨pre ++ [iter], rest⟩ := by
  have hbefore := (OrderedMap.cut_lt s.svf.sorted hcut).1
  refine OrderedMap.upperBound_cut (by rw [hcut, List.append_assoc, List.singleton_append]) ?_ hrest
  intro e he
  rcases List.mem_append.mp he with he | he
  · exact (hbefore e he).le.trans hle
  · rwa [List.mem_singleton.mp he]

theorem has_of_cut {pre rest : List (Nat × Val)} {iter : Nat × Val}
    (hcut : s.svf.entries = pre ++ iter :: rest) (hle : iter.1 ≤ fpos)
    (hrest : ∀ next ∈ rest, fpos < next.1) :
    s.has fpos len = decide (sizeAdd fpos len ≤ filePositionImmediatlyAfterBlock iter) := by
  have hne : s.svf.isEmpty = false := OrderedMap.isEmpty_of_cut hcut
  simp [has, hne, upperBound_of_cut hcut hle hrest, OrderedMap.Cursor.prev_append, hle]

/-- A range is held by the block it begins in or not at all. -/
theorem allHeld_iff (hsep : Segments.Separated s.segments) (hlen : 0 < len)
    {pre rest : List (Nat × Val)} {iter : Nat × Val} (hcut : s.svf.entries = pre ++ iter :: rest)
    (hle : iter.1 ≤ fpos) (hrest : ∀ next ∈ rest, fpos < next.1) :
    s.AllHeld fpos len ↔ fpos + len ≤ iter.1 + iter.2.data.length := by
  have hmem : iter ∈ s.svf.entries := by simp [hcut]
  constructor
  · intro hall
    obtain ⟨b, hb⟩ := Option.ne_none_iff_exists'.mp (hall fpos (le_refl _) (by omega))
    obtain ⟨t, ht, hts, htlt⟩ := mem_of_held hb
    -- The block over `fpos` is the last one to begin at or before it.
    have hsame : t = iter := by
      rcases cases_of_cut hsep hcut ht with ⟨_, hlt⟩ | rfl | ⟨ht, _⟩
      · omega
      · rfl
      · have := hrest t ht
        omega
    subst hsame
    by_contra hcon
    have hstop := hsep.lookup_stop (mem_segments hmem)
    exact hall (t.1 + t.2.data.length) (by omega) (by omega) hstop
  · intro hend p hp hp' hnone
    rw [held, Segments.lookup_eq_none_iff] at hnone
    have := hnone _ (mem_segments hmem) (by simp only; omega)
    simp only [Segments.stop_mk] at this
    omega

theorem not_allHeld_of_none (hlen : 0 < len) (h : ∀ iter ∈ s.svf.entries, fpos < iter.1) :
    ¬ s.AllHeld fpos len := by
  intro hall
  obtain ⟨b, hb⟩ := Option.ne_none_iff_exists'.mp (hall fpos (le_refl _) (by omega))
  obtain ⟨t, ht, hts, _⟩ := mem_of_held hb
  have := h t ht
  omega

/-! ### need -/

theorem amountToRead_eq (r : SeekRead) (greedyLength : Nat) :
    amountToRead r greedyLength = max r.2 greedyLength := by
  unfold amountToRead
  split <;> omega

/-- What one turn of the merge does: a pair past the end of the last one is kept, as long
as the greed wants, and any other leaves the last one where it begins. -/
theorem minimiseStep_cases (greedyLength : Nat) (kept : List SeekRead) (r : SeekRead) :
    ((∀ last ∈ kept.head?, EndsBefore last r) ∧
      minimiseStep greedyLength kept r = (r.1, max r.2 greedyLength) :: kept) ∨
    ∃ last rest size, kept = last :: rest ∧ ¬ EndsBefore last r ∧
      minimiseStep greedyLength kept r = (last.1, size) :: rest ∧
      (sizeAdd r.1 r.2 ≤ sizeAdd last.1 last.2 ∧ size = last.2 ∨
        sizeAdd last.1 last.2 < sizeAdd r.1 r.2 ∧
          size = sizeAdd last.2 (sizeSub (sizeAdd r.1 r.2) (sizeAdd last.1 last.2))) := by
  cases kept with
  | nil => exact .inl ⟨nofun, by rw [minimiseStep, amountToRead_eq]⟩
  | cons last rest =>
    unfold minimiseStep
    dsimp only
    split
    · rename_i hpast
      refine .inl ⟨fun t ht => ?_, by rw [amountToRead_eq]⟩
      cases ht
      exact hpast
    · rename_i hreach
      split
      · rename_i hlonger
        exact .inr ⟨last, rest, _, rfl, hreach, rfl, .inr ⟨hlonger, rfl⟩⟩
      · rename_i hwithin
        exact .inr ⟨last, rest, last.2, rfl, hreach, rfl, .inl ⟨Nat.le_of_not_lt hwithin, rfl⟩⟩

theorem minimiseStep_ne_nil (greedyLength : Nat) (l : List SeekRead) (r : SeekRead) :
    minimiseStep greedyLength l r ≠ [] := by
  cases minimiseStep_cases greedyLength l r with
  | inl hopen =>
    rw [hopen.2]
    simp
  | inr hreach =>
    obtain ⟨_, _, _, _, _, heq, _⟩ := hreach
    rw [heq]
    simp

theorem minimiseSeekReads_eq_nil {l : List SeekRead} {greedyLength : Nat} :
    minimiseSeekReads l greedyLength = [] ↔ l = [] := by
  have hne : ∀ (l acc : List SeekRead), acc ≠ [] → l.foldl (minimiseStep greedyLength) acc ≠ [] := by
    intro l
    induction l with
    | nil => exact fun acc h => h
    | cons r rest ih => exact fun acc _ => ih _ (minimiseStep_ne_nil greedyLength acc r)
  cases l with
  | nil => simp [minimiseSeekReads]
  | cons r rest =>
    simp only [minimiseSeekReads, List.reverse_eq_nil_iff, List.foldl_cons, reduceCtorEq, iff_false]
    exact hne rest _ (minimiseStep_ne_nil greedyLength [] r)

/-- A demand up against a block: what lies before it is needed. -/
def Need.arrive (first : Nat) (n : Need) : Need :=
  let n := if n.fpos < first then n.gap first else n
  {n with log := .assertion (n.fpos == first) :: n.log}

/-- A block passed over. -/
def Need.pass (size : Nat) (n : Need) : Need :=
  {n with fpos := sizeAdd n.fpos size, len := sizeSub n.len size, log := .subtract n.len size :: n.log}

theorem needLoop_reach {iter : Nat × Val} {rest : List (Nat × Val)} {n : Need} (hlen : n.len ≠ 0)
    (hreach : iter.1 < sizeAdd n.fpos n.len) :
    needLoop (iter :: rest) n =
      if sizeAdd (n.arrive iter.1).fpos (n.arrive iter.1).len ≤ filePositionImmediatlyAfterBlock iter then
        {n.arrive iter.1 with fpos := sizeAdd (n.arrive iter.1).fpos (n.arrive iter.1).len, len := 0}
      else needLoop rest ((n.arrive iter.1).pass iter.2.data.length) := by
  rw [needLoop, if_neg hlen, if_neg (not_le.mpr hreach)]
  rfl

theorem needLoop_before {iter : Nat × Val} {rest : List (Nat × Val)} {n : Need} (hlen : n.len ≠ 0)
    (hbefore : sizeAdd n.fpos n.len ≤ iter.1) : needLoop (iter :: rest) n = n.finish := by
  rw [needLoop, if_neg hlen, if_pos hbefore]

theorem Need.arrive_ret (first : Nat) (n : Need) :
    (n.arrive first).ret = if n.fpos < first then n.ret ++ [(n.fpos, sizeSub first n.fpos)] else n.ret := by
  unfold Need.arrive
  dsimp only
  split <;> rfl

theorem needLoop_of_done (l : List (Nat × Val)) {n : Need} (hlen : n.len = 0) : needLoop l n = n := by
  cases l <;> simp [needLoop, hlen]

/-- The walk only ever adds to what is needed. -/
theorem needLoop_prefix (l : List (Nat × Val)) (n : Need) : n.ret <+: (needLoop l n).ret := by
  induction l generalizing n with
  | nil =>
    unfold needLoop
    split
    · exact List.prefix_refl _
    · exact List.prefix_append ..
  | cons iter rest ih =>
    by_cases hlen : n.len = 0
    · rw [needLoop_of_done _ hlen]
    · rcases Nat.lt_or_ge iter.1 (sizeAdd n.fpos n.len) with hreach | hbefore
      · have harrive : n.ret <+: (n.arrive iter.1).ret := by
          rw [Need.arrive_ret]
          split
          · exact List.prefix_append ..
          · exact List.prefix_refl _
        rw [needLoop_reach hlen hreach]
        split
        · exact harrive
        · exact harrive.trans (ih ((n.arrive iter.1).pass iter.2.data.length))
      · rw [needLoop_before hlen hbefore]
        exact List.prefix_append ..

/-- A demand left over in front of the next block is needed. -/
theorem needLoop_ne_nil {l : List (Nat × Val)} {n : Need} (hlen : n.len ≠ 0)
    (hbefore : ∀ iter ∈ l.head?, n.fpos < iter.1) : (needLoop l n).ret ≠ [] := by
  cases l with
  | nil => simp [needLoop, hlen, Need.finish]
  | cons iter rest =>
    have hlt : n.fpos < iter.1 := hbefore iter rfl
    rcases Nat.lt_or_ge iter.1 (sizeAdd n.fpos n.len) with hreach | hshort
    · have harrive : (n.arrive iter.1).ret ≠ [] := by
        rw [Need.arrive_ret, if_pos hlt]
        simp
      rw [needLoop_reach hlen hreach]
      split
      · exact harrive
      · intro hnil
        have hprefix := needLoop_prefix rest ((n.arrive iter.1).pass iter.2.data.length)
        rw [hnil] at hprefix
        exact harrive (List.prefix_nil.mp hprefix)
    · rw [needLoop_before hlen hshort]
      simp [Need.finish]

/-- Nothing is needed, whatever the greed, exactly when the walk finds nothing. -/
theorem need_eq_nil_iff {greedyLength : Nat} (hne : s.svf.entries ≠ []) :
    s.need fpos len greedyLength = [] ↔
      (needLoop (s.svf.upperBound fpos).after (needStart (s.svf.upperBound fpos) fpos len)).ret = [] := by
  have hempty : s.svf.isEmpty = false := OrderedMap.isEmpty_eq_false hne
  simp only [need, needNoLock, hempty, Bool.false_eq_true, if_false]
  split
  · exact minimiseSeekReads_eq_nil
  · rfl

/-- A demand inside a block needs nothing. -/
theorem need_of_inside {pre rest : List (Nat × Val)} {iter : Nat × Val} {greedyLength : Nat}
    (hcut : s.svf.entries = pre ++ iter :: rest) (hle : iter.1 ≤ fpos)
    (hrest : ∀ next ∈ rest, fpos < next.1) (hlen : 0 < len)
    (hwithin : iter.1 + iter.2.data.length < 2 ^ 64)
    (hend : fpos + len ≤ iter.1 + iter.2.data.length) : s.need fpos len greedyLength = [] := by
  have hafter := filePositionImmediatlyAfterBlock_of_lt hwithin
  have hdone : (needStart (s.svf.upperBound fpos) fpos len).len = 0 ∧
      (needStart (s.svf.upperBound fpos) fpos len).ret = [] := by
    rw [upperBound_of_cut hcut hle hrest]
    simp only [needStart, List.getLast?_concat, hafter]
    rw [if_pos (by omega), sizeSub_of_le (a := iter.1 + iter.2.data.length) (by omega) hwithin,
      show min len (iter.1 + iter.2.data.length - fpos) = len by omega]
    exact ⟨by rw [sizeSub_of_le (le_refl _) (by omega), Nat.sub_self], rfl⟩
  rw [need_eq_nil_iff (by simp [hcut]), needLoop_of_done _ hdone.1]
  exact hdone.2

/-- A demand that goes past the block it begins in, or at, needs something. -/
theorem need_of_past {pre rest : List (Nat × Val)} {iter : Nat × Val} {greedyLength : Nat}
    (hcut : s.svf.entries = pre ++ iter :: rest) (hle : iter.1 ≤ fpos)
    (hrest : ∀ next ∈ rest, fpos < next.1) (hafter : ∀ next ∈ rest, iter.1 + iter.2.data.length < next.1)
    (hfit : fpos + len < 2 ^ 64) (hend : iter.1 + iter.2.data.length < fpos + len) (hlen : 0 < len) :
    s.need fpos len greedyLength ≠ [] := by
  have hstop : filePositionImmediatlyAfterBlock iter = iter.1 + iter.2.data.length :=
    filePositionImmediatlyAfterBlock_of_lt (by omega)
  rw [ne_eq, need_eq_nil_iff (by simp [hcut]), upperBound_of_cut hcut hle hrest]
  refine needLoop_ne_nil ?_ fun next hnext => ?_
  · simp only [needStart, List.getLast?_concat, hstop]
    split
    · rw [sizeSub_of_le (a := iter.1 + iter.2.data.length) (by omega) (by omega),
        show min len (iter.1 + iter.2.data.length - fpos) = iter.1 + iter.2.data.length - fpos by omega,
        sizeSub_of_le (by omega) (by omega)]
      show len - _ ≠ 0
      omega
    · exact hlen.ne'
  · have hmem : next ∈ rest := List.mem_of_mem_head? hnext
    have := hrest next hmem
    have := hafter next hmem
    simp only [needStart, List.getLast?_concat, hstop]
    split
    · show min _ _ < _
      omega
    · assumption

/-- A demand before all blocks needs something. -/
theorem need_of_none {greedyLength : Nat} (h : ∀ iter ∈ s.svf.entries, fpos < iter.1) (hlen : 0 < len) :
    s.need fpos len greedyLength ≠ [] := by
  by_cases hne : s.svf.entries = []
  · have hempty : s.svf.isEmpty = true := (OrderedMap.isEmpty_iff _).mpr hne
    simp [need, needNoLock, hempty]
  · obtain ⟨iter, rest, hcut⟩ := List.exists_cons_of_ne_nil hne
    rw [ne_eq, need_eq_nil_iff hne, OrderedMap.upperBound_first h, hcut]
    by_cases hshort : sizeAdd fpos len ≤ iter.1
    · have hstart : needStart ⟨[], iter :: rest⟩ fpos len = Need.finish ⟨fpos, len, [], []⟩ := by
        simp [needStart, hshort]
      rw [hstart, needLoop_of_done _ rfl]
      simp [Need.finish]
    · have hstart : needStart ⟨[], iter :: rest⟩ fpos len = ⟨fpos, len, [], []⟩ := by
        simp [needStart, hshort]
      rw [hstart]
      apply needLoop_ne_nil hlen.ne'
      intro next hnext
      cases hnext
      exact h iter (by rw [hcut]; exact List.mem_cons_self ..)

end SparseVirtualFile

/-! ### Agreement -/

/-- `has`, `need` and `read` say of a range whether it is held; a read hands out
what is held and changes no more than the touch of one block, the touch counter and
the read counters, and one that throws changes nothing. -/
structure QueriesAgree (w : World) (now : Int) (fpos len : Nat) : Prop where
  has : w.file.has fpos len = true ↔ w.file.AllHeld fpos len
  need : ∀ greedyLength, w.file.need fpos len greedyLength = [] ↔ w.file.AllHeld fpos len
  read : (w.read now fpos len).Returns ↔ w.file.AllHeld fpos len
  bytes : ∀ data, (w.read now fpos len).result = .ok data →
    data.length = len ∧ ∀ i < len, data[i]? = w.file.held (fpos + i)
  frame : ∀ data, (w.read now fpos len).result = .ok data → ∃ iter ∈ w.file.svf.entries,
    (w.read now fpos len).world.file = {w.file with
      svf := w.file.svf.modify iter.1 fun v => {v with blockTouch := w.file.blockTouch}
      blockTouch := touchSucc w.file.blockTouch
      bytesRead := sizeAdd w.file.bytesRead len
      countRead := sizeAdd w.file.countRead 1
      timeRead := now}
  throws : ∀ e, (w.read now fpos len).result = .error e → (w.read now fpos len).world = w

section Agree
variable {w : World} {now : Int} {fpos len : Nat}

/-- The offset a read starts at. -/
theorem read_offset {iter : Nat × Val} (hle : iter.1 ≤ fpos) (hfit : fpos < 2 ^ 64) :
    (if iter.1 = fpos then 0 else sizeSub fpos iter.1) = fpos - iter.1 := by
  split
  · omega
  · exact sizeSub_of_le hle hfit

/-- What of this is about `read`. -/
structure ReadAgrees (w : World) (now : Int) (fpos len : Nat) : Prop where
  read : (w.read now fpos len).Returns ↔ w.file.AllHeld fpos len
  bytes : ∀ data, (w.read now fpos len).result = .ok data →
    data.length = len ∧ ∀ i < len, data[i]? = w.file.held (fpos + i)
  frame : ∀ data, (w.read now fpos len).result = .ok data → ∃ iter ∈ w.file.svf.entries,
    (w.read now fpos len).world.file = {w.file with
      svf := w.file.svf.modify iter.1 fun v => {v with blockTouch := w.file.blockTouch}
      blockTouch := touchSucc w.file.blockTouch
      bytesRead := sizeAdd w.file.bytesRead len
      countRead := sizeAdd w.file.countRead 1
      timeRead := now}
  throws : ∀ e, (w.read now fpos len).result = .error e → (w.read now fpos len).world = w

/-- A read that throws should. -/
theorem ReadAgrees.of_threw {e : Exception} (h : w.read now fpos len = .threw e w)
    (hnot : ¬ w.file.AllHeld fpos len) : ReadAgrees w now fpos len := by
  have hthrown : ∀ data, (w.read now fpos len).result ≠ .ok data := by
    intro data hdata
    rw [h] at hdata
    cases hdata
  refine ⟨iff_of_false ?_ hnot, fun data hdata => absurd hdata (hthrown data),
    fun data hdata => absurd hdata (hthrown data), fun _ _ => by rw [h, Outcome.threw_world]⟩
  intro ⟨data, hdata⟩
  exact hthrown data hdata

/-- A read tells what is held, whether or not the block runs past the range. -/
theorem read_agrees (now : Int) (hsep : Segments.Separated w.file.segments) (hlen : 0 < len)
    (hfit : fpos + len < 2 ^ 64) : ReadAgrees w now fpos len := by
  rcases World.read_cases now fpos len w with ⟨hnone, m, heq⟩ | ⟨pre, iter, rest, hcut, hle, hrest, heq⟩
  · exact .of_threw heq (SparseVirtualFile.not_allHeld_of_none hlen hnone)
  · have hmem : iter ∈ w.file.svf.entries := by simp [hcut]
    have hsum : sizeAdd (fpos - iter.1) len = fpos - iter.1 + len := sizeAdd_of_lt (by omega)
    have hall := SparseVirtualFile.allHeld_iff hsep hlen hcut hle hrest
    rw [read_offset hle (by omega)] at heq
    rcases Nat.lt_or_ge iter.2.data.length (fpos - iter.1 + len) with hover | hfits
    · rw [World.readFrom_throws (by rw [hsum]; exact hover)] at heq
      exact .of_threw heq (by rw [hall]; omega)
    · rw [World.readFrom_returns (by rw [hsum]; exact hfits)] at heq
      have hresult : (w.read now fpos len).result =
          .ok ((iter.2.data.drop (fpos - iter.1)).take len) := by
        rw [heq]
        rfl
      refine ⟨iff_of_true ⟨_, hresult⟩ (by rw [hall]; omega), fun data hdata => ?_,
        fun _ _ => ⟨iter, hmem, by rw [heq]; rfl⟩, fun e he => ?_⟩
      · obtain rfl := Except.ok.inj (hresult.symm.trans hdata)
        refine ⟨by rw [List.length_take, List.length_drop]; omega, fun i hi => ?_⟩
        rw [List.getElem?_take_of_lt hi, List.getElem?_drop,
          SparseVirtualFile.held_of_mem hsep hmem (by omega)]
        congr 1
        omega
      · rw [hresult] at he
        cases he

/-- **has, need and read agree** about a range exactly when the block over its first
position, if there is one, ends within the `size_t` range. -/
theorem queries_agree_iff (w : World) (now : Int) (fpos len : Nat)
    (hsep : Segments.Separated w.file.segments) (hs : Representable w.file) (hlen : 0 < len)
    (hfit : fpos + len < 2 ^ 64) :
    QueriesAgree w now fpos len ↔ ∀ iter ∈ w.file.svf.entries, iter.1 ≤ fpos →
      fpos < iter.1 + iter.2.data.length → iter.1 + iter.2.data.length < 2 ^ 64 := by
  have hcases : (∀ iter ∈ w.file.svf.entries, fpos < iter.1) ∨
      ∃ pre iter rest, w.file.svf.entries = pre ++ iter :: rest ∧ iter.1 ≤ fpos ∧
        ∀ next ∈ rest, fpos < next.1 := by
    rcases World.read_cases now fpos len w with ⟨hnone, _⟩ | ⟨pre, iter, rest, hcut, hle, hrest, _⟩
    · exact .inl hnone
    · exact .inr ⟨pre, iter, rest, hcut, hle, hrest⟩
  obtain ⟨hread, hbytes, hframe, hthrows⟩ := read_agrees (w := w) now hsep hlen hfit
  rcases hcases with hnone | ⟨pre, iter, rest, hcut, hle, hrest⟩
  · have hnot := SparseVirtualFile.not_allHeld_of_none hlen hnone
    refine iff_of_true ⟨iff_of_false ?_ hnot, fun g => iff_of_false ?_ hnot, hread, hbytes, hframe,
      hthrows⟩ fun iter hiter hle _ => absurd (hnone iter hiter) (not_lt.mpr hle)
    · rw [SparseVirtualFile.has_of_none hnone]
      simp
    · exact SparseVirtualFile.need_of_none hnone hlen
  · have hmem : iter ∈ w.file.svf.entries := by simp [hcut]
    have hhas : w.file.has fpos len = decide (sizeAdd fpos len ≤ filePositionImmediatlyAfterBlock iter) :=
      SparseVirtualFile.has_of_cut hcut hle hrest
    have hall := SparseVirtualFile.allHeld_iff hsep hlen hcut hle hrest
    rw [sizeAdd_of_lt hfit] at hhas
    rcases Nat.lt_or_ge (iter.1 + iter.2.data.length) (2 ^ 64) with hwithin | hwraps
    · have hafter := filePositionImmediatlyAfterBlock_of_lt hwithin
      refine iff_of_true ⟨by rw [hhas, hafter, hall, decide_eq_true_iff], fun g => ?_, hread, hbytes,
        hframe, hthrows⟩ fun t ht htle htlt => ?_
      · rw [hall]
        constructor
        · intro hnil
          by_contra hpast
          exact SparseVirtualFile.need_of_past hcut hle hrest (lt_of_separated hsep hcut).2 hfit
            (by omega) hlen hnil
        · exact SparseVirtualFile.need_of_inside hcut hle hrest hlen hwithin
      · rcases cases_of_cut hsep hcut ht with ⟨_, hlt⟩ | rfl | ⟨ht, _⟩
        · omega
        · exact hwithin
        · have := hrest t ht
          omega
    · -- The block holds the whole range, but its end looks to be before it.
      have hafter := hs.after_of_wraps hmem hwraps
      have hsize := hs.size iter hmem
      refine iff_of_false (fun hagree => ?_) fun hends => ?_
      · have htrue := hagree.has.mpr (hall.mpr (by omega))
        rw [hhas, hafter, decide_eq_true_iff] at htrue
        omega
      · have := hends iter hmem hle (by omega)
        omega

end Agree

/-- A block up to the last position there is, and one before it. -/
def lastBlock : World :=
  Run.run Command.step (World.new [] 0) [.write 0 7 [7, 8, 9], .write 0 (2 ^ 64 - 2) [1, 2]]

theorem separated_lastBlock : Segments.Separated lastBlock.file.segments := ⟨by decide, by decide⟩

theorem representable_lastBlock : Representable lastBlock.file := ⟨by decide, by decide, by decide⟩

theorem queries_agree_iff_first : QueriesAgree lastBlock 0 8 2 ↔
    ∀ iter ∈ lastBlock.file.svf.entries, iter.1 ≤ 8 → 8 < iter.1 + iter.2.data.length →
      iter.1 + iter.2.data.length < 2 ^ 64 :=
  queries_agree_iff lastBlock 0 8 2 separated_lastBlock representable_lastBlock (by decide) (by decide)

/-- The block that ends with the range is there to be read and yet not had. -/
theorem not_queries_agree : ¬ ∀ (w : World) (now : Int) (fpos len : Nat),
    Segments.Separated w.file.segments → Representable w.file → 0 < len → fpos + len < 2 ^ 64 →
    QueriesAgree w now fpos len := by
  intro h
  have hagree := h lastBlock 0 (2 ^ 64 - 2) 1 separated_lastBlock representable_lastBlock (by decide)
    (by decide)
  have hreturns : (lastBlock.read 0 (2 ^ 64 - 2) 1).Returns := ⟨[1], rfl⟩
  have hhas := hagree.has.mpr (hagree.read.mp hreturns)
  have hnot : lastBlock.file.has (2 ^ 64 - 2) 1 = false := by decide
  rw [hnot] at hhas
  cases hhas

end Svfs
