import Svfs.Touch.Marks

/-! No insertion fails.

Both ways to put in a block of its own throw if a block starts there already, and have
counted its bytes by then. On any map whose blocks end within the range, however they lie
to one another, none does: the tests of `write` leave only keys below the position and
above it (`SparseVirtualFile.PutsNew.absent`), and the walk of `_write_new_append_old`
brings no block into the map (`prependLoop_absent`). So a write throws nothing but the
difference it reports. -/
namespace Svfs

/-- The call throws nothing but the difference it reports. -/
structure Outcome.OnlyDiff {α : Type} (o : Outcome α) : Prop where
  diff : ∀ e, o.result = .error e → ∃ m, e = .diff m

namespace Outcome
variable {α β : Type}

theorem OnlyDiff.of_ok {o : Outcome α} {a : α} (h : o.result = .ok a) : o.OnlyDiff := by
  refine ⟨fun e he => ?_⟩
  rw [h] at he
  cases he

theorem onlyDiff_returned (a : α) (w : World) : (returned a w).OnlyDiff := .of_ok rfl

theorem OnlyDiff.bind {o : Outcome α} {f : α → World → Outcome β} (h : o.OnlyDiff)
    (hf : ∀ a, o.result = .ok a → (f a o.world).OnlyDiff) : (o.bind f).OnlyDiff := by
  cases hresult : o.result with
  | ok a =>
    rw [bind_of_ok hresult]
    exact hf a hresult
  | error e =>
    rw [bind_of_error hresult]
    refine ⟨fun e' he => ?_⟩
    cases he
    exact h.diff e hresult

end Outcome

/-- Where a write puts a block of its own, none starts. -/
theorem SparseVirtualFile.PutsNew.absent {s : SparseVirtualFile} {fpos len : Nat} (h : s.PutsNew fpos len)
    (hends : ∀ iter ∈ s.svf.entries, iter.1 + iter.2.data.length < 2 ^ 64) : s.svf.find? fpos = none := by
  -- A block that ends before the position begins before it.
  have hbegins : ∀ iter ∈ s.svf.entries, filePositionImmediatlyAfterBlock iter < fpos → iter.1 < fpos := by
    intro iter hiter hpast
    rw [filePositionImmediatlyAfterBlock_of_lt (hends iter hiter)] at hpast
    omega
  cases h with
  | first hempty =>
    rw [OrderedMap.find?_eq_none_iff, hempty]
    simp
  | last hpast =>
    cases List.eq_nil_or_concat' s.svf.entries with
    | inl hempty =>
      rw [OrderedMap.find?_eq_none_iff, hempty]
      simp
    | inr hback =>
      obtain ⟨front, last, hcut⟩ := hback
      rw [end_of_concat hcut] at hpast
      have hlast := hbegins last (by simp [hcut]) hpast
      apply OrderedMap.find?_of_cut (hcut.trans (List.append_nil _).symm)
      · exact OrderedMap.lt_of_last hcut hlast
      · simp
  | before iter rest hcut hlt _ => exact OrderedMap.find?_of_first hcut hlt
  | after pre iter rest hcut _ hrest hpast =>
    have hiter := hbegins iter (by simp [hcut]) hpast
    apply OrderedMap.find?_of_cut (hcut.trans (List.append_cons ..))
    · exact OrderedMap.lt_of_last hcut hiter
    · exact hrest

namespace World
variable {w : World} {fpos : Nat} {data : List Byte}

/-! ### The walks -/

theorem diffCheck_onlyDiff (fpos : Nat) (data block : List Byte) (offset len : Nat) (probed : List Byte)
    (indexIter : Nat) (w : World) : (diffCheck fpos data block offset len probed indexIter w).OnlyDiff := by
  cases diffCheck_compared fpos data block offset len probed indexIter w with
  | skipped heq | agrees heq | misses _ heq => rw [heq]; exact Outcome.onlyDiff_returned ..
  | trips m _ _ heq =>
    rw [heq]
    refine ⟨fun e he => ?_⟩
    cases he
    exact ⟨m, rfl⟩

theorem prependLoop_onlyDiff (fposEnd : Nat) (iters : List (Nat × Val)) (data : List Byte) (fpos : Nat)
    (built : List Byte) (w : World) : (prependLoop fposEnd iters data fpos built w).OnlyDiff := by
  induction iters generalizing data fpos built w with
  | nil => exact Outcome.onlyDiff_returned ..
  | cons iter rest ih =>
    unfold prependLoop
    dsimp only
    apply (diffCheck_onlyDiff ..).bind
    intro _ _
    split
    · exact Outcome.onlyDiff_returned ..
    · split
      · exact Outcome.onlyDiff_returned ..
      · exact ih ..

theorem appendLoop_onlyDiff (base : Nat) (rest : List (Nat × Val)) (newData : List Byte) (fpos : Nat)
    (w : World) : (appendLoop base rest newData fpos w).OnlyDiff := by
  induction rest generalizing newData fpos w with
  | nil =>
    unfold appendLoop
    split
    · exact Outcome.onlyDiff_returned ..
    · exact Outcome.onlyDiff_returned ..
  | cons next rest ih =>
    unfold appendLoop
    split
    · exact Outcome.onlyDiff_returned ..
    · dsimp only
      split
      · exact Outcome.onlyDiff_returned ..
      · apply Outcome.OnlyDiff.bind
        · split
          · exact Outcome.onlyDiff_returned ..
          · exact diffCheck_onlyDiff ..
        · exact fun _ _ => ih ..

/-- The walk takes blocks out of the map and brings none in. -/
theorem prependLoop_absent (fposEnd : Nat) (iters : List (Nat × Val)) (data : List Byte) (fpos' : Nat)
    (built : List Byte) (h : w.file.svf.find? fpos = none) :
    (prependLoop fposEnd iters data fpos' built w).world.file.svf.find? fpos = none := by
  have hwalk : Thinned (iters.map Prod.fst) w (prependLoop fposEnd iters data fpos' built w).world :=
    (thinned_keptByWalk _).prependLoop ..
  rw [OrderedMap.find?_eq_none_iff] at h ⊢
  intro iter hiter
  obtain ⟨before, hbefore, heq⟩ :=
    SparseVirtualFile.mem_marks.mp (hwalk.marks _ (SparseVirtualFile.mem_marks_of hiter))
  have hsame : before.1 = iter.1 := (Prod.mk.inj heq).1
  exact hsame ▸ h before hbefore

/-! ### The write -/

/-- Where a write inserts a block, none starts by then: in the map `_write_new_block` is
called on, whose assertion holds, and in the one the walk of `_write_new_append_old` leaves.
A write onto a block inserts none. -/
inductive InsertsAbsent (w : World) (fpos : Nat) (data : List Byte) : Prop where
  | newBlock (heq : w.writeBlocks fpos data = w.writeNewBlock fpos data)
    (habsent : w.file.svf.find? fpos = none)
    (hassertion : (w.writeNewBlock fpos data).world.log = .assertion true :: w.log)
  | newAppendOld (iters : List (Nat × Val))
    (heq : w.writeBlocks fpos data = w.writeNewAppendOld fpos data iters)
    (habsent : (prependLoop (sizeAdd fpos data.length) iters data fpos []
      (enterPrepend fpos data iters w)).world.file.svf.find? fpos = none)
  | appendNewToOld (iter : Nat × Val) (rest : List (Nat × Val))
    (heq : w.writeBlocks fpos data = w.writeAppendNewToOld fpos data iter rest)

theorem writeNewBlock_of_absent (data : List Byte) (h : w.file.svf.find? fpos = none) :
    (w.writeNewBlock fpos data).result = .ok () ∧
      (w.writeNewBlock fpos data).world.log = .assertion true :: w.log := by
  have habsent : (enterNewBlock fpos data w).file.svf.find? fpos = none := h
  have hlog : (enterNewBlock fpos data w).log = .assertion (w.file.svf.find? fpos).isNone :: w.log := rfl
  rw [h] at hlog
  rw [writeNewBlock_eq, insertNew_of_absent _ habsent]
  exact ⟨rfl, hlog⟩

theorem writeNewAppendOld_onlyDiff {iters : List (Nat × Val)}
    (h : (prependLoop (sizeAdd fpos data.length) iters data fpos []
      (enterPrepend fpos data iters w)).world.file.svf.find? fpos = none) :
    (w.writeNewAppendOld fpos data iters).OnlyDiff := by
  rw [writeNewAppendOld_bind]
  apply (prependLoop_onlyDiff ..).bind
  intro b _
  rw [insertNew_of_absent _ h]
  exact Outcome.onlyDiff_returned ..

theorem writeAppendNewToOld_onlyDiff (fpos : Nat) (newData : List Byte) (base : Nat × Val)
    (rest : List (Nat × Val)) (w : World) : (w.writeAppendNewToOld fpos newData base rest).OnlyDiff := by
  unfold writeAppendNewToOld
  dsimp only
  apply (diffCheck_onlyDiff ..).bind
  intro _ _
  apply (appendLoop_onlyDiff ..).bind
  intro _ _
  exact Outcome.onlyDiff_returned ..

theorem insertsAbsent (data : List Byte)
    (hends : ∀ iter ∈ w.file.svf.entries, iter.1 + iter.2.data.length < 2 ^ 64) :
    InsertsAbsent w fpos data := by
  cases writeBlocks_cases fpos data w with
  | newBlock heq hcase =>
    have habsent := hcase.absent hends
    exact .newBlock heq habsent (writeNewBlock_of_absent data habsent).2
  | newAppendOld iter rest heq hcut hlt _ _ =>
    have habsent := OrderedMap.find?_of_first hcut hlt
    exact .newAppendOld (iter :: rest) heq (prependLoop_absent _ _ _ _ _ habsent)
  | appendNewToOld pre iter rest heq _ _ _ _ _ => exact .appendNewToOld iter rest heq

theorem InsertsAbsent.onlyDiff (h : InsertsAbsent w fpos data) : (w.writeBlocks fpos data).OnlyDiff := by
  cases h with
  | newBlock heq habsent _ =>
    rw [heq]
    exact .of_ok (writeNewBlock_of_absent data habsent).1
  | newAppendOld iters heq habsent =>
    rw [heq]
    exact writeNewAppendOld_onlyDiff habsent
  | appendNewToOld iter rest heq =>
    rw [heq]
    exact writeAppendNewToOld_onlyDiff fpos data iter rest w

/-- **No insertion fails**, on any map whose blocks end within the range, be they adjacent,
overlapping or empty, and wherever the data itself ends. -/
theorem write_inserts_absent (now : Int) (fpos : Nat) (data : List Byte) (w : World)
    (hends : ∀ iter ∈ w.file.svf.entries, iter.1 + iter.2.data.length < 2 ^ 64) :
    InsertsAbsent w fpos data ∧ (w.write now fpos data).OnlyDiff := by
  have h : InsertsAbsent w fpos data := insertsAbsent data hends
  refine ⟨h, h.onlyDiff.bind fun _ _ => ?_⟩
  exact Outcome.onlyDiff_returned ..

/-- An empty block within another, and one that overlaps it. -/
def illFormed : World :=
  let w := World.new [] 0
  {w with file := {w.file with svf :=
    { entries := [(5, ⟨[1, 2, 3, 4, 5, 6], 0⟩), (8, ⟨[], 1⟩), (10, ⟨[6, 7], 2⟩)], sorted := by decide }}}

theorem write_inserts_absent_illFormed : InsertsAbsent illFormed 2 [9, 9, 9, 1, 2, 3, 4] ∧
    (illFormed.write 0 2 [9, 9, 9, 1, 2, 3, 4]).OnlyDiff :=
  write_inserts_absent 0 2 [9, 9, 9, 1, 2, 3, 4] illFormed (by decide)

end World
end Svfs
