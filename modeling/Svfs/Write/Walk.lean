import Svfs.Write.Steps

/-! What the steps of a walk keep, the walk keeps.

The two walks over the following blocks take the same few steps: they log, count,
grow a block and swallow the blocks they pass. A relation that those steps keep
(`KeptByWalk`) is kept by a walk from any world, whether it returns or throws; and one
that the few steps around the walks keep as well (`KeptByWrite`) by every write. -/
namespace Svfs

/-- Logged while the map keeps its blocks. -/
def Event.Stays : Event → Prop
  | .discard _ _ => False
  | _ => True

namespace World

/-- A relation kept by every step of a walk over blocks that start in `passed`. -/
structure KeptByWalk (passed : List Nat) (R : World → World → Prop) : Prop where
  refl : ∀ w, R w w
  trans : ∀ {a b c}, R a b → R b c → R a c
  emit : ∀ w e, e.Stays → R w (w.emit e)
  addBytes : ∀ w n, R w (w.addBytes n)
  pushBack : ∀ w k bytes, R w (w.pushBack k bytes)
  swallow : ∀ w, ∀ k ∈ passed, R w (w.swallow k)

section Walk
variable {R : World → World → Prop} {passed : List Nat}

theorem KeptByWalk.mono {fewer : List Nat} (h : KeptByWalk passed R) (hsub : ∀ k ∈ fewer, k ∈ passed) :
    KeptByWalk fewer R :=
  ⟨h.refl, h.trans, h.emit, h.addBytes, h.pushBack, fun w k hk => h.swallow w k (hsub k hk)⟩

theorem KeptByWalk.assertion (h : KeptByWalk passed R) (w : World) (holds : Bool) :
    R w (w.emit (.assertion holds)) := h.emit w _ trivial

theorem KeptByWalk.subtract (h : KeptByWalk passed R) (w : World) (a b : Nat) :
    R w (w.emit (.subtract a b)) := h.emit w _ trivial

theorem KeptByWalk.copy (h : KeptByWalk passed R) (w : World) (size offset len : Nat) :
    R w (w.emit (.copy size offset len)) := h.emit w _ trivial

/-- The comparison only logs. -/
theorem KeptByWalk.diffCheck (h : KeptByWalk passed R) {fpos offset len indexIter : Nat}
    {data block probed : List Byte} (w : World) :
    R w (diffCheck fpos data block offset len probed indexIter w).world := by
  have hcompared := h.emit w (.memcmp block.length offset len) trivial
  have hprobed := h.trans hcompared (h.emit _ (.index probed.length indexIter) trivial)
  cases diffCheck_compared fpos data block offset len probed indexIter w with
  | skipped heq => rw [heq]; exact h.refl w
  | agrees heq => rw [heq]; exact hcompared
  | trips _ _ _ heq => rw [heq]; exact hprobed
  | misses _ heq => rw [heq]; exact h.trans hprobed (h.assertion _ false)

/-- The walk of `_write_append_new_to_old`. -/
theorem KeptByWalk.appendLoop {rest : List (Nat × Val)} (h : KeptByWalk (rest.map Prod.fst) R)
    (base : Nat) (newData : List Byte) (fpos : Nat) (w : World) :
    R w (appendLoop base rest newData fpos w).world := by
  induction rest generalizing newData fpos w with
  | nil =>
    unfold World.appendLoop
    split
    · exact h.refl w
    · exact h.trans (h.pushBack w base newData) (h.addBytes _ _)
  | cons next rest ih =>
    have hpush : ∀ bytes : List Byte, R w ((w.pushBack base bytes).addBytes bytes.length) := fun bytes =>
      h.trans (h.pushBack w base bytes) (h.addBytes _ _)
    unfold World.appendLoop
    split
    · exact h.refl w
    · dsimp only
      split
      · exact hpush _
      · refine Outcome.bind_world (P := R w) ?_ fun _ w' hw' => ?_
        · split
          · exact h.trans (hpush _) (h.subtract ..)
          · exact h.trans (h.trans (hpush _) (h.subtract ..)) (h.diffCheck _)
        · refine h.trans (h.trans hw' ?_) (ih (h.mono fun k hk => List.mem_cons_of_mem _ hk) ..)
          refine h.trans ?_ (h.swallow _ next.1 (List.mem_cons_self ..))
          split
          · exact h.trans (h.trans (h.pushBack w' base _) (h.copy ..)) (h.pushBack _ base _)
          · exact h.pushBack w' base _

/-- The walk of `_write_new_append_old`. -/
theorem KeptByWalk.prependLoop {iters : List (Nat × Val)} (h : KeptByWalk (iters.map Prod.fst) R)
    (fposEnd : Nat) (data : List Byte) (fpos : Nat) (built : List Byte) (w : World) :
    R w (prependLoop fposEnd iters data fpos built w).world := by
  induction iters generalizing data fpos built w with
  | nil => exact h.refl w
  | cons iter rest ih =>
    have hswallow : ∀ w : World, R w (w.swallow iter.1) := fun w =>
      h.swallow w iter.1 (List.mem_cons_self ..)
    unfold World.prependLoop
    dsimp only
    apply Outcome.bind_world (P := R w) (h.trans (h.addBytes w _) (h.diffCheck _))
    intro _ w' hw'
    split
    · exact h.trans hw' (h.trans (h.trans (h.assertion ..) (h.copy ..)) (hswallow _))
    · split
      · exact h.trans hw' (h.trans (hswallow w') (h.addBytes _ _))
      · exact h.trans (h.trans hw' (hswallow w')) (ih (h.mono fun k hk => List.mem_cons_of_mem _ hk) ..)

end Walk

/-! ### The whole write -/

/-- A relation kept by every step of a write. -/
structure KeptByWrite (R : World → World → Prop) : Prop where
  walk : ∀ passed, KeptByWalk passed R
  /-- `m_block_touch++`. -/
  bump : ∀ w, R w {w with file := {w.file with blockTouch := touchSucc w.file.blockTouch}}
  insertNew : ∀ caller fpos v w, R w (w.insertNew caller fpos v).world
  touch : ∀ w k, R w (w.touch k)
  countWrite : ∀ w now len, R w (w.countWrite now len)

section Write
variable {R : World → World → Prop} (h : KeptByWrite R)
include h

theorem KeptByWrite.trans {a b c : World} (hab : R a b) (hbc : R b c) : R a c := (h.walk []).trans hab hbc

theorem KeptByWrite.assertion (w : World) (holds : Bool) : R w (w.emit (.assertion holds)) :=
  (h.walk []).assertion w holds

theorem KeptByWrite.writeNewBlock (fpos : Nat) (data : List Byte) (w : World) :
    R w (w.writeNewBlock fpos data).world := by
  have henter := h.trans (h.assertion w (w.file.svf.find? fpos).isNone) (h.bump _)
  unfold World.writeNewBlock
  exact h.trans (h.trans henter ((h.walk []).addBytes _ data.length)) (h.insertNew ..)

theorem KeptByWrite.writeNewAppendOld (fpos : Nat) (data : List Byte) (iters : List (Nat × Val)) (w : World) :
    R w (w.writeNewAppendOld fpos data iters).world := by
  have henter := h.trans (h.trans (h.assertion w (0 < data.length))
    (h.assertion _ ((iters.head?.map Prod.fst).any (fpos < ·)))) (h.bump _)
  unfold World.writeNewAppendOld
  apply Outcome.bind_world (P := R w) (h.trans henter ((h.walk _).prependLoop ..))
  intro b w' hw'
  apply Outcome.bind_world (P := R w) (h.trans hw' (h.insertNew ..))
  intro _ w'' hw''
  exact h.trans hw'' (h.trans (h.assertion ..) (h.assertion ..))

theorem KeptByWrite.writeAppendNewToOld (fpos : Nat) (newData : List Byte) (base : Nat × Val)
    (rest : List (Nat × Val)) (w : World) : R w (w.writeAppendNewToOld fpos newData base rest).world := by
  have henter := h.trans (h.trans (h.assertion w (0 < newData.length)) (h.assertion _ (base.1 ≤ fpos)))
    (h.assertion _ (fpos ≤ filePositionImmediatlyAfterBlock base))
  have hindex := h.trans henter (h.trans ((h.walk []).subtract _ fpos base.1)
    ((h.walk []).subtract _ base.2.data.length (sizeSub fpos base.1)))
  unfold World.writeAppendNewToOld
  apply Outcome.bind_world (P := R w) (h.trans hindex ((h.walk []).diffCheck _))
  intro _ w' hw'
  apply Outcome.bind_world (P := R w) (h.trans hw' ((h.walk _).appendLoop ..))
  intro left w'' hw''
  exact h.trans hw'' (h.trans (h.touch w'' base.1) (h.assertion ..))

theorem KeptByWrite.writeBlocks (fpos : Nat) (data : List Byte) (w : World) :
    R w (w.writeBlocks fpos data).world := by
  unfold World.writeBlocks
  split
  · exact h.writeNewBlock fpos data w
  · split
    · exact (h.walk []).refl w
    · split
      · split
        · exact h.writeNewAppendOld ..
        · exact h.writeNewBlock fpos data w
      · split
        · exact h.writeNewBlock fpos data w
        · exact h.writeAppendNewToOld ..

theorem KeptByWrite.write (now : Int) (fpos : Nat) (data : List Byte) (w : World) :
    R w (w.write now fpos data).world := by
  apply Outcome.bind_world (P := R w) (h.writeBlocks fpos data w)
  intro _ w' hw'
  exact h.trans hw' (h.countWrite w' now data.length)

end Write

end World
end Svfs
