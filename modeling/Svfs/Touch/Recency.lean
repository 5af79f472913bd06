import Svfs.Refine.Held
import Svfs.Touch.Marks

/-! Touches record recency.

Beside the world stands what the touches are to record: how many have been issued
since construction or the last `clear`, and for each start of a block when the block
there was last hit or produced. As long as fewer than `2 ^ 32` are issued the two
stay in step (`Recent`), whatever the calls and whichever of them throw. -/
namespace Svfs

/-- What the touches are to record of a run. -/
structure Recency where
  /-- The touches issued since construction or the last `clear`. -/
  issued : Nat
  /-- The calls made. -/
  clock : Nat
  /-- The call that last hit or produced the block with this start. -/
  lastHit : Nat → Nat

def Recency.start : Recency := ⟨0, 0, fun _ => 0⟩

/-- One more call. It has issued a touch if the counter moved, and `clear` forgets
those issued before. -/
def Recency.next (c : Command) (w : World) (r : Recency) : Recency where
  issued :=
    match c with
    | .clear => 0
    | _ => if (c.step w).file.blockTouch = w.file.blockTouch then r.issued else r.issued + 1
  clock := r.clock + 1
  lastHit := fun k => if c.hit w = some k then r.clock else r.lastHit k

/-- A call, with the record beside the world. -/
def recencyStep (c : Command) (g : World × Recency) : World × Recency :=
  (c.step g.1, g.2.next c g.1)

/-- What the touches of a file promise: they are distinct and below the counter,
`block_touches` has one entry for each block and leads to its start, and they are in
the order in which the blocks were last hit or produced. -/
structure RecordsRecency (s : SparseVirtualFile) (r : Recency) : Prop where
  distinct : ∀ a ∈ s.svf.entries, ∀ b ∈ s.svf.entries, a.2.blockTouch = b.2.blockTouch → a = b
  below : ∀ a ∈ s.svf.entries, a.2.blockTouch < s.blockTouch
  size : s.blockTouches.size = s.numBlocks
  start : ∀ a ∈ s.svf.entries, s.blockTouches.find? a.2.blockTouch = some a.1
  order : ∀ a ∈ s.svf.entries, ∀ b ∈ s.svf.entries,
    a.2.blockTouch < b.2.blockTouch ↔ r.lastHit a.1 < r.lastHit b.1

/-- The invariant: the counter has not wrapped, and marks and record are in step. -/
structure Recent (s : SparseVirtualFile) (r : Recency) : Prop where
  counter : s.blockTouch = r.issued
  below : ∀ m ∈ s.marks, m.2 < r.issued
  past : ∀ m ∈ s.marks, r.lastHit m.1 < r.clock
  distinct : s.Distinct
  order : ∀ m ∈ s.marks, ∀ m' ∈ s.marks, m.2 < m'.2 ↔ r.lastHit m.1 < r.lastHit m'.1

section Step
variable {s s' : SparseVirtualFile} {r r' : Recency}

theorem recent_new (id : List Byte) (modTime : Float) (config : SparseVirtualFileConfig)
    (clock : Nat) (lastHit : Nat → Nat) :
    Recent (SparseVirtualFile.new id modTime config) ⟨0, clock, lastHit⟩ :=
  ⟨rfl, nofun, nofun, nofun, nofun⟩

theorem touchSucc_ne (t : Nat) (h : t < 2 ^ 32) : touchSucc t ≠ t := by
  intro heq
  rcases Nat.lt_or_ge (t + 1) (2 ^ 32) with hlt | hge
  · rw [touchSucc, Wrap.add_of_lt hlt] at heq
    omega
  · rw [touchSucc, Wrap.add_of_ge h (by norm_num) hge] at heq
    omega

/-- The block just hit is the one touched last. -/
theorem Recent.hit (h : Recent s r) {k : Nat} (hhit : Hit k s s') (hissued : r'.issued = r.issued + 1)
    (hfew : r'.issued < 2 ^ 32) (hclock : r'.clock = r.clock + 1)
    (hlast : ∀ j, r'.lastHit j = if k = j then r.clock else r.lastHit j) : Recent s' r' := by
  have hcounter : s'.blockTouch = r'.issued := by
    rw [hhit.counter, h.counter, hissued]
    exact Wrap.add_of_lt (by omega)
  -- A mark is the new one, or stood before at another start.
  have hmark : ∀ m ∈ s'.marks, m = (k, r.issued) ∨ (k ≠ m.1 ∧ m ∈ s.marks) := by
    intro m hm
    by_cases hk : m.1 = k
    · left
      rw [← h.counter]
      exact SparseVirtualFile.marks_inj hm hhit.present hk
    · exact .inr ⟨Ne.symm hk, hhit.others m hm hk⟩
  refine ⟨hcounter, fun m hm => ?_, fun m hm => ?_, fun m hm m' hm' heq => ?_, fun m hm m' hm' => ?_⟩
  · rcases hmark m hm with rfl | ⟨_, hold⟩
    · simp only
      omega
    · have := h.below m hold
      omega
  · rw [hlast, hclock]
    rcases hmark m hm with rfl | ⟨hne, hold⟩
    · rw [if_pos rfl]
      omega
    · have := h.past m hold
      rw [if_neg hne]
      omega
  · rcases hmark m hm with rfl | ⟨hne, hold⟩ <;> rcases hmark m' hm' with rfl | ⟨hne', hold'⟩
    · rfl
    · exact absurd heq.symm (h.below m' hold').ne
    · exact absurd heq (h.below m hold).ne
    · exact h.distinct m hold m' hold' heq
  · rw [hlast, hlast]
    rcases hmark m hm with rfl | ⟨hne, hold⟩ <;> rcases hmark m' hm' with rfl | ⟨hne', hold'⟩
    · simp
    · have := h.below m' hold'
      have := h.past m' hold'
      rw [if_pos rfl, if_neg hne']
      simp only
      omega
    · have := h.below m hold
      have := h.past m hold
      rw [if_neg hne, if_pos rfl]
      simp only
      omega
    · rw [if_neg hne, if_neg hne']
      exact h.order m hold m' hold'

/-- Blocks that go take their marks with them. -/
theorem Recent.kept (h : Recent s r) (hsub : ∀ m ∈ s'.marks, m ∈ s.marks)
    (hcounter : s'.blockTouch = r'.issued) (hissued : r.issued ≤ r'.issued)
    (hclock : r'.clock = r.clock + 1) (hlast : r'.lastHit = r.lastHit) : Recent s' r' := by
  refine ⟨hcounter, fun m hm => (h.below m (hsub m hm)).trans_le hissued, fun m hm => ?_,
    fun m hm m' hm' => h.distinct m (hsub m hm) m' (hsub m' hm'), fun m hm m' hm' => ?_⟩
  · have := h.past m (hsub m hm)
    rw [hlast, hclock]
    omega
  · rw [hlast]
    exact h.order m (hsub m hm) m' (hsub m' hm')

end Step

theorem Recent.records {s : SparseVirtualFile} {r : Recency} (h : Recent s r) : RecordsRecency s r := by
  refine ⟨fun a ha b hb heq => ?_, fun a ha => ?_, h.distinct.blockTouches_size,
    fun a ha => h.distinct.blockTouches_find? ha, fun a ha b hb => ?_⟩
  · have hkey : a.1 = b.1 := h.distinct _ (SparseVirtualFile.mem_marks_of ha) _
      (SparseVirtualFile.mem_marks_of hb) heq
    refine Prod.ext hkey (Option.some.inj ((OrderedMap.find?_of_mem ha).symm.trans ?_))
    rw [hkey]
    exact OrderedMap.find?_of_mem hb
  · rw [h.counter]
    exact h.below _ (SparseVirtualFile.mem_marks_of ha)
  · exact h.order _ (SparseVirtualFile.mem_marks_of ha) _ (SparseVirtualFile.mem_marks_of hb)

/-- One call, whatever it is and whether or not it throws. -/
theorem recent_step {c : Command} {w : World} {r : Recency} (h : Recent w.file r)
    (hnow : r.issued < 2 ^ 32) (hfew : (r.next c w).issued < 2 ^ 32) :
    Recent (c.step w).file (r.next c w) := by
  have hissued : c ≠ .clear → (r.next c w).issued =
      if (c.step w).file.blockTouch = w.file.blockTouch then r.issued else r.issued + 1 := by
    intro hc
    cases c with
    | clear => exact absurd rfl hc
    | _ => rfl
  have hmoved : (c.step w).file.blockTouch = touchSucc w.file.blockTouch → c ≠ .clear →
      (r.next c w).issued = r.issued + 1 := by
    intro heq hc
    rw [hissued hc, if_neg]
    rw [heq]
    exact touchSucc_ne _ (by rw [h.counter]; exact hnow)
  rcases step_marked c w with ⟨k, hk, hhit⟩ | ⟨hnone, hc, hkept⟩ | ⟨hnone, rfl⟩
  · have hc : c ≠ .clear := by
      rintro rfl
      cases hk
    apply h.hit hhit (hmoved hhit.counter hc) hfew rfl
    intro j
    simp only [Recency.next, hk, Option.some.injEq]
  · have hlast : (r.next c w).lastHit = r.lastHit := by
      funext j
      simp only [Recency.next, hnone]
      rfl
    rcases hkept.counter with hsame | hsucc
    · have heq : (r.next c w).issued = r.issued := by rw [hissued hc, if_pos hsame]
      exact h.kept hkept.marks (by rw [hsame, h.counter, heq]) heq.ge rfl hlast
    · -- The touch of a block that the throw kept from the map.
      have heq := hmoved hsucc hc
      refine h.kept hkept.marks ?_ (by omega) rfl hlast
      rw [hsucc, h.counter, heq]
      exact Wrap.add_of_lt (heq ▸ hfew)
  · show Recent w.clear.file _
    rw [World.clear_file]
    exact recent_new ..

/-- **Touches record recency.** In a run that issues fewer than `2 ^ 32` touches from
its start, or from one `clear` to the next, every state has distinct touches below the
counter, one entry of `block_touches` for each block, and the touches in the order of
the last hits. -/
theorem run_records_recency (id : List Byte) (modTime : Float) (config : SparseVirtualFileConfig)
    (cs : List Command)
    (hfew : ∀ g ∈ Run.states recencyStep (World.new id modTime config, Recency.start) cs,
      g.2.issued < 2 ^ 32) :
    ∀ g ∈ Run.states recencyStep (World.new id modTime config, Recency.start) cs,
      RecordsRecency g.1.file g.2 := by
  intro g hg
  exact (Run.invariant_states (P := fun g => Recent g.1.file g.2)
    (fun _ g hc h => recent_step (w := g.1) (r := g.2) h hc.1 hc.2) (recent_new id modTime config 0 fun _ => 0)
    (Run.along_of_states hfew) g hg).records

/-- Two blocks, of which the first is read again, and a write onto the second. -/
def rereadRun : List Command :=
  [.writeFrom countingFile 0 4, .writeFrom countingFile 8 4, .read 0 2 2, .writeFrom countingFile 10 4]

/-- What was hit last is touched last. -/
theorem run_records_recency_reread :
    RecordsRecency (Run.run recencyStep (World.new [] 0, Recency.start) rereadRun).1.file
      (Run.run recencyStep (World.new [] 0, Recency.start) rereadRun).2 :=
  run_records_recency [] 0 {} rereadRun (by decide) _ Run.run_mem_states

end Svfs
