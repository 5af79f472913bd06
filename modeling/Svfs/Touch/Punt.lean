import Svfs.Refine.Held
import Svfs.Touch.Marks

/-! Punting keeps its promise while the touches are distinct.

`lru_punt` erases by the map from touch to block, which has room for one block under
each touch. The counter wraps, so in a long run a block can be given the touch another
one still bears (`not_run_keeps_promise`); the promise holds in every state of a run
exactly when no step does that (`run_keeps_promise_iff`). -/
namespace Svfs

/-! ### The promise -/

/-- `block_touches` lists every block, and a punt brings the bytes below its bound or
leaves at most one block. -/
structure KeepsPromise (w : World) : Prop where
  listed : ∀ iter ∈ w.file.svf.entries, w.file.blockTouches.find? iter.2.blockTouch = some iter.1
  punts : ∀ bound, (w.lruPunt bound).world.file.numBytes < bound ∨
    (w.lruPunt bound).world.file.numBlocks ≤ 1

namespace World

/-- The touches still to go name just the blocks still there. -/
structure Listed (touches : List (Nat × Nat)) (w : World) : Prop where
  once : (touches.map Prod.snd).Nodup
  starts : ∀ k, k ∈ touches.map Prod.snd ↔ w.file.svf.find? k ≠ none

section Punt
variable {w : World} {bound : Nat}

theorem mustPunt_eq_false (h : w.mustPunt bound = false) :
    w.file.numBytes < bound ∨ w.file.numBlocks ≤ 1 := by
  simp only [mustPunt, Bool.and_eq_false_iff, decide_eq_false_iff_not] at h
  show w.file.bytesTotal < bound ∨ w.file.svf.size ≤ 1
  omega

/-- The block with the oldest touch is there to be erased, and the rest stay listed. -/
theorem Listed.erase {iter : Nat × Nat} {rest : List (Nat × Nat)} (h : Listed (iter :: rest) w) :
    (∃ n, (w.erase iter.2).result = .ok n) ∧ Listed rest (w.erase iter.2).world := by
  obtain ⟨hnot, honce⟩ := List.nodup_cons.mp h.once
  rcases erase_cases iter.2 w with ⟨hnone, _⟩ | ⟨pre, v, post, hcut, hresult, hentries, _⟩
  · exact absurd hnone ((h.starts iter.2).mp (List.mem_cons_self ..))
  · obtain ⟨hpre, hpost⟩ := OrderedMap.cut_key_ne w.file.svf.sorted hcut
    refine ⟨⟨_, hresult⟩, honce, fun k => ?_⟩
    have hk := h.starts k
    rw [List.map_cons, List.mem_cons] at hk
    simp only [ne_eq, OrderedMap.find?_eq_none_iff, hcut, hentries, List.mem_append, List.mem_cons,
      not_forall, not_not] at hk ⊢
    constructor
    · intro hmem
      obtain ⟨e, he, rfl⟩ := hk.mp (.inr hmem)
      rcases he with he | rfl | he
      · exact ⟨e, .inl he, rfl⟩
      · exact absurd hmem hnot
      · exact ⟨e, .inr he, rfl⟩
    · rintro ⟨e, he, rfl⟩
      have hne : e.1 ≠ iter.2 := he.elim (hpre e) (hpost e)
      exact (hk.mpr ⟨e, he.imp_right .inr, rfl⟩).resolve_left hne

/-- The loop ends below the bound, or runs out of blocks. -/
theorem lruPuntLoop_stops {touches : List (Nat × Nat)} (h : Listed touches w) (ret : Nat) :
    (∃ n, (lruPuntLoop bound touches ret w).result = .ok n) ∧
      (lruPuntLoop bound touches ret w).world.mustPunt bound = false := by
  induction touches generalizing w ret with
  | nil =>
    refine ⟨⟨ret, rfl⟩, ?_⟩
    have hempty : w.file.svf.entries = [] := by
      apply List.eq_nil_iff_forall_not_mem.mpr
      intro e he
      have hfound : w.file.svf.find? e.1 ≠ none := by
        rw [OrderedMap.find?_of_mem he]
        simp
      exact absurd ((h.starts e.1).mpr hfound) List.not_mem_nil
    simp [lruPuntLoop, mustPunt, OrderedMap.size, hempty]
  | cons iter rest ih =>
    simp only [lruPuntLoop]
    split
    · obtain ⟨⟨n, hn⟩, hrest⟩ := h.erase
      rw [Outcome.bind_of_ok hn]
      refine ih (w := _) ?_ _
      exact ⟨hrest.once, hrest.starts⟩
    · rename_i hstop
      exact ⟨⟨ret, rfl⟩, by simpa using hstop⟩

/-- With distinct touches `block_touches` names each block once. -/
theorem listed_blockTouches (h : w.file.Distinct) : Listed w.file.blockTouches.entries w := by
  refine ⟨w.file.nodup_blockTouches, fun k => ⟨fun hmem => ?_, fun hfound => ?_⟩⟩
  · obtain ⟨⟨t, j⟩, he, rfl⟩ := List.mem_map.mp hmem
    exact SparseVirtualFile.find?_ne_none_of_blockTouches he
  · obtain ⟨v, hv⟩ := Option.ne_none_iff_exists'.mp hfound
    exact List.mem_map.mpr ⟨_, OrderedMap.mem_of_find? (h.blockTouches_find? (OrderedMap.mem_of_find? hv)),
      rfl⟩

theorem lruPunt_stops (h : w.file.Distinct) (bound : Nat) :
    (w.lruPunt bound).Returns ∧
      ((w.lruPunt bound).world.file.numBytes < bound ∨ (w.lruPunt bound).world.file.numBlocks ≤ 1) := by
  unfold lruPunt
  split
  · obtain ⟨⟨n, hn⟩, hstop⟩ := lruPuntLoop_stops (listed_blockTouches h) 0
    rw [Outcome.bind_of_ok hn]
    exact ⟨⟨n, rfl⟩, mustPunt_eq_false hstop⟩
  · rename_i hstop
    exact ⟨⟨0, rfl⟩, mustPunt_eq_false (w := w) (by simpa using hstop)⟩

end Punt
end World

/-- The promise is kept just where no two blocks bear one touch. -/
theorem keepsPromise_iff (w : World) : KeepsPromise w ↔ w.file.Distinct := by
  constructor
  · intro h m hm m' hm' heq
    obtain ⟨iter, hiter, rfl⟩ := SparseVirtualFile.mem_marks.mp hm
    obtain ⟨iter', hiter', rfl⟩ := SparseVirtualFile.mem_marks.mp hm'
    have hfind := h.listed iter hiter
    rw [show iter.2.blockTouch = iter'.2.blockTouch from heq, h.listed iter' hiter'] at hfind
    exact (Option.some.inj hfind).symm
  · intro h
    exact ⟨fun iter hiter => h.blockTouches_find? hiter, fun bound => (World.lruPunt_stops h bound).2⟩

/-! ### Writes apart from each other, and reads -/

/-- A write that is not empty and ends within the `size_t` range, or a read. -/
def Command.WriteOrRead : Command → Prop
  | .write _ fpos data => data ≠ [] ∧ fpos + data.length < 2 ^ 64
  | .read _ _ _ => True
  | .erase _ | .clear | .lruPunt _ => False

/-- A write that neither overlaps nor touches the range of `len` bytes from `fpos`. -/
def Command.ApartFrom (fpos len : Nat) : Command → Prop
  | .write _ fpos' data => fpos + len < fpos' ∨ fpos' + data.length < fpos
  | _ => True

/-- Two calls that do not both write, or write apart from each other. -/
def Command.Apart : Command → Command → Prop
  | .write _ fpos data, c => c.ApartFrom fpos data.length
  | _, _ => True

/-- The block a read of `len` bytes at `fpos` would read from. -/
def SparseVirtualFile.ReadsFrom (s : SparseVirtualFile) (fpos len : Nat) (iter : Nat × Val) : Prop :=
  iter.1 ≤ fpos ∧ (∀ other ∈ s.svf.entries, other.1 ≤ fpos → other.1 ≤ iter.1) ∧
    sizeAdd (sizeSub fpos iter.1) len ≤ iter.2.data.length

/-- No block but the one the call is about to touch bears the counter's value. -/
def Command.Fresh : Command → World → Prop
  | .write _ _ _, w => ∀ iter ∈ w.file.svf.entries, iter.2.blockTouch ≠ w.file.blockTouch
  | .read _ fpos len, w => ∀ iter ∈ w.file.svf.entries, w.file.ReadsFrom fpos len iter →
      ∀ other ∈ w.file.svf.entries, other.1 ≠ iter.1 → other.2.blockTouch ≠ w.file.blockTouch
  | _, _ => True

instance (s : SparseVirtualFile) (fpos len : Nat) (iter : Nat × Val) :
    Decidable (s.ReadsFrom fpos len iter) :=
  inferInstanceAs (Decidable (_ ∧ _ ∧ _))

instance : (c : Command) → (w : World) → Decidable (c.Fresh w)
  | .write _ _ _, w => inferInstanceAs (Decidable (∀ iter ∈ w.file.svf.entries, _ ≠ _))
  | .read _ fpos len, w => inferInstanceAs (Decidable (∀ iter ∈ w.file.svf.entries,
      w.file.ReadsFrom fpos len iter → ∀ other ∈ w.file.svf.entries, _ → _))
  | .erase _, _ | .clear, _ | .lruPunt _, _ => inferInstanceAs (Decidable True)

/-- A tidy file whose blocks lie apart from every write still to come. -/
structure Laid (cs : List Command) (w : World) : Prop where
  tidy : Tidy w.file
  apart : ∀ c ∈ cs, ∀ iter ∈ w.file.svf.entries, c.ApartFrom iter.1 iter.2.data.length

section Step
variable {w : World}

/-- Touching one block keeps the touches distinct if no other bears the counter's value. -/
theorem Touched.distinct_iff {s s' : SparseVirtualFile} {k : Nat} (h : Touched k s s') (hs : s.Distinct) :
    s'.Distinct ↔ ∀ m ∈ s.marks, m.1 ≠ k → m.2 ≠ s.blockTouch := by
  constructor
  · intro hs' m hm hne heq
    exact hne (hs' m ((h.others m hne).mpr hm) _ h.present heq)
  · intro hfresh m hm m' hm' heq
    by_cases hk : m.1 = k <;> by_cases hk' : m'.1 = k
    · exact hk.trans hk'.symm
    · have hmark := SparseVirtualFile.marks_inj hm h.present hk
      exact absurd (heq.symm.trans (congrArg Prod.snd hmark)) (hfresh m' ((h.others m' hk').mp hm') hk')
    · have hmark := SparseVirtualFile.marks_inj hm' h.present hk'
      exact absurd (heq.trans (congrArg Prod.snd hmark)) (hfresh m ((h.others m hk).mp hm) hk)
    · exact hs m ((h.others m hk).mp hm) m' ((h.others m' hk').mp hm') heq

/-- A write apart from every block adds one block, and touches it. -/
theorem write_touched (h : Tidy w.file) {now : Int} {fpos : Nat} {data : List Byte} (hdata : data ≠ [])
    (hfit : fpos + data.length < 2 ^ 64)
    (hapart : ∀ t ∈ w.file.svf.entries, t.1 + t.2.data.length < fpos ∨ fpos + data.length < t.1) :
    Tidy (w.write now fpos data).world.file ∧
      Touched fpos w.file (w.write now fpos data).world.file ∧
      ∀ iter, iter ∈ (w.write now fpos data).world.file.svf.entries ↔
        iter = (fpos, ⟨data, w.file.blockTouch⟩) ∨ iter ∈ w.file.svf.entries := by
  obtain ⟨_, htidy, hcounter, pre, post, hcut, _, _, hentries⟩ := World.write_apart h now hdata hfit hapart
  have hmem : ∀ iter, iter ∈ (w.write now fpos data).world.file.svf.entries ↔
      iter = (fpos, ⟨data, w.file.blockTouch⟩) ∨ iter ∈ w.file.svf.entries := by
    intro iter
    rw [hentries, hcut]
    simp only [List.mem_append, List.mem_cons]
    tauto
  exact ⟨htidy, World.touched_of_insert (SparseVirtualFile.mem_marks_insert hmem) hcounter, hmem⟩

/-- A read touches the block it reads from, or leaves the file as it is. -/
theorem read_touches (now : Int) (fpos len : Nat) (w : World) :
    (w.read now fpos len).world.file = w.file ∧
      (∀ iter ∈ w.file.svf.entries, ¬ w.file.ReadsFrom fpos len iter) ∨
    ∃ iter ∈ w.file.svf.entries, w.file.ReadsFrom fpos len iter ∧
      (∀ other ∈ w.file.svf.entries, w.file.ReadsFrom fpos len other → other = iter) ∧
      Touched iter.1 w.file (w.read now fpos len).world.file := by
  rcases World.read_cases now fpos len w with ⟨hnone, m, heq⟩ | ⟨pre, iter, rest, hcut, hle, hrest, heq⟩
  · left
    rw [heq]
    exact ⟨rfl, fun iter hiter hreads => absurd hreads.1 (not_le.mpr (hnone iter hiter))⟩
  · have hmem : iter ∈ w.file.svf.entries := by simp [hcut]
    have hlast : ∀ other ∈ w.file.svf.entries, other.1 ≤ fpos → other.1 ≤ iter.1 := fun other ho hole =>
      SparseVirtualFile.marks_le_of_cut hcut hrest _ (SparseVirtualFile.mem_marks_of ho) hole
    have hone : ∀ other ∈ w.file.svf.entries, w.file.ReadsFrom fpos len other → other = iter := by
      intro other ho hreads
      have hkey : other.1 = iter.1 := le_antisymm (hlast other ho hreads.1) (hreads.2.1 iter hmem hle)
      refine Prod.ext hkey (Option.some.inj ((OrderedMap.find?_of_mem ho).symm.trans ?_))
      rw [hkey]
      exact OrderedMap.find?_of_mem hmem
    have hoffset : (if iter.1 = fpos then 0 else sizeSub fpos iter.1) = sizeSub fpos iter.1 := by
      split
      · rename_i hat
        rw [hat]
        exact Wrap.sub_self.symm
      · rfl
    rw [heq, hoffset]
    rcases Nat.lt_or_ge iter.2.data.length (sizeAdd (sizeSub fpos iter.1) len) with hover | hfits
    · left
      rw [World.readFrom_throws hover]
      refine ⟨rfl, fun other ho hreads => ?_⟩
      have := hone other ho hreads
      subst this
      exact absurd hreads.2.2 (not_le.mpr hover)
    · exact .inr ⟨iter, hmem, ⟨hle, hlast, hfits⟩, hone, World.read_touched hcut hfits⟩

theorem Laid.tail {c : Command} {cs : List Command} (h : Laid (c :: cs) w) {w' : World}
    (htidy : Tidy w'.file)
    (hmem : ∀ iter ∈ w'.file.svf.entries, (∃ old ∈ w.file.svf.entries, iter.1 = old.1 ∧
      iter.2.data = old.2.data) ∨ ∀ d ∈ cs, d.ApartFrom iter.1 iter.2.data.length) : Laid cs w' := by
  refine ⟨htidy, fun d hd iter hiter => ?_⟩
  rcases hmem iter hiter with ⟨old, hold, hkey, hdata⟩ | hnew
  · rw [hkey, hdata]
    exact h.apart d (List.mem_cons_of_mem _ hd) old hold
  · exact hnew d hd

/-- **One call** leaves distinct touches distinct exactly when it is fresh, and keeps
the blocks apart from the writes to come. -/
theorem step_laid {c : Command} {cs : List Command} (h : Laid (c :: cs) w) (hc : c.WriteOrRead)
    (hcs : ∀ d ∈ cs, c.Apart d) (hdistinct : w.file.Distinct) :
    Laid cs (c.step w) ∧ ((c.step w).file.Distinct ↔ c.Fresh w) := by
  cases c with
  | write now fpos data =>
    have hapart : ∀ t ∈ w.file.svf.entries,
        t.1 + t.2.data.length < fpos ∨ fpos + data.length < t.1 := fun t ht =>
      h.apart _ (List.mem_cons_self ..) t ht
    obtain ⟨htidy, htouched, hmem⟩ := write_touched h.tidy hc.1 hc.2 hapart
    rw [step_write]
    refine ⟨h.tail htidy fun iter hiter => ?_, (htouched.distinct_iff hdistinct).trans ?_⟩
    · rcases (hmem iter).mp hiter with rfl | hold
      · exact .inr hcs
      · exact .inl ⟨iter, hold, rfl, rfl⟩
    · constructor
      · intro hfresh iter hiter
        have := hapart iter hiter
        exact hfresh _ (SparseVirtualFile.mem_marks_of hiter) (by simp only; omega)
      · intro hfresh m hm _
        obtain ⟨iter, hiter, rfl⟩ := SparseVirtualFile.mem_marks.mp hm
        exact hfresh iter hiter
  | read now fpos len =>
    obtain ⟨hsegments, hbytes, _⟩ := World.read_segments now fpos len w
    rw [step_read]
    refine ⟨h.tail (h.tidy.of_segments hsegments hbytes) fun iter hiter => .inl ?_, ?_⟩
    · have hseg := SparseVirtualFile.mem_segments hiter
      rw [hsegments] at hseg
      obtain ⟨old, hold, heq⟩ := mem_segmentsOf.mp hseg
      exact ⟨old, hold, (Prod.mk.inj heq).1.symm, (Prod.mk.inj heq).2.symm⟩
    · rcases read_touches now fpos len w with ⟨hsame, hnone⟩ | ⟨iter, hiter, hreads, hone, htouched⟩
      · rw [hsame]
        exact iff_of_true hdistinct fun iter hiter hreads => absurd hreads (hnone iter hiter)
      · refine (htouched.distinct_iff hdistinct).trans ⟨fun hfresh t ht htreads other ho hne => ?_,
          fun hfresh m hm hne => ?_⟩
        · rw [hone t ht htreads] at hne
          exact hfresh _ (SparseVirtualFile.mem_marks_of ho) hne
        · obtain ⟨other, ho, rfl⟩ := SparseVirtualFile.mem_marks.mp hm
          exact hfresh iter hiter hreads other ho hne
  | erase _ | clear | lruPunt _ => exact absurd hc (by simp [Command.WriteOrRead])

end Step

/-! ### Runs -/

theorem along_fresh_iff {cs : List Command} {w : World} (h : Laid cs w) (hcs : ∀ c ∈ cs, c.WriteOrRead)
    (hapart : cs.Pairwise Command.Apart) (hdistinct : w.file.Distinct) :
    (∀ w' ∈ Run.states Command.step w cs, w'.file.Distinct) ↔
      Run.Along Command.step Command.Fresh w cs := by
  induction cs generalizing w with
  | nil => exact iff_of_true (fun w' hw' => List.mem_singleton.mp hw' ▸ hdistinct) trivial
  | cons c rest ih =>
    obtain ⟨hc, hrest⟩ := List.forall_mem_cons.mp hcs
    obtain ⟨hhead, htail⟩ := List.pairwise_cons.mp hapart
    obtain ⟨hlaid, hfresh⟩ := step_laid h hc hhead hdistinct
    simp only [Run.states, List.forall_mem_cons, Run.Along]
    rw [and_iff_right hdistinct, ← hfresh]
    constructor
    · intro hall
      have hnow : (c.step w).file.Distinct := hall _ (by cases rest <;> exact List.mem_cons_self ..)
      exact ⟨hnow, (ih hlaid hrest htail hnow).mp hall⟩
    · rintro ⟨hnow, halong⟩
      exact (ih hlaid hrest htail hnow).mpr halong

/-- **The punting promise** is kept in every state of a run of reads and of writes
apart from each other, however long, exactly when no step gives a block the touch that
another one bears. -/
theorem run_keeps_promise_iff (id : List Byte) (modTime : Float) (config : SparseVirtualFileConfig)
    (cs : List Command) (hcs : ∀ c ∈ cs, c.WriteOrRead) (hapart : cs.Pairwise Command.Apart) :
    (∀ w ∈ Run.states Command.step (World.new id modTime config) cs, KeepsPromise w) ↔
      Run.Along Command.step Command.Fresh (World.new id modTime config) cs := by
  simp only [keepsPromise_iff]
  exact along_fresh_iff ⟨tidy_new id modTime config, fun _ _ => nofun⟩ hcs hapart nofun

/-- Two blocks of one byte each. -/
def twoWrites : List Command := [.write 0 0 [0], .write 0 2 [0]]

/-- Two blocks, and then the second is read over and over. -/
def rereadSecond (n : Nat) : List Command := twoWrites ++ List.replicate n (.read 0 2 1)

theorem writeOrRead_rereadSecond (n : Nat) : ∀ c ∈ rereadSecond n, c.WriteOrRead := by
  intro c hc
  rcases List.mem_append.mp hc with hc | hc
  · rcases List.mem_pair.mp hc with rfl | rfl
    · exact ⟨by simp, by simp⟩
    · exact ⟨by simp, by simp⟩
  · rw [List.eq_of_mem_replicate hc]
    trivial

theorem apart_rereadSecond (n : Nat) : (rereadSecond n).Pairwise Command.Apart := by
  refine List.pairwise_append.mpr ⟨?_, ?_, fun a ha b hb => ?_⟩
  · refine List.pairwise_pair.mpr (.inl ?_)
    decide
  · exact List.pairwise_replicate.mpr (.inr trivial)
  · rw [List.eq_of_mem_replicate hb]
    rcases List.mem_pair.mp ha with rfl | rfl <;> trivial

/-- The promise is kept while the second block is read a few times. -/
theorem run_keeps_promise_iff_reread :
    (∀ w ∈ Run.states Command.step (World.new [] 0) (rereadSecond 2), KeepsPromise w) ↔
      Run.Along Command.step Command.Fresh (World.new [] 0) (rereadSecond 2) :=
  run_keeps_promise_iff [] 0 {} (rereadSecond 2) (writeOrRead_rereadSecond 2) (apart_rereadSecond 2)

/-- The two blocks after `n` reads of the second: its touch is `n + 1`, as far as a
touch goes, and the first one's is still 0. -/
structure Reread (n : Nat) (s : SparseVirtualFile) : Prop where
  segments : s.segments = [(0, [0]), (2, [0])]
  first : (0, 0) ∈ s.marks
  second : (2, (n + 1) % 2 ^ 32) ∈ s.marks
  counter : s.blockTouch = (n + 2) % 2 ^ 32

theorem Reread.step {n : Nat} {w : World} (h : Reread n w.file) :
    Reread (n + 1) ((Command.read 0 2 1).step w).file := by
  obtain ⟨iter, hiter, heq⟩ := SparseVirtualFile.mem_marks.mp h.second
  have hkey : iter.1 = 2 := congrArg Prod.fst heq
  have hblock : ∀ other ∈ w.file.svf.entries, other.1 ≤ 2 ∧ other.2.data.length = 1 := by
    intro other ho
    have hmem := SparseVirtualFile.mem_segments ho
    rw [h.segments] at hmem
    rcases List.mem_pair.mp hmem with heq | heq
    · obtain ⟨hkey, hdata⟩ := Prod.mk.inj heq
      exact ⟨by omega, by rw [hdata]; rfl⟩
    · obtain ⟨hkey, hdata⟩ := Prod.mk.inj heq
      exact ⟨by omega, by rw [hdata]; rfl⟩
  have hreads : w.file.ReadsFrom 2 1 iter := by
    refine ⟨hkey.le, fun other ho _ => by rw [hkey]; exact (hblock other ho).1, ?_⟩
    rw [hkey, (hblock iter hiter).2]
    decide
  obtain ⟨hsegments, _⟩ := World.read_segments 0 2 1 w
  rw [step_read]
  rcases read_touches 0 2 1 w with ⟨_, hnone⟩ | ⟨_, _, _, hone, htouched⟩
  · exact absurd hreads (hnone iter hiter)
  · rw [← hone iter hiter hreads, hkey] at htouched
    refine ⟨hsegments.trans h.segments, (htouched.others _ (by simp)).mpr h.first, ?_, ?_⟩
    · rw [← h.counter]
      exact htouched.present
    · rw [htouched.counter, h.counter]
      exact Nat.mod_add_mod ..

theorem run_rereadSecond (n : Nat) :
    Reread n (Run.run Command.step (World.new [] 0) (rereadSecond n)).file := by
  induction n with
  | zero => exact ⟨rfl, by decide, by decide, rfl⟩
  | succ n ih =>
    rw [rereadSecond, List.replicate_succ', ← List.append_assoc, Run.run_append]
    exact ih.step

/-- After `2 ^ 32 - 1` reads both blocks bear the touch 0. -/
theorem not_run_keeps_promise : ¬ ∀ (id : List Byte) (modTime : Float)
    (config : SparseVirtualFileConfig) (cs : List Command), (∀ c ∈ cs, c.WriteOrRead) →
    cs.Pairwise Command.Apart →
    ∀ w ∈ Run.states Command.step (World.new id modTime config) cs, KeepsPromise w := by
  intro h
  have hkeeps := h [] 0 {} (rereadSecond (2 ^ 32 - 1)) (writeOrRead_rereadSecond _) (apart_rereadSecond _)
    _ Run.run_mem_states
  have hreread := run_rereadSecond (2 ^ 32 - 1)
  have hsame := (keepsPromise_iff _).mp hkeeps _ hreread.first _ hreread.second (by norm_num)
  cases hsame

end Svfs
