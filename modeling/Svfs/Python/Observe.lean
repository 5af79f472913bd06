import Svfs.Evict.Exact
import Svfs.Python.Pickle

/-! Pickling is a read of every block.

`__getstate__` takes the bytes out by `read`, block after block in the order of their
positions. So it touches every block (`retouch`), and counts a read for each: what was least
recently used before is forgotten, and a punt goes by position from then on
(`pickle_reads`). -/
namespace Svfs

/-- The blocks with touches counted on from `t`, one by one. -/
def retouch (t : Nat) (bs : List (Nat × Val)) : List (Nat × Val) :=
  bs.mapIdx fun i iter => (iter.1, {iter.2 with blockTouch := Wrap.add 32 t i})

/-- The blocks with the lowest touches first: where the counter came round, those touched
after it did. -/
def retouchedOrder (t : Nat) (bs : List (Nat × Val)) : List (Nat × Val) :=
  (retouch t bs).drop (2 ^ 32 - t) ++ (retouch t bs).take (2 ^ 32 - t)

section Retouch
variable {s : SparseVirtualFile} {t : Nat} {bs : List (Nat × Val)}

theorem retouch_cons {iter : Nat × Val} (ht : t < 2 ^ 32) :
    retouch t (iter :: bs) = (iter.1, {iter.2 with blockTouch := t}) :: retouch (touchSucc t) bs := by
  simp only [retouch, List.mapIdx_cons, touchSucc, Wrap.add_assoc, Wrap.add_zero ht, Nat.add_comm]

theorem length_retouch : (retouch t bs).length = bs.length := List.length_mapIdx

/-- Touching blocks does not show in their bytes. -/
theorem segmentsOf_retouch : segmentsOf (retouch t bs) = segmentsOf bs :=
  List.ext_getElem (by simp [segmentsOf, retouch]) (by simp [segmentsOf, retouch])

theorem touch_retouch {i : Nat} (hi : i < (retouch t bs).length) :
    (retouch t bs)[i].2.blockTouch = Wrap.add 32 t i := by
  simp [retouch]

/-- The new touches are distinct as long as there are as many. -/
theorem oldestFirst_retouch (ht : t < 2 ^ 32) (hlen : bs.length ≤ 2 ^ 32) (hs : s.svf.entries = retouch t bs) :
    OldestFirst s (retouchedOrder t bs) := by
  refine ⟨?_, ?_⟩
  · rw [hs, retouchedOrder]
    exact (List.Perm.of_eq (List.take_append_drop ..).symm).trans List.perm_append_comm
  · have hlength : (retouch t bs).length = bs.length := length_retouch
    have hlow : ∀ i, t + i < 2 ^ 32 → Wrap.add 32 t i = t + i := fun i h => Wrap.add_of_lt h
    have hround : ∀ i, i < 2 ^ 32 → 2 ^ 32 ≤ t + i → Wrap.add 32 t i = t + i - 2 ^ 32 := fun i hi h =>
      Wrap.add_of_ge ht hi h
    refine List.pairwise_append.mpr ⟨?_, ?_, ?_⟩
    · rw [List.pairwise_iff_getElem]
      intro i j hi hj hij
      rw [List.length_drop] at hi hj
      rw [List.getElem_drop, List.getElem_drop, touch_retouch, touch_retouch, hround _ (by omega) (by omega),
        hround _ (by omega) (by omega)]
      omega
    · rw [List.pairwise_iff_getElem]
      intro i j hi hj hij
      rw [List.length_take] at hi hj
      rw [List.getElem_take, List.getElem_take, touch_retouch, touch_retouch, hlow _ (by omega),
        hlow _ (by omega)]
      omega
    · intro a ha b hb
      obtain ⟨i, hi, rfl⟩ := List.mem_iff_getElem.mp ha
      obtain ⟨j, hj, rfl⟩ := List.mem_iff_getElem.mp hb
      rw [List.length_drop] at hi
      rw [List.length_take] at hj
      rw [List.getElem_drop, List.getElem_take, touch_retouch, touch_retouch, hround _ (by omega) (by omega),
        hlow _ (by omega)]
      omega

/-- There are no more distinct touches than a `t_block_touch` has values. -/
theorem SparseVirtualFile.Distinct.length_le (h : s.Distinct)
    (htouches : ∀ iter ∈ s.svf.entries, iter.2.blockTouch < 2 ^ 32) : s.svf.entries.length ≤ 2 ^ 32 := by
  have hnodup : (s.svf.entries.map fun iter => iter.2.blockTouch).Nodup := List.pairwise_map.mpr h.pairwise
  have hsub : (s.svf.entries.map fun iter => iter.2.blockTouch).toFinset ⊆ Finset.range (2 ^ 32) := by
    intro t ht
    obtain ⟨iter, hiter, rfl⟩ := List.mem_map.mp (List.mem_toFinset.mp ht)
    exact Finset.mem_range.mpr (htouches iter hiter)
  have hcard := Finset.card_le_card hsub
  rwa [List.toFinset_card_of_nodup hnodup, List.length_map, Finset.card_range] at hcard

end Retouch

/-- The counters that a read moves are of their types. -/
structure Ticking (s : SparseVirtualFile) : Prop where
  blockTouch : s.blockTouch < 2 ^ 32
  countRead : s.countRead < 2 ^ 64
  bytesRead : s.bytesRead < 2 ^ 64

/-- The time of the last of so many reads, the first of them the `n`-th call; with none, the time
there was. -/
def lastReadTime (clock : Nat → Int) (n : Nat) (timeRead : Int) : Nat → Int
  | 0 => timeRead
  | reads + 1 => clock (n + reads)

/-- These blocks, after the others, were read one by one, the first of them by the `n`-th call. -/
structure ReadOver (clock : Nat → Int) (n : Nat) (s s' : SparseVirtualFile) (before rest : List (Nat × Val)) :
    Prop where
  entries : s'.svf.entries = before ++ retouch s.blockTouch rest
  frame : s' = {s with
    svf := s'.svf
    blockTouch := Wrap.add 32 s.blockTouch rest.length
    countRead := sizeAdd s.countRead rest.length
    bytesRead := sizeAdd s.bytesRead (bytesOf rest)
    timeRead := lastReadTime clock n s.timeRead rest.length}

/-- One of them. -/
theorem World.read_over {w : World} (now : Int) {before rest : List (Nat × Val)} {iter : Nat × Val}
    (hcut : w.file.svf.entries = before ++ iter :: rest) (hposition : iter.1 < 2 ^ 64)
    (hsize : iter.2.data.length < 2 ^ 64) :
    (w.read now iter.1 iter.2.data.length).world.file.svf.entries =
        before ++ (iter.1, {iter.2 with blockTouch := w.file.blockTouch}) :: rest ∧
      (w.read now iter.1 iter.2.data.length).world.file = {w.file with
        svf := (w.read now iter.1 iter.2.data.length).world.file.svf
        blockTouch := touchSucc w.file.blockTouch
        countRead := sizeAdd w.file.countRead 1
        bytesRead := sizeAdd w.file.bytesRead iter.2.data.length
        timeRead := now} := by
  have hlast := OrderedMap.lastAt_of_cut hcut (le_refl _) (OrderedMap.cut_lt w.file.svf.sorted hcut).2
  have hfits : sizeAdd (iter.1 - iter.1) iter.2.data.length ≤ iter.2.data.length := by
    rw [Nat.sub_self, sizeAdd_of_lt (by omega), Nat.zero_add]
  rw [World.read_of_lastAt hlast hposition, World.readFrom_returns hfits]
  exact ⟨OrderedMap.entries_modify hcut _, rfl⟩

section ReadOver
variable {clock : Nat → Int} {n : Nat} {s s₁ s' : SparseVirtualFile}

/-- The time of the last read is that of the reads after the first one, if there are any. -/
theorem lastReadTime_succ (timeRead : Int) (reads : Nat) :
    lastReadTime clock (n + 1) (clock n) reads = lastReadTime clock n timeRead (reads + 1) := by
  cases reads with
  | zero => rfl
  | succ reads => exact congrArg clock (by omega)

theorem readOver_nil (hticking : Ticking s) : ReadOver clock n s s s.svf.entries [] := by
  refine ⟨by simp [retouch], ?_⟩
  simp [bytesOf, lastReadTime, Wrap.add_zero hticking.blockTouch, sizeAdd_zero hticking.countRead,
    sizeAdd_zero hticking.bytesRead]

/-- One block is read before the others. -/
theorem ReadOver.cons {before rest : List (Nat × Val)} {iter : Nat × Val}
    (h : ReadOver clock (n + 1) s₁ s' (before ++ [(iter.1, {iter.2 with blockTouch := s.blockTouch})]) rest)
    (hticking : Ticking s)
    (hframe : s₁ = {s with
      svf := s₁.svf
      blockTouch := touchSucc s.blockTouch
      countRead := sizeAdd s.countRead 1
      bytesRead := sizeAdd s.bytesRead iter.2.data.length
      timeRead := clock n}) : ReadOver clock n s s' before (iter :: rest) := by
  obtain ⟨hentries, hframe'⟩ := h
  rw [hframe] at hentries hframe'
  refine ⟨?_, ?_⟩
  · rw [hentries, retouch_cons hticking.blockTouch, List.append_assoc, List.singleton_append]
  · rw [hframe']
    simp only [bytesOf, segmentsOf_cons, Segments.total_cons, List.length_cons, touchSucc, Wrap.add_assoc,
      Nat.add_comm 1, lastReadTime_succ s.timeRead]

end ReadOver

namespace CpSparseVirtualFile
variable {self : CpSparseVirtualFile}

/-- The loop of `__getstate__` goes on from the object that its first read leaves. -/
theorem getstateBlocks_cons_self {clock : Nat → Int} {n fpos len : Nat} {data : List Byte}
    (hread : (self.pSvf.read (clock n) fpos len).result = .ok data) (blocks : List (Nat × Nat)) :
    (getstateBlocks clock ((fpos, len) :: blocks) n self).self =
      (getstateBlocks clock blocks (n + 1)
        (self.after _ (World.fixed_read (clock n) fpos len self.pSvf))).self := by
  simp only [getstateBlocks, svfReadAsPyBytes_of_read hread]
  cases hresult : (getstateBlocks clock blocks (n + 1)
    (self.after _ (World.fixed_read (clock n) fpos len self.pSvf))).result <;>
    simp only [PyOutcome.bind, hresult]

/-- The loop reads the blocks it is given. -/
theorem getstateBlocks_reads (clock : Nat → Int) {before rest : List (Nat × Val)} (n : Nat)
    (hcut : self.pSvf.file.svf.entries = before ++ rest) (hposition : ∀ iter ∈ rest, iter.1 < 2 ^ 64)
    (hsize : ∀ iter ∈ rest, iter.2.data.length < 2 ^ 64) (hticking : Ticking self.pSvf.file) :
    ReadOver clock n self.pSvf.file
      (getstateBlocks clock (rest.map fun iter => (iter.1, iter.2.data.length)) n self).self.pSvf.file
      before rest := by
  induction rest generalizing n self before with
  | nil =>
    rw [List.append_nil] at hcut
    subst hcut
    exact readOver_nil hticking
  | cons iter rest ih =>
    have hpos := hposition iter (List.mem_cons_self ..)
    have hlen := hsize iter (List.mem_cons_self ..)
    have hmem : iter ∈ self.pSvf.file.svf.entries := by simp [hcut]
    have hread := World.read_block (clock n) (SparseVirtualFile.mem_segments hmem) hlen
    obtain ⟨hentries, hframe⟩ := World.read_over (clock n) hcut hpos hlen
    rw [List.map_cons, getstateBlocks_cons_self hread]
    refine ReadOver.cons (ih (n + 1) ?_ ?_ ?_ ?_) hticking hframe
    · rw [after_pSvf, hentries, List.append_assoc, List.singleton_append]
    · exact fun t ht => hposition t (List.mem_cons_of_mem _ ht)
    · exact fun t ht => hsize t (List.mem_cons_of_mem _ ht)
    · rw [after_pSvf, hframe]
      exact ⟨Wrap.add_lt, Wrap.add_lt, Wrap.add_lt⟩

theorem getstate_self (clock : Nat → Int) : (self.getstate clock).self =
    (getstateBlocks clock self.pSvf.file.blocks 0 self).self := by
  unfold getstate PyOutcome.bind
  split <;> rfl

/-- What pickling does to the object: it reads every block, in the order of their positions,
and changes nothing else; and a punt removes the blocks by their new touches. -/
structure PickleReads (object : CpSparseVirtualFile) (clock : Nat → Int) : Prop where
  returns : (object.getstate clock).result = .returned (pickled object.pSvf.file)
  segments : (object.getstate clock).self.pSvf.file.segments = object.pSvf.file.segments
  reads : ReadOver clock 0 object.pSvf.file (object.getstate clock).self.pSvf.file [] object.pSvf.file.svf.entries
  punts : ∀ bound k, IsLeast {k | (retouchedOrder object.pSvf.file.blockTouch object.pSvf.file.svf.entries).length - 1 ≤ k ∨
      bytesOf ((retouchedOrder object.pSvf.file.blockTouch object.pSvf.file.svf.entries).drop k) < bound} k →
    World.Punted (object.getstate clock).self.pSvf bound
      (retouchedOrder object.pSvf.file.blockTouch object.pSvf.file.svf.entries) k
      ((object.getstate clock).self.pSvf.lruPunt bound)

/-- **Pickling reads every block** once, and a punt after it goes by position. -/
theorem pickle_reads (self : CpSparseVirtualFile) (clock : Nat → Int) (h : WellFormed self.pSvf.file)
    (hs : Representable self.pSvf.file) (hticking : Ticking self.pSvf.file) (hcounted : Counted self.pSvf.file)
    (htouches : ∀ iter ∈ self.pSvf.file.svf.entries, iter.2.blockTouch < 2 ^ 32)
    (hdistinct : self.pSvf.file.Distinct) : PickleReads self clock := by
  obtain ⟨self', hreturns, _, _⟩ := @getstate_returns self clock hs
  have hreads : ReadOver clock 0 self.pSvf.file (self.getstate clock).self.pSvf.file [] self.pSvf.file.svf.entries := by
    rw [getstate_self]
    exact getstateBlocks_reads clock 0 rfl hs.position hs.size hticking
  have hentries := hreads.entries
  rw [List.nil_append] at hentries
  have hsegments : (self.getstate clock).self.pSvf.file.segments = self.pSvf.file.segments := by
    rw [SparseVirtualFile.segments, hentries, segmentsOf_retouch]
    rfl
  have hbytes : (self.getstate clock).self.pSvf.file.bytesTotal = self.pSvf.file.bytesTotal := by
    rw [hreads.frame]
  refine ⟨congrArg PyOutcome.result hreturns, hsegments, hreads, fun bound k hk => ?_⟩
  refine World.punted_of_oldestFirst ⟨hsegments ▸ h.separated, by rw [hbytes, hsegments, h.bytesTotal]⟩
    (hs.of_segments hsegments (hbytes ▸ hs.bytesTotal)) ?_
    (oldestFirst_retouch hticking.blockTouch (hdistinct.length_le htouches) hentries) hk
  rw [hreads.frame]
  exact ⟨hcounted.blocksErased, hcounted.bytesErased, hcounted.blocksPunted, hcounted.bytesPunted⟩

theorem pickle_reads_twoBlockObject : PickleReads twoBlockObject fun n => n :=
  pickle_reads twoBlockObject _ tidy_twoBlockObject.toWellFormed tidy_twoBlockObject.representable
    ⟨by decide, by decide, by decide⟩ ⟨by decide, by decide, by decide, by decide⟩ (by decide)
    (by unfold SparseVirtualFile.Distinct; decide)

/-- Pickling as it would be if it were no access. -/
structure Unobserved (object : CpSparseVirtualFile) (clock : Nat → Int) (bound : Nat) : Prop where
  blocks : (object.getstate clock).self.pSvf.file.blocks = object.pSvf.file.blocks
  blockTouches : (object.getstate clock).self.pSvf.file.blockTouches.entries = object.pSvf.file.blockTouches.entries
  countRead : (object.getstate clock).self.pSvf.file.countRead = object.pSvf.file.countRead
  bytesRead : (object.getstate clock).self.pSvf.file.bytesRead = object.pSvf.file.bytesRead
  punts : ((object.getstate clock).self.pSvf.lruPunt bound).world.file.blocks =
    (object.pSvf.lruPunt bound).world.file.blocks

/-- The block written last is the first to go once the object was pickled. -/
theorem not_pickle_unobserved : ¬ ∀ (self : CpSparseVirtualFile) (clock : Nat → Int) (bound : Nat),
    Tidy self.pSvf.file → self.pSvf.file.Distinct → Unobserved self clock bound := by
  intro h
  have hunobserved := h twoBlockObject (fun n => n) 3 tidy_twoBlockObject
    (by unfold SparseVirtualFile.Distinct; decide)
  have hbefore : (twoBlockObject.pSvf.lruPunt 3).world.file.blocks = [(0, 2)] := by decide
  have hafter : ((twoBlockObject.getstate fun n => n).self.pSvf.lruPunt 3).world.file.blocks = [(6, 1)] := by
    decide
  have hpunts := hunobserved.punts
  rw [hbefore, hafter] at hpunts
  exact absurd hpunts (by decide)

end CpSparseVirtualFile
end Svfs
