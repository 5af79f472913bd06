import Svfs.Evict.Exact

/-! What the calls count.

Beside its blocks a file keeps ten counters. Only the last line of a write moves those of the
writes, so that one that throws leaves all of them, however far it got (`counters_writeBlocks`).
A punt never throws, since it is told of no block that is not there, and counts every block it
takes twice over, as erased and as punted (`lruPunt_counters`). -/
namespace Svfs

/-- What `count_write`, `bytes_write` and their like answer. -/
structure Counters where
  countWrite : Nat
  bytesWrite : Nat
  timeWrite : Int
  countRead : Nat
  bytesRead : Nat
  timeRead : Int
  blocksErased : Nat
  bytesErased : Nat
  blocksPunted : Nat
  bytesPunted : Nat

def SparseVirtualFile.counters (s : SparseVirtualFile) : Counters where
  countWrite := s.countWrite
  bytesWrite := s.bytesWrite
  timeWrite := s.timeWrite
  countRead := s.countRead
  bytesRead := s.bytesRead
  timeRead := s.timeRead
  blocksErased := s.blocksErased
  bytesErased := s.bytesErased
  blocksPunted := s.blocksPunted
  bytesPunted := s.bytesPunted

namespace Counters

/-- The counters after a write, -/
def write (now : Int) (len : Nat) (c : Counters) : Counters :=
  {c with countWrite := sizeAdd c.countWrite 1, bytesWrite := sizeAdd c.bytesWrite len, timeWrite := now}

/-- after a read, -/
def read (now : Int) (len : Nat) (c : Counters) : Counters :=
  {c with countRead := sizeAdd c.countRead 1, bytesRead := sizeAdd c.bytesRead len, timeRead := now}

/-- after blocks of these sizes were erased, -/
def erase (sizes : List Nat) (c : Counters) : Counters :=
  {c with
    blocksErased := sizeAdd c.blocksErased sizes.length
    bytesErased := sizeAdd c.bytesErased sizes.sum}

/-- and after they were punted, as far as the loop counts. -/
def punt (sizes : List Nat) (c : Counters) : Counters :=
  {c.erase sizes with blocksPunted := sizeAdd c.blocksPunted sizes.length}

end Counters

theorem Frame.counters {w w' : World} (h : Frame w w') : w'.file.counters = w.file.counters := by
  unfold Frame at h
  rw [h]
  rfl

namespace World
variable {w : World} {bound : Nat}

/-! ### Writing -/

theorem counters_keptByWalk (passed : List Nat) :
    KeptByWalk passed fun w w' => w'.file.counters = w.file.counters where
  refl _ := rfl
  trans hab hbc := hbc.trans hab
  emit _ _ _ := rfl
  addBytes _ _ := rfl
  pushBack _ _ _ := rfl
  swallow w k _ := (frame_swallow w k).counters

theorem counters_insertNew (caller : String) (fpos : Nat) (v : Val) (w : World) :
    (w.insertNew caller fpos v).world.file.counters = w.file.counters := by
  unfold insertNew
  dsimp only
  split <;> rfl

/-- Whatever a write does to the blocks, and wherever it throws, it has counted nothing. -/
theorem counters_writeBlocks (fpos : Nat) (data : List Byte) (w : World) :
    (w.writeBlocks fpos data).world.file.counters = w.file.counters := by
  have hnew : (w.writeNewBlock fpos data).world.file.counters = w.file.counters := by
    unfold writeNewBlock
    rw [counters_insertNew]
    rfl
  unfold writeBlocks
  split
  · exact hnew
  · split
    · rfl
    · split
      · split
        · unfold writeNewAppendOld
          refine Outcome.bind_world (P := fun w' => w'.file.counters = w.file.counters) ?_ ?_
          · exact (counters_keptByWalk _).prependLoop ..
          · intro built w' hw'
            refine Outcome.bind_world (P := fun w'' => w''.file.counters = w.file.counters) ?_ ?_
            · rw [counters_insertNew, hw']
            · exact fun _ w'' hw'' => hw''
        · exact hnew
      · split
        · exact hnew
        · unfold writeAppendNewToOld
          refine Outcome.bind_world (P := fun w' => w'.file.counters = w.file.counters) ?_ ?_
          · exact (counters_keptByWalk []).diffCheck _
          · intro _ w' hw'
            refine Outcome.bind_world (P := fun w'' => w''.file.counters = w.file.counters) ?_ ?_
            · rw [(counters_keptByWalk _).appendLoop .., hw']
            · exact fun _ w'' hw'' => hw''

/-- A write counts when it is through. -/
theorem write_counts (now : Int) (fpos : Nat) (data : List Byte) (w : World) :
    ((w.write now fpos data).result = .ok () ∧
      (w.write now fpos data).world.file.counters = w.file.counters.write now data.length) ∨
    ∃ e, (w.write now fpos data).result = .error e ∧ (w.write now fpos data).world.file.counters = w.file.counters := by
  have hframe := counters_writeBlocks fpos data w
  unfold write
  cases hresult : (w.writeBlocks fpos data).result with
  | error e =>
    rw [Outcome.bind_of_error hresult]
    exact .inr ⟨e, rfl, hframe⟩
  | ok _ =>
    rw [Outcome.bind_of_ok hresult]
    exact .inl ⟨rfl, congrArg (Counters.write now data.length) hframe⟩

/-! ### Reading and erasing -/

theorem read_counts (now : Int) (fpos len : Nat) (w : World) :
    (∃ data, (w.read now fpos len).result = .ok data ∧
      (w.read now fpos len).world.file.counters = w.file.counters.read now len) ∨
    ∃ e, w.read now fpos len = .threw e w := by
  rcases read_cases now fpos len w with ⟨_, m, heq⟩ | ⟨pre, iter, rest, _, _, _, heq⟩
  · exact .inr ⟨_, heq⟩
  · rw [heq]
    rcases Nat.lt_or_ge iter.2.data.length
      (sizeAdd (if iter.1 = fpos then 0 else sizeSub fpos iter.1) len) with hover | hfits
    · exact .inr ⟨_, readFrom_throws hover⟩
    · rw [readFrom_returns hfits]
      exact .inl ⟨_, rfl, rfl⟩

theorem erase_counts (fpos : Nat) (w : World) :
    (∃ n, (w.erase fpos).result = .ok n ∧ (w.erase fpos).world.file.counters = w.file.counters.erase [n]) ∨
    ∃ e, w.erase fpos = .threw e w := by
  rcases erase_cases fpos w with ⟨_, heq⟩ | ⟨pre, v, post, _, hresult, _, hfile, _⟩
  · exact .inr ⟨_, heq⟩
  · refine .inl ⟨_, hresult, ?_⟩
    rw [hfile]
    rfl

/-! ### Punting -/

/-- The blocks still listed are there, each listed once. -/
structure AllThere (touches : List (Nat × Nat)) (w : World) : Prop where
  once : (touches.map Prod.snd).Nodup
  there : ∀ k ∈ touches.map Prod.snd, w.file.svf.find? k ≠ none

theorem allThere_blockTouches (w : World) : AllThere w.file.blockTouches.entries w := by
  refine ⟨w.file.nodup_blockTouches, fun k hk => ?_⟩
  obtain ⟨⟨t, j⟩, he, rfl⟩ := List.mem_map.mp hk
  exact SparseVirtualFile.find?_ne_none_of_blockTouches he

/-- A turn of the loop leaves the other blocks. -/
theorem AllThere.erase {iter : Nat × Nat} {rest : List (Nat × Nat)} (h : AllThere (iter :: rest) w)
    {pre post : List (Nat × Val)} {v : Val} {w' : World} (hcut : w.file.svf.entries = pre ++ (iter.2, v) :: post)
    (hentries : w'.file.svf.entries = pre ++ post) : AllThere rest w' := by
  obtain ⟨hnot, hrest⟩ := List.nodup_cons.mp h.once
  refine ⟨hrest, fun k hk hnone => ?_⟩
  refine h.there k (List.mem_cons_of_mem _ hk) (OrderedMap.find?_eq_none_iff.mpr fun e he hkey => ?_)
  rw [hcut] at he
  have hother : ∀ e ∈ w'.file.svf.entries, e.1 ≠ k := OrderedMap.find?_eq_none_iff.mp hnone
  rw [hentries] at hother
  rcases List.mem_append.mp he with he | he
  · exact hother e (List.mem_append_left _ he) hkey
  · rcases List.mem_cons.mp he with rfl | he
    · rw [← show iter.2 = k from hkey] at hk
      exact absurd hk hnot
    · exact hother e (List.mem_append_right _ he) hkey

/-- Blocks of these sizes went, and were counted (where the counters are `size_t` values). -/
structure Gone (w : World) (sizes : List Nat) (w' : World) : Prop where
  numBlocks : w'.file.numBlocks + sizes.length = w.file.numBlocks
  total : Segments.total w'.file.segments + sizes.sum = Segments.total w.file.segments
  counters : Counted w.file → w'.file.counters = w.file.counters.punt sizes

theorem Gone.refl (w : World) : Gone w [] w := by
  refine ⟨rfl, rfl, fun hc => ?_⟩
  have hblocks : sizeAdd w.file.counters.blocksErased 0 = w.file.blocksErased := sizeAdd_zero hc.blocksErased
  have hbytes : sizeAdd w.file.counters.bytesErased 0 = w.file.bytesErased := sizeAdd_zero hc.bytesErased
  have hpunted : sizeAdd w.file.counters.blocksPunted 0 = w.file.blocksPunted := sizeAdd_zero hc.blocksPunted
  rw [Counters.punt, Counters.erase, List.length_nil, List.sum_nil, hblocks, hbytes, hpunted]
  rfl

theorem Gone.counted {sizes : List Nat} {w' : World} (h : Gone w sizes w') (hc : Counted w.file) :
    Counted w'.file := by
  have hblocks : w'.file.blocksErased = sizeAdd _ _ := congrArg Counters.blocksErased (h.counters hc)
  have hbytes : w'.file.bytesErased = sizeAdd _ _ := congrArg Counters.bytesErased (h.counters hc)
  have hpunted : w'.file.blocksPunted = sizeAdd _ _ := congrArg Counters.blocksPunted (h.counters hc)
  have hsame : w'.file.bytesPunted = w.file.bytesPunted := congrArg Counters.bytesPunted (h.counters hc)
  exact ⟨hblocks ▸ Wrap.add_lt, hbytes ▸ Wrap.add_lt, hpunted ▸ Wrap.add_lt, hsame ▸ hc.bytesPunted⟩

theorem Gone.cons {n : Nat} {sizes : List Nat} {w' w'' : World} (h : Gone w [n] w') (h' : Gone w' sizes w'') :
    Gone w (n :: sizes) w'' := by
  have hblocks := h.numBlocks
  have hblocks' := h'.numBlocks
  have htotal := h.total
  have htotal' := h'.total
  simp only [List.length_singleton, List.sum_singleton] at hblocks htotal
  refine ⟨?_, ?_, fun hc => ?_⟩
  · rw [List.length_cons]
    omega
  · rw [List.sum_cons]
    omega
  · rw [h'.counters (h.counted hc), h.counters hc]
    simp only [Counters.punt, Counters.erase, List.length_cons, List.length_nil, List.sum_cons, List.sum_nil,
      sizeAdd_assoc, Nat.zero_add, Nat.add_zero, Nat.add_comm 1]

/-- One turn of the loop. -/
theorem gone_puntOne {pre post : List (Nat × Val)} {k : Nat} {v : Val}
    (hcut : w.file.svf.entries = pre ++ (k, v) :: post) : Gone w [v.data.length] (puntOne (k, v) w) := by
  have hfind : w.file.svf.find? k = some v := OrderedMap.find?_cut hcut
  have hentries : (puntOne (k, v) w).file.svf.entries = pre ++ post := by
    simp only [puntOne, erase, hfind]
    exact OrderedMap.entries_erase hcut
  refine ⟨?_, ?_, ?_⟩
  · simp only [SparseVirtualFile.numBlocks, OrderedMap.size, hentries, hcut, List.length_append, List.length_cons,
      List.length_nil]
    omega
  · simp only [SparseVirtualFile.segments, hentries, hcut, segmentsOf_append, segmentsOf_cons, Segments.total_append,
      Segments.total_cons, List.sum_cons, List.sum_nil]
    omega
  · intro _
    simp only [puntOne, erase, hfind]
    rfl

/-- **The loop** finds every block it is told of. -/
theorem lruPuntLoop_gone {touches : List (Nat × Nat)} (h : AllThere touches w) {ret : Nat} (hret : ret < 2 ^ 64) :
    ∃ sizes, (lruPuntLoop bound touches ret w).result = .ok (sizeAdd ret sizes.sum) ∧
      Gone w sizes (lruPuntLoop bound touches ret w).world := by
  induction touches generalizing w ret with
  | nil => exact ⟨[], congrArg Except.ok (sizeAdd_zero hret).symm, .refl w⟩
  | cons iter rest ih =>
    simp only [lruPuntLoop]
    split
    · rcases erase_cases iter.2 w with ⟨hnone, _⟩ | ⟨pre, v, post, hcut, hresult, hentries, _, _⟩
      · exact absurd hnone (h.there iter.2 (List.mem_cons_self ..))
      · rw [Outcome.bind_of_ok hresult]
        have hone := gone_puntOne hcut
        have hleft : AllThere rest (puntOne (iter.2, v) w) := h.erase hcut hentries
        have hret' : sizeAdd ret v.data.length < 2 ^ 64 := Wrap.add_lt
        obtain ⟨sizes, hresult', hgone⟩ := ih hleft hret'
        refine ⟨v.data.length :: sizes, ?_, hone.cons hgone⟩
        rw [List.sum_cons, ← sizeAdd_assoc]
        exact hresult'
    · exact ⟨[], congrArg Except.ok (sizeAdd_zero hret).symm, .refl w⟩

/-- **A punt** returns, and counts what it took. -/
theorem lruPunt_gone (bound : Nat) (w : World) :
    ∃ sizes w', Gone w sizes w' ∧ w.lruPunt bound = .returned (sizeAdd 0 sizes.sum)
      {w' with file := {w'.file with bytesPunted := sizeAdd w'.file.bytesPunted (sizeAdd 0 sizes.sum)}} := by
  rw [lruPunt]
  split
  · obtain ⟨sizes, hresult, hgone⟩ := @lruPuntLoop_gone w bound _ (allThere_blockTouches w) 0 (by omega)
    rw [Outcome.bind_of_ok hresult]
    exact ⟨sizes, _, hgone, rfl⟩
  · exact ⟨[], w, .refl w, rfl⟩

theorem lruPunt_returns (bound : Nat) (w : World) : (w.lruPunt bound).Returns := by
  obtain ⟨sizes, w', _, heq⟩ := lruPunt_gone bound w
  rw [heq]
  exact ⟨_, rfl⟩

end World
end Svfs
