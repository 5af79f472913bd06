import Mathlib.Data.List.Sort
import Svfs.Touch.Marks

/-! What `lru_punt` evicts.

With distinct touches `block_touches` lists the blocks, oldest touch first. The loop erases
along that list while more than one block is left and the bytes are not below the bound, so
what goes is the shortest prefix of the list that leaves no more than that
(`lru_punt_exact`); the counters rise by as much as went, and a second punt finds nothing to
do. -/
namespace Svfs

/-- The counters of what was removed are `size_t` values. -/
structure Counted (s : SparseVirtualFile) : Prop where
  blocksErased : s.blocksErased < 2 ^ 64
  bytesErased : s.bytesErased < 2 ^ 64
  blocksPunted : s.blocksPunted < 2 ^ 64
  bytesPunted : s.bytesPunted < 2 ^ 64

/-- The bytes of some blocks. -/
abbrev bytesOf (bs : List (Nat × Val)) : Nat := Segments.total (segmentsOf bs)

/-- All blocks, the least recently touched first. -/
structure OldestFirst (s : SparseVirtualFile) (bs : List (Nat × Val)) : Prop where
  perm : s.svf.entries.Perm bs
  increasing : bs.Pairwise fun a b => a.2.blockTouch < b.2.blockTouch

/-- The least number of blocks to go from the front of `bs`, so that at most one is left or
the bytes left are below the bound. -/
def IsPunt (bound : Nat) (bs : List (Nat × Val)) (k : Nat) : Prop :=
  IsLeast {k | bs.length - 1 ≤ k ∨ bytesOf (bs.drop k) < bound} k

/-! ### How many go -/

section IsPunt
variable {bs : List (Nat × Val)} {bound k : Nat}

theorem isPunt_zero_iff : IsPunt bound bs 0 ↔ bs.length ≤ 1 ∨ bytesOf bs < bound := by
  constructor
  · intro h
    have hzero : bs.length - 1 ≤ 0 ∨ bytesOf (bs.drop 0) < bound := h.1
    rw [List.drop_zero] at hzero
    exact hzero.imp_left fun hle => by omega
  · intro h
    refine ⟨?_, fun _ _ => Nat.zero_le _⟩
    show bs.length - 1 ≤ 0 ∨ bytesOf (bs.drop 0) < bound
    rw [List.drop_zero]
    exact h.imp_left fun hle => by omega

/-- Where the first block has to go, the others go on from there. -/
theorem IsPunt.succ {b : Nat × Val} {rest : List (Nat × Val)} (h : IsPunt bound (b :: rest) k)
    (hmore : ¬ ((b :: rest).length ≤ 1 ∨ bytesOf (b :: rest) < bound)) :
    ∃ j, k = j + 1 ∧ IsPunt bound rest j := by
  obtain ⟨hk, hleast⟩ := h
  have hshift : ∀ j, (rest.length - 1 ≤ j ∨ bytesOf (rest.drop j) < bound) ↔
      ((b :: rest).length - 1 ≤ j + 1 ∨ bytesOf ((b :: rest).drop (j + 1)) < bound) := by
    intro j
    rw [List.drop_succ_cons, List.length_cons]
    exact or_congr_left ⟨fun _ => by omega, fun _ => by omega⟩
  cases k with
  | zero => exact absurd (isPunt_zero_iff.mp ⟨hk, hleast⟩) hmore
  | succ j =>
    refine ⟨j, rfl, (hshift j).mpr hk, fun i hi => ?_⟩
    have := hleast ((hshift i).mp hi)
    omega

theorem IsPunt.le (h : IsPunt bound bs k) : k ≤ bs.length - 1 := h.2 (.inl (le_refl _))

theorem IsPunt.length_take (h : IsPunt bound bs k) : (bs.take k).length = k := by
  rw [List.length_take]
  have := h.le
  omega

/-- The blocks left over are few enough. -/
theorem IsPunt.drop (h : IsPunt bound bs k) : IsPunt bound (bs.drop k) 0 := by
  refine isPunt_zero_iff.mpr (h.1.imp_left fun hle => ?_)
  rw [List.length_drop]
  omega

theorem exists_isPunt (bound : Nat) (bs : List (Nat × Val)) : ∃ k, IsPunt bound bs k := by
  have hsome : ∃ k, bs.length - 1 ≤ k ∨ bytesOf (bs.drop k) < bound := ⟨_, .inl (le_refl _)⟩
  exact ⟨Nat.find hsome, Nat.find_spec hsome, fun _ hj => Nat.find_min' hsome hj⟩

end IsPunt

section OldestFirst
variable {s : SparseVirtualFile} {bs : List (Nat × Val)}

theorem OldestFirst.distinct (h : OldestFirst s bs) : s.Distinct := by
  have hsame : ∀ a ∈ bs, ∀ b ∈ bs, a.2.blockTouch = b.2.blockTouch → a.1 = b.1 := fun a ha b hb =>
    List.Pairwise.forall_of_forall_of_flip
      (R := fun a b : Nat × Val => a.2.blockTouch = b.2.blockTouch → a.1 = b.1) (fun _ _ _ => rfl) (h.increasing.imp fun hlt heq => absurd heq hlt.ne)
      (h.increasing.imp fun hlt heq => absurd heq hlt.ne') ha hb
  intro m hm m' hm' heq
  obtain ⟨iter, hiter, rfl⟩ := SparseVirtualFile.mem_marks.mp hm
  obtain ⟨iter', hiter', rfl⟩ := SparseVirtualFile.mem_marks.mp hm'
  exact hsame iter (h.perm.mem_iff.mp hiter) iter' (h.perm.mem_iff.mp hiter') heq

/-- `block_touches` is the list of blocks, oldest touch first. -/
theorem OldestFirst.blockTouches_entries (h : OldestFirst s bs) :
    s.blockTouches.entries = bs.map fun b => (b.2.blockTouch, b.1) := by
  refine OrderedMap.entries_eq_of_mem_iff (List.pairwise_map.mpr h.increasing) fun e => ?_
  rw [List.mem_map]
  constructor
  · intro he
    obtain ⟨iter, hiter, heq⟩ := SparseVirtualFile.mem_marks.mp (SparseVirtualFile.mem_blockTouches he)
    obtain ⟨hkey, htouch⟩ := Prod.mk.inj heq
    exact ⟨iter, h.perm.mem_iff.mp hiter, Prod.ext htouch hkey⟩
  · rintro ⟨iter, hiter, rfl⟩
    exact OrderedMap.mem_of_find? (h.distinct.blockTouches_find? (h.perm.mem_iff.mpr hiter))

/-- The blocks of a file with distinct touches can be put in that order. -/
theorem SparseVirtualFile.Distinct.exists_oldestFirst (h : s.Distinct) : ∃ bs, OldestFirst s bs := by
  let le : Nat × Val → Nat × Val → Prop := fun a b => a.2.blockTouch ≤ b.2.blockTouch
  have hperm : (s.svf.entries.insertionSort le).Perm s.svf.entries := List.perm_insertionSort le _
  have hsorted := List.pairwise_insertionSort le s.svf.entries
  have hne : (s.svf.entries.insertionSort le).Pairwise fun a b => a.2.blockTouch ≠ b.2.blockTouch :=
    h.pairwise.perm hperm.symm fun hne => hne.symm
  exact ⟨_, hperm.symm, hsorted.imp₂ (fun _ _ hle hne => lt_of_le_of_ne hle hne) hne⟩

end OldestFirst

namespace World

/-- These blocks were erased to make room. -/
structure Evicted (w : World) (taken : List (Nat × Val)) (w' : World) : Prop where
  blocks : w'.file.svf.entries = w.file.svf.entries.filter (· ∉ taken)
  bytesTotal : w'.file.bytesTotal + bytesOf taken = w.file.bytesTotal
  frame : w'.file = {w.file with
    svf := w'.file.svf
    bytesTotal := w'.file.bytesTotal
    blocksErased := sizeAdd w.file.blocksErased taken.length
    bytesErased := sizeAdd w.file.bytesErased (bytesOf taken)
    blocksPunted := sizeAdd w.file.blocksPunted taken.length}

section Loop
variable {w : World} {bs : List (Nat × Val)} {bound k : Nat}

theorem Evicted.refl (hc : Counted w.file) : Evicted w [] w := by
  refine ⟨by simp, rfl, ?_⟩
  simp [bytesOf, sizeAdd_zero hc.blocksErased, sizeAdd_zero hc.bytesErased, sizeAdd_zero hc.blocksPunted]

/-- The state of the loop: the blocks still there are those still listed, and their bytes
are counted. -/
structure ToPunt (w : World) (bs : List (Nat × Val)) : Prop where
  perm : w.file.svf.entries.Perm bs
  bytesTotal : w.file.bytesTotal = bytesOf bs
  fits : w.file.bytesTotal < 2 ^ 64
  counted : Counted w.file

theorem ToPunt.mustPunt_eq (h : ToPunt w bs) :
    w.mustPunt bound = (decide (1 < bs.length) && decide (bound ≤ bytesOf bs)) := by
  rw [mustPunt, OrderedMap.size, h.perm.length_eq, h.bytesTotal]

/-- One turn of the loop: the first block listed is erased. -/
def puntOne (b : Nat × Val) (w : World) : World :=
  {(w.erase b.1).world with file := {(w.erase b.1).world.file with
    blocksPunted := sizeAdd (w.erase b.1).world.file.blocksPunted 1}}

theorem ToPunt.puntOne {b : Nat × Val} {rest : List (Nat × Val)} (h : ToPunt w (b :: rest)) :
    (w.erase b.1).result = .ok b.2.data.length ∧ Evicted w [b] (puntOne b w) ∧ ToPunt (puntOne b w) rest := by
  have hmem : b ∈ w.file.svf.entries := h.perm.mem_iff.mpr (List.mem_cons_self ..)
  have hfind : w.file.svf.find? b.1 = some b.2 := OrderedMap.find?_of_mem hmem
  have hnodup : (b :: rest).Nodup := h.perm.nodup_iff.mp
    (w.file.svf.sorted.imp fun hlt heq => hlt.ne (congrArg Prod.fst heq))
  have hentries : (World.puntOne b w).file.svf.entries = w.file.svf.entries.filter (· ≠ b) := by
    simp only [World.puntOne, erase, hfind]
    exact OrderedMap.entries_erase_of_mem hmem
  have htotal := h.bytesTotal
  have hfits := h.fits
  simp only [bytesOf, segmentsOf_cons, Segments.total_cons] at htotal
  have hbytes : (World.puntOne b w).file.bytesTotal = w.file.bytesTotal - b.2.data.length := by
    simp only [World.puntOne, erase, hfind, Outcome.returned_world, eraseIter]
    exact sizeSub_of_le (by omega) hfits
  refine ⟨by simp [erase, hfind], ⟨?_, ?_, ?_⟩, ⟨?_, ?_, ?_, ?_⟩⟩
  · simpa using hentries
  · rw [hbytes]
    simp only [bytesOf, segmentsOf_cons, segmentsOf_nil, Segments.total_cons, Segments.total_nil]
    omega
  · simp [World.puntOne, erase, hfind, eraseIter, bytesOf]
  · rw [hentries]
    refine (h.perm.filter _).trans (List.Perm.of_eq ?_)
    rw [List.filter_cons_of_neg (by simp), List.filter_eq_self]
    intro e he
    have : e ≠ b := fun heq => (List.nodup_cons.mp hnodup).1 (heq ▸ he)
    simpa using this
  · rw [hbytes, bytesOf]
    omega
  · rw [hbytes]
    omega
  · simp only [World.puntOne, erase, hfind, Outcome.returned_world, eraseIter]
    exact ⟨Wrap.add_lt, Wrap.add_lt, Wrap.add_lt, h.counted.bytesPunted⟩

theorem Evicted.cons {b : Nat × Val} {taken : List (Nat × Val)} {w' w'' : World} (h : Evicted w [b] w')
    (h' : Evicted w' taken w'') : Evicted w (b :: taken) w'' := by
  refine ⟨?_, ?_, ?_⟩
  · rw [h'.blocks, h.blocks, List.filter_filter]
    refine List.filter_congr fun e _ => ?_
    simp [Bool.and_comm]
  · have hfirst := h.bytesTotal
    have hrest := h'.bytesTotal
    simp only [bytesOf, segmentsOf_cons, segmentsOf_nil, Segments.total_cons, Segments.total_nil]
      at hfirst hrest ⊢
    omega
  · have hfirst := h.frame
    have hrest := h'.frame
    rw [hfirst] at hrest
    rw [hrest]
    simp only [bytesOf, segmentsOf_cons, segmentsOf_nil, Segments.total_cons, Segments.total_nil,
      List.length_cons, List.length_nil, sizeAdd_assoc, Nat.zero_add, Nat.add_zero, Nat.add_comm 1]

/-! ### The loop -/

theorem ToPunt.mustPunt_iff (h : ToPunt w bs) : w.mustPunt bound = false ↔ IsPunt bound bs 0 := by
  rw [h.mustPunt_eq, isPunt_zero_iff, Bool.and_eq_false_iff, decide_eq_false_iff_not, decide_eq_false_iff_not,
    not_lt, not_le]

/-- The loop takes the shortest prefix that is enough. -/
theorem lruPuntLoop_evicts (h : ToPunt w bs) (hk : IsPunt bound bs k) (ret : Nat) (hret : ret < 2 ^ 64) :
    (lruPuntLoop bound (bs.map fun b => (b.2.blockTouch, b.1)) ret w).result =
        .ok (sizeAdd ret (bytesOf (bs.take k))) ∧
      Evicted w (bs.take k) (lruPuntLoop bound (bs.map fun b => (b.2.blockTouch, b.1)) ret w).world ∧
      ToPunt (lruPuntLoop bound (bs.map fun b => (b.2.blockTouch, b.1)) ret w).world (bs.drop k) := by
  induction bs generalizing w k ret with
  | nil =>
    have hdone : sizeAdd ret (bytesOf ([].take k)) = ret := by
      rw [List.take_nil]
      exact sizeAdd_zero hret
    rw [hdone, List.take_nil, List.drop_nil]
    exact ⟨rfl, Evicted.refl h.counted, h⟩
  | cons b rest ih =>
    rw [List.map_cons, lruPuntLoop]
    by_cases hstop : IsPunt bound (b :: rest) 0
    · obtain rfl : k = 0 := hk.unique hstop
      rw [if_neg (by rw [h.mustPunt_iff.mpr hstop]; simp), List.take_zero, List.drop_zero]
      refine ⟨?_, Evicted.refl h.counted, h⟩
      exact congrArg Except.ok (sizeAdd_zero hret).symm
    · obtain ⟨j, rfl, hj⟩ := hk.succ fun hmore => hstop (isPunt_zero_iff.mpr hmore)
      have hmust : w.mustPunt bound = true := by
        by_contra hnot
        exact hstop (h.mustPunt_iff.mp (by simpa using hnot))
      obtain ⟨hresult, hevicted, hnext⟩ := h.puntOne
      obtain ⟨hresult', hevicted', hnext'⟩ := ih hnext hj (sizeAdd ret b.2.data.length) Wrap.add_lt
      rw [if_pos hmust, Outcome.bind_of_ok hresult, List.take_succ_cons, List.drop_succ_cons]
      refine ⟨hresult'.trans (congrArg Except.ok ?_), hevicted.cons hevicted', hnext'⟩
      rw [sizeAdd_assoc, bytesOf, bytesOf, segmentsOf_cons, Segments.total_cons]

/-- What a punt is to leave behind, with the `k` blocks to go at the front of `bs`. -/
structure Punted (w : World) (bound : Nat) (bs : List (Nat × Val)) (k : Nat) (o : Outcome Nat) : Prop where
  result : o.result = .ok (bytesOf (bs.take k))
  /-- Those blocks are gone; the others are as they were. -/
  blocks : o.world.file.svf.entries = w.file.svf.entries.filter (· ∉ bs.take k)
  bytesTotal : o.world.file.bytesTotal + bytesOf (bs.take k) = w.file.bytesTotal
  frame : o.world.file = {w.file with
    svf := o.world.file.svf
    bytesTotal := o.world.file.bytesTotal
    blocksErased := sizeAdd w.file.blocksErased k
    bytesErased := sizeAdd w.file.bytesErased (bytesOf (bs.take k))
    blocksPunted := sizeAdd w.file.blocksPunted k
    bytesPunted := sizeAdd w.file.bytesPunted (bytesOf (bs.take k))}
  /-- A second punt finds nothing to do. -/
  again : (o.world.lruPunt bound).result = .ok 0 ∧ (o.world.lruPunt bound).world.file = o.world.file

theorem toPunt_of_oldestFirst (h : WellFormed w.file) (hs : Representable w.file) (hc : Counted w.file)
    (hbs : OldestFirst w.file bs) : ToPunt w bs := by
  refine ⟨hbs.perm, ?_, hs.bytesTotal, hc⟩
  rw [h.bytesTotal]
  exact Segments.total_perm (hbs.perm.map _)

/-- A punt with nothing to do. -/
theorem lruPunt_idle (h : w.mustPunt bound = false) (hpunted : w.file.bytesPunted < 2 ^ 64) :
    (w.lruPunt bound).result = .ok 0 ∧ (w.lruPunt bound).world.file = w.file := by
  rw [lruPunt, if_neg (by rw [h]; simp), Outcome.bind_returned]
  refine ⟨rfl, ?_⟩
  rw [Outcome.returned_world, sizeAdd_zero hpunted]

/-- The loop, whether or not it is entered. -/
theorem lruPunt_evicts (h : ToPunt w bs) (hk : IsPunt bound bs k)
    (htouches : w.file.blockTouches.entries = bs.map fun b => (b.2.blockTouch, b.1)) :
    ∃ w', Evicted w (bs.take k) w' ∧ ToPunt w' (bs.drop k) ∧
      w.lruPunt bound = .returned (bytesOf (bs.take k))
        {w' with file := {w'.file with bytesPunted := sizeAdd w'.file.bytesPunted (bytesOf (bs.take k))}} := by
  have hfits : bytesOf (bs.take k) < 2 ^ 64 := by
    have htotal := h.bytesTotal
    have hsplit : bytesOf bs = bytesOf (bs.take k) + bytesOf (bs.drop k) := by
      rw [← Segments.total_append, ← segmentsOf_append, List.take_append_drop]
    have := h.fits
    omega
  rw [lruPunt]
  split
  · obtain ⟨hresult, hevicted, hleft⟩ := lruPuntLoop_evicts h hk 0 (by omega)
    rw [htouches, Outcome.bind_of_ok hresult, sizeAdd_of_lt (by omega), Nat.zero_add]
    exact ⟨_, hevicted, hleft, rfl⟩
  · rename_i hstop
    obtain rfl : k = 0 := hk.unique (h.mustPunt_iff.mp (by simpa using hstop))
    exact ⟨w, Evicted.refl h.counted, h, rfl⟩

/-- A punt takes the shortest prefix that is enough. -/
theorem punted_of_oldestFirst (h : WellFormed w.file) (hs : Representable w.file) (hc : Counted w.file)
    (hbs : OldestFirst w.file bs) (hk : IsPunt bound bs k) : Punted w bound bs k (w.lruPunt bound) := by
  obtain ⟨w', hevicted, hleft, heq⟩ := lruPunt_evicts (toPunt_of_oldestFirst h hs hc hbs) hk
    hbs.blockTouches_entries
  have hframe := hevicted.frame
  have hpunted : w'.file.bytesPunted = w.file.bytesPunted := by rw [hframe]
  rw [hk.length_take] at hframe
  rw [heq]
  refine ⟨rfl, hevicted.blocks, hevicted.bytesTotal, ?_, ?_⟩
  · simp only [Outcome.returned_world]
    rw [hpunted, hframe]
  · exact lruPunt_idle (hleft.mustPunt_iff.mpr hk.drop) Wrap.add_lt

/-- A punt of a file with distinct touches returns what it takes from the count, and a
second one nothing. -/
theorem lruPunt_frees (h : WellFormed w.file) (hs : Representable w.file) (hc : Counted w.file)
    (hdistinct : w.file.Distinct) (bound : Nat) :
    ∃ n, (w.lruPunt bound).result = .ok n ∧
      (w.lruPunt bound).world.file.numBytes + n = w.file.numBytes ∧
      ((w.lruPunt bound).world.lruPunt bound).result = .ok 0 ∧
      ((w.lruPunt bound).world.lruPunt bound).world.file = (w.lruPunt bound).world.file := by
  obtain ⟨bs, hbs⟩ := hdistinct.exists_oldestFirst
  obtain ⟨k, hk⟩ := exists_isPunt bound bs
  have hpunted := punted_of_oldestFirst h hs hc hbs hk
  exact ⟨_, hpunted.result, hpunted.bytesTotal, hpunted.again⟩

end Loop

/-- **`lru_punt` evicts exactly** the shortest prefix of the blocks, least recently touched
first, that leaves at most one block or brings the bytes below the bound. -/
theorem lru_punt_exact (w : World) (bound k : Nat) (bs : List (Nat × Val)) (h : WellFormed w.file)
    (hs : Representable w.file) (hc : Counted w.file) (hbs : OldestFirst w.file bs)
    (hk : IsLeast {k | bs.length - 1 ≤ k ∨ bytesOf (bs.drop k) < bound} k) :
    Punted w bound bs k (w.lruPunt bound) := punted_of_oldestFirst h hs hc hbs hk

/-- Four blocks, read out of order. -/
def fourRead : World := Run.run Command.step (World.new [] 0) [.write 0 0 [1, 1], .write 0 4 [2, 2, 2],
  .write 0 9 [3], .write 0 12 [4, 4], .read 0 0 2, .read 0 9 1]

theorem tidy_fourRead : Tidy fourRead.file where
  separated := ⟨by decide, by decide⟩
  bytesTotal := by decide
  within := by decide

theorem lru_punt_exact_four : Punted fourRead 4
    [(4, ⟨[2, 2, 2], 1⟩), (12, ⟨[4, 4], 3⟩), (0, ⟨[1, 1], 4⟩), (9, ⟨[3], 5⟩)] 2 (fourRead.lruPunt 4) :=
  lru_punt_exact fourRead 4 2 _ tidy_fourRead.toWellFormed tidy_fourRead.representable
    ⟨by decide, by decide, by decide, by decide⟩ ⟨by decide, by decide⟩
    ⟨by decide, fun j hj => by
      by_contra hlt
      have hcases : j = 0 ∨ j = 1 := by omega
      rcases hcases with rfl | rfl <;> revert hj <;> decide⟩

end World
end Svfs
