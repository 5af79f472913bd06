import Svfs.Evict.Exact
import Svfs.Library.Run

/-! Punts compose.

What goes in a punt is a prefix of the blocks by age, and what goes in the next one a prefix of
the rest. Together they are the prefix that a punt to the lower of the two bounds takes
(`IsPunt.append`). So one punt after another leaves the very file, counters included, that one
punt to the least bound leaves, in whatever order the bounds come (`punts_compose`). -/
namespace Svfs

/-! ### Prefixes -/

section IsPunt
variable {bs : List (Nat × Val)} {a b i j : Nat}

theorem bytesOf_drop_le (bs : List (Nat × Val)) (i j : Nat) : bytesOf (bs.drop (i + j)) ≤ bytesOf (bs.drop i) := by
  have hsplit := congrArg bytesOf (List.take_append_drop j (bs.drop i))
  rw [bytesOf, segmentsOf_append, Segments.total_append, List.drop_drop] at hsplit
  simp only [bytesOf] at hsplit ⊢
  omega

/-- A prefix that is enough for one bound, and of the rest one that is enough for another, are
together what is enough for both. -/
theorem IsPunt.append (h : IsPunt a bs i) (h' : IsPunt b (bs.drop i) j) : IsPunt (min a b) bs (i + j) := by
  obtain ⟨hi, hleast⟩ := h
  obtain ⟨hj, hleast'⟩ := h'
  simp only [Set.mem_ofPred_eq, List.length_drop, List.drop_drop] at hi hj
  refine ⟨?_, fun k hk => ?_⟩
  · show bs.length - 1 ≤ i + j ∨ bytesOf (bs.drop (i + j)) < min a b
    have hle := bytesOf_drop_le bs i j
    rcases hj with hfew | hfits
    · exact .inl (by omega)
    · rcases hi with hfew | hfits'
      · exact .inl (by omega)
      · exact .inr (lt_min (hle.trans_lt hfits') hfits)
  · simp only [Set.mem_ofPred_eq, lt_min_iff] at hk
    have hik : i ≤ k := hleast (hk.imp_right And.left)
    have hjk : j ≤ k - i := by
      apply hleast'
      show (bs.drop i).length - 1 ≤ k - i ∨ bytesOf ((bs.drop i).drop (k - i)) < b
      rw [List.length_drop, List.drop_drop, show i + (k - i) = k by omega]
      exact hk.imp (fun hfew => by omega) And.right
    omega

end IsPunt

namespace World

/-- A file to be punted: the blocks by age, and their bytes counted. -/
structure Aged (w : World) (bs : List (Nat × Val)) : Prop extends ToPunt w bs where
  increasing : bs.Pairwise fun a b => a.2.blockTouch < b.2.blockTouch

section Punts
variable {w : World} {bs : List (Nat × Val)} {bound a b k : Nat}

/-- A punt takes a prefix, and leaves a file to be punted. -/
theorem Aged.lruPunt (h : Aged w bs) (hk : IsPunt bound bs k) :
    (w.lruPunt bound).result = .ok (bytesOf (bs.take k)) ∧
      Aged (w.lruPunt bound).world (bs.drop k) ∧
      (w.lruPunt bound).world.file.svf.entries = w.file.svf.entries.filter (· ∉ bs.take k) ∧
      (w.lruPunt bound).world.file.bytesTotal + bytesOf (bs.take k) = w.file.bytesTotal ∧
      (w.lruPunt bound).world.file = {w.file with
        svf := (w.lruPunt bound).world.file.svf
        bytesTotal := (w.lruPunt bound).world.file.bytesTotal
        blocksErased := sizeAdd w.file.blocksErased k
        bytesErased := sizeAdd w.file.bytesErased (bytesOf (bs.take k))
        blocksPunted := sizeAdd w.file.blocksPunted k
        bytesPunted := sizeAdd w.file.bytesPunted (bytesOf (bs.take k))} := by
  have holdest : OldestFirst w.file bs := ⟨h.perm, h.increasing⟩
  obtain ⟨w', hevicted, hleft, heq⟩ := lruPunt_evicts h.toToPunt hk holdest.blockTouches_entries
  have hframe := hevicted.frame
  rw [hk.length_take] at hframe
  have hpunted : w'.file.bytesPunted = w.file.bytesPunted := by rw [hframe]
  rw [heq]
  refine ⟨rfl, ⟨⟨hleft.perm, hleft.bytesTotal, hleft.fits, ?_⟩, h.increasing.drop⟩, hevicted.blocks,
    hevicted.bytesTotal, ?_⟩
  · exact ⟨hleft.counted.blocksErased, hleft.counted.bytesErased, hleft.counted.blocksPunted, Wrap.add_lt⟩
  · simp only [Outcome.returned_world]
    rw [hpunted, hframe]

/-- **Two punts** are one to the lower bound. -/
theorem Aged.lruPunt_lruPunt (h : Aged w bs) (a b : Nat) :
    ((w.lruPunt a).world.lruPunt b).world.file = (w.lruPunt (min a b)).world.file ∧
      ∃ m n, (w.lruPunt a).result = .ok m ∧ ((w.lruPunt a).world.lruPunt b).result = .ok n ∧
        (w.lruPunt (min a b)).result = .ok (m + n) := by
  obtain ⟨i, hi⟩ := exists_isPunt a bs
  obtain ⟨j, hj⟩ := exists_isPunt b (bs.drop i)
  obtain ⟨hresult, haged, hblocks, hbytes, hframe⟩ := h.lruPunt hi
  obtain ⟨hresult', _, hblocks', hbytes', hframe'⟩ := haged.lruPunt hj
  obtain ⟨hresult'', _, hblocks'', hbytes'', hframe''⟩ := h.lruPunt (hi.append hj)
  have htake : bs.take (i + j) = bs.take i ++ (bs.drop i).take j := List.take_add
  have hsum : bytesOf (bs.take (i + j)) = bytesOf (bs.take i) + bytesOf ((bs.drop i).take j) := by
    rw [htake, bytesOf, segmentsOf_append, Segments.total_append]
  have hsvf : ((w.lruPunt a).world.lruPunt b).world.file.svf = (w.lruPunt (min a b)).world.file.svf := by
    refine OrderedMap.ext ?_
    rw [hblocks', hblocks, hblocks'', List.filter_filter, htake]
    refine List.filter_congr fun e _ => ?_
    simp [Bool.and_comm]
  have htotal : ((w.lruPunt a).world.lruPunt b).world.file.bytesTotal =
      (w.lruPunt (min a b)).world.file.bytesTotal := by
    omega
  refine ⟨?_, _, _, hresult, hresult', ?_⟩
  · rw [hframe] at hframe'
    rw [hframe', hframe'', hsvf, htotal, hsum]
    simp only [sizeAdd_assoc]
  · rw [hresult'', hsum]

end Punts

/-- A punt, as a step. -/
def puntStep (bound : Nat) (w : World) : World := (w.lruPunt bound).world

/-- What punting to one bound after another returns in all. -/
def freedBy : List Nat → World → Nat
  | [], _ => 0
  | bound :: rest, w =>
    (match (w.lruPunt bound).result with
      | .ok n => n
      | .error _ => 0) + freedBy rest (puntStep bound w)

section Run
variable {w : World} {bs : List (Nat × Val)}

theorem Aged.run (h : Aged w bs) (bound : Nat) (rest : List Nat) :
    (Run.run puntStep w (bound :: rest)).file = (w.lruPunt (rest.foldl min bound)).world.file ∧
      (w.lruPunt (rest.foldl min bound)).result = .ok (freedBy (bound :: rest) w) := by
  induction rest generalizing w bs bound with
  | nil =>
    obtain ⟨k, hk⟩ := exists_isPunt bound bs
    refine ⟨rfl, ?_⟩
    simp only [List.foldl_nil, freedBy, (h.lruPunt hk).1, Nat.add_zero]
  | cons next rest ih =>
    obtain ⟨k, hk⟩ := exists_isPunt bound bs
    obtain ⟨hresult, haged, _⟩ := h.lruPunt hk
    obtain ⟨hfile, hfreed⟩ := ih haged next
    obtain ⟨hcompose, m, n, hm, hn, hmn⟩ := h.lruPunt_lruPunt bound (rest.foldl min next)
    have hleast : (next :: rest).foldl min bound = min bound (rest.foldl min next) := List.foldl_assoc
    rw [hleast]
    refine ⟨hfile.trans hcompose, hmn.trans (congrArg Except.ok ?_)⟩
    rw [freedBy, hm]
    exact congrArg (m + ·) (Except.ok.inj (hn.symm.trans hfreed))

/-- **Punts compose.** Punting a file with distinct touches to one bound after another leaves the
very file that one punt to the least of them leaves, and returns as much in all. -/
theorem punts_compose (w : World) (bound : Nat) (rest : List Nat) (h : WellFormed w.file)
    (hs : Representable w.file) (hc : Counted w.file) (hdistinct : w.file.Distinct) :
    (Run.run puntStep w (bound :: rest)).file = (w.lruPunt (rest.foldl min bound)).world.file ∧
      (w.lruPunt (rest.foldl min bound)).result = .ok (freedBy (bound :: rest) w) := by
  obtain ⟨bs, hbs⟩ := hdistinct.exists_oldestFirst
  exact Aged.run ⟨toPunt_of_oldestFirst h hs hc hbs, hbs.increasing⟩ bound rest

theorem punts_compose_four : (Run.run puntStep fourRead [9, 2, 6]).file = (fourRead.lruPunt 2).world.file ∧
    (fourRead.lruPunt 2).result = .ok (freedBy [9, 2, 6] fourRead) :=
  punts_compose fourRead 9 [2, 6] tidy_fourRead.toWellFormed tidy_fourRead.representable
    ⟨by decide, by decide, by decide, by decide⟩ (by unfold SparseVirtualFile.Distinct; decide)

end Run
end World
end Svfs
