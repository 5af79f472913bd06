import Svfs.File.WellFormed

/-! Reading finds the block at or before the file position.

`read` looks for it from the other side than `has` and `write` do, with two special
cases; `read_cases` says that it ends at the same block. -/
namespace Svfs
namespace World
variable {w : World} {now : Int} {fpos len : Nat}

/-- Every block begins after the file position. -/
theorem read_before (hafter : ∀ iter ∈ w.file.svf.entries, fpos < iter.1) :
    ∃ m, w.read now fpos len = .threw (.read m) w := by
  cases h : w.file.svf.entries with
  | nil =>
    rw [read, if_pos ((OrderedMap.isEmpty_iff _).mpr h)]
    exact ⟨_, rfl⟩
  | cons iter rest =>
    have hlower := OrderedMap.lowerBound_first (m := w.file.svf) (k := fpos) fun e he => (hafter e he).le
    have hiter := hafter iter (h ▸ List.mem_cons_self ..)
    have hne : w.file.svf.isEmpty = false := OrderedMap.isEmpty_eq_false (by simp [h])
    refine ⟨precedesMessage fpos iter.1, ?_⟩
    simp [read, hne, hlower, h, hiter.ne']

/-- A block begins at the file position: the lower bound is that block. -/
theorem read_at {pre rest : List (Nat × Val)} {iter : Nat × Val}
    (h : w.file.svf.entries = pre ++ iter :: rest) (heq : iter.1 = fpos)
    (hrest : ∀ next ∈ rest, fpos < next.1) :
    w.read now fpos len = w.readFrom now fpos len iter 0 := by
  have hne : w.file.svf.isEmpty = false := OrderedMap.isEmpty_of_cut h
  have hlower : w.file.svf.lowerBound fpos = ⟨pre, iter :: rest⟩ := by
    apply OrderedMap.lowerBound_cut h
    · intro e he
      rw [← heq]
      exact (OrderedMap.cut_lt w.file.svf.sorted h).1 e he
    · intro e he
      rcases List.mem_cons.mp he with rfl | he
      · exact heq.ge
      · exact (hrest e he).le
  simp [read, hne, hlower, heq]

/-- The file position is past the beginning of a block: the lower bound is the block
after it and the read takes a step back. -/
theorem read_after {pre rest : List (Nat × Val)} {iter : Nat × Val}
    (h : w.file.svf.entries = pre ++ iter :: rest) (hlt : iter.1 < fpos)
    (hrest : ∀ next ∈ rest, fpos < next.1) :
    w.read now fpos len = w.readFrom now fpos len iter (sizeSub fpos iter.1) := by
  have hne : w.file.svf.isEmpty = false := OrderedMap.isEmpty_of_cut h
  have hcut : w.file.svf.entries = (pre ++ [iter]) ++ rest := by
    rw [h, List.append_assoc, List.singleton_append]
  have hlower : w.file.svf.lowerBound fpos = ⟨pre ++ [iter], rest⟩ := by
    apply OrderedMap.lowerBound_cut hcut
    · intro e he
      rcases List.mem_append.mp he with he | he
      · exact ((OrderedMap.cut_lt w.file.svf.sorted h).1 e he).trans hlt
      · rwa [List.mem_singleton.mp he]
    · exact fun e he => (hrest e he).le
  have hhit : (rest.head?.map Prod.fst == some fpos) = false := by
    cases rest with
    | nil => rfl
    | cons next _ => simpa using (hrest next (List.mem_cons_self ..)).ne'
  simp only [read, hne, hlower, hhit, Bool.false_eq_true, if_false, OrderedMap.Cursor.prev_append]
  simp

/-- The block a read looks at: the last one that begins at or before the file
position. With none there it throws. -/
theorem read_cases (now : Int) (fpos len : Nat) (w : World) :
    ((∀ iter ∈ w.file.svf.entries, fpos < iter.1) ∧
      ∃ m, w.read now fpos len = .threw (.read m) w) ∨
    ∃ pre iter rest, w.file.svf.entries = pre ++ iter :: rest ∧ iter.1 ≤ fpos ∧
      (∀ next ∈ rest, fpos < next.1) ∧
      w.read now fpos len =
        w.readFrom now fpos len iter (if iter.1 = fpos then 0 else sizeSub fpos iter.1) := by
  obtain ⟨pre, rest, h, hpre, hrest⟩ := w.file.svf.cut_at fpos
  rcases List.eq_nil_or_concat' pre with rfl | ⟨front, iter, rfl⟩
  · left
    rw [List.nil_append] at h
    have hafter : ∀ iter ∈ w.file.svf.entries, fpos < iter.1 := fun iter hiter => hrest iter (h ▸ hiter)
    exact ⟨hafter, read_before hafter⟩
  · right
    rw [List.append_assoc, List.singleton_append] at h
    refine ⟨front, iter, rest, h, hpre iter (by simp), hrest, ?_⟩
    rcases (hpre iter (by simp)).lt_or_eq with hlt | heq
    · rw [if_neg hlt.ne, read_after h hlt hrest]
    · rw [if_pos heq, read_at h heq hrest]

theorem readFrom_throws {iter : Nat × Val} {offset : Nat}
    (h : iter.2.data.length < sizeAdd offset len) :
    w.readFrom now fpos len iter offset =
      .threw (.read (overrunMessage fpos len iter.1 iter.2.data.length offset)) w := if_pos h

/-- What a read that returned leaves behind. -/
def countRead (now : Int) (len : Nat) (iter : Nat × Val) (offset : Nat) (w : World) : World where
  file := {w.file with
    svf := w.file.svf.modify iter.1 fun v => {v with blockTouch := w.file.blockTouch}
    blockTouch := touchSucc w.file.blockTouch
    bytesRead := sizeAdd w.file.bytesRead len
    countRead := sizeAdd w.file.countRead 1
    timeRead := now}
  log := .copy iter.2.data.length offset len :: w.log

theorem readFrom_returns {iter : Nat × Val} {offset : Nat}
    (h : sizeAdd offset len ≤ iter.2.data.length) :
    w.readFrom now fpos len iter offset =
      .returned ((iter.2.data.drop offset).take len) (w.countRead now len iter offset) :=
  if_neg (not_lt.mpr h)

end World

/-- A read can hand these bytes out: they lie in the last block that begins at or before the
first of them. -/
def SparseVirtualFile.Reads (s : SparseVirtualFile) (fpos len : Nat) (bytes : List Byte) : Prop :=
  ∃ iter, s.svf.LastAt fpos iter ∧ fpos - iter.1 + len ≤ iter.2.data.length ∧
    (iter.2.data.drop (fpos - iter.1)).take len = bytes

/-- A touch does not show in the bytes. -/
theorem segmentsOf_modify (m : BlockMap) (k : Nat) {f : Val → Val} (hf : ∀ v, (f v).data = v.data) :
    segmentsOf (m.modify k f).entries = segmentsOf m.entries := by
  simp only [segmentsOf, OrderedMap.modify, List.map_map]
  apply List.map_congr_left
  intro e _
  simp only [Function.comp]
  split
  · rw [hf]
  · rfl

namespace World
variable {w : World} {now : Int} {fpos len : Nat}

/-- A read looks at the last block to begin at or before its position, -/
theorem read_at_last {iter : Nat × Val} (h : w.file.svf.LastAt fpos iter) :
    w.read now fpos len =
      w.readFrom now fpos len iter (if iter.1 = fpos then 0 else sizeSub fpos iter.1) := by
  rcases read_cases now fpos len w with ⟨hnone, _⟩ | ⟨pre, t, rest, hcut, hle, hrest, heq⟩
  · have := hnone iter h.mem
    have := h.le
    omega
  · rw [heq, h.unique (OrderedMap.lastAt_of_cut hcut hle hrest)]

/-- from where the position is in it. -/
theorem read_of_lastAt {iter : Nat × Val} (h : w.file.svf.LastAt fpos iter) (hfpos : fpos < 2 ^ 64) :
    w.read now fpos len = w.readFrom now fpos len iter (fpos - iter.1) := by
  have hoffset : (if iter.1 = fpos then 0 else sizeSub fpos iter.1) = fpos - iter.1 := by
    split
    · omega
    · exact sizeSub_of_le h.le hfpos
  rw [read_at_last h, hoffset]

/-- A read that can hand bytes out does, where the end of the range or that of its block is
a `size_t` value. -/
theorem read_of_reads {bytes : List Byte} (h : w.file.Reads fpos len bytes) (hfpos : fpos < 2 ^ 64)
    (hfits : fpos + len < 2 ^ 64 ∨ ∀ iter ∈ w.file.svf.entries, iter.2.data.length < 2 ^ 64) :
    (w.read now fpos len).result = .ok bytes := by
  obtain ⟨iter, hlast, hlen, hbytes⟩ := h
  have hlt : fpos - iter.1 + len < 2 ^ 64 := by
    rcases hfits with hfit | hsize
    · omega
    · have := hsize iter hlast.mem
      omega
  rw [read_of_lastAt hlast hfpos, readFrom_returns (by rw [sizeAdd_of_lt hlt]; exact hlen)]
  exact congrArg Except.ok hbytes

/-- Bytes that a read hands out, as many as were asked for, lie in that block. -/
theorem reads_of_read {bytes : List Byte} (h : (w.read now fpos len).result = .ok bytes)
    (hbytes : bytes.length = len) (hlen : 0 < len) (hfpos : fpos < 2 ^ 64) : w.file.Reads fpos len bytes := by
  rcases read_cases now fpos len w with ⟨_, m, heq⟩ | ⟨pre, iter, rest, hcut, hle, hrest, _⟩
  · rw [heq] at h
    cases h
  · have hlast := OrderedMap.lastAt_of_cut hcut hle hrest
    rw [read_of_lastAt hlast hfpos] at h
    rcases Nat.lt_or_ge iter.2.data.length (sizeAdd (fpos - iter.1) len) with hover | hfits
    · rw [readFrom_throws hover] at h
      cases h
    · rw [readFrom_returns hfits] at h
      have heq : (iter.2.data.drop (fpos - iter.1)).take len = bytes := Except.ok.inj h
      have hlength := congrArg List.length heq
      rw [List.length_take, List.length_drop, hbytes] at hlength
      exact ⟨iter, hlast, by omega, heq⟩

/-- A read leaves the bytes alone, and their count. -/
theorem read_segments (now : Int) (fpos len : Nat) (w : World) :
    (w.read now fpos len).world.file.segments = w.file.segments ∧
      (w.read now fpos len).world.file.bytesTotal = w.file.bytesTotal ∧
      (w.read now fpos len).world.file.config = w.file.config := by
  rcases read_cases now fpos len w with ⟨_, m, h⟩ | ⟨pre, iter, rest, _, _, _, h⟩
  · rw [h]
    exact ⟨rfl, rfl, rfl⟩
  · rw [h]
    rcases Nat.lt_or_ge iter.2.data.length
      (sizeAdd (if iter.1 = fpos then 0 else sizeSub fpos iter.1) len) with hover | hfits
    · rw [readFrom_throws hover]
      exact ⟨rfl, rfl, rfl⟩
    · rw [readFrom_returns hfits]
      exact ⟨segmentsOf_modify _ _ fun _ => rfl, rfl, rfl⟩

end World
end Svfs
