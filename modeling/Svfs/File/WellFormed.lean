import Svfs.File.Query

/-! Well-formed files.

`WellFormed` is what the class promises of its blocks: none empty, at least one
position missing between any two, and `m_bytes_total` the number of bytes held.
`Tidy` files also end within the `size_t` range. `integrity` has nothing to report
of a well-formed file (`WellFormed.integrity`), and a report of `none` says as much
of any file as wrapping sums allow (`integrity_none`). -/
namespace Svfs

/-- Positions, sizes and the byte count are `size_t` values. -/
structure Representable (s : SparseVirtualFile) : Prop where
  position : ∀ iter ∈ s.svf.entries, iter.1 < 2 ^ 64
  size : ∀ iter ∈ s.svf.entries, iter.2.data.length < 2 ^ 64
  bytesTotal : s.bytesTotal < 2 ^ 64

/-- The end of a block that runs out of the `size_t` range, as the source computes it. -/
theorem Representable.after_of_wraps {s : SparseVirtualFile} (h : Representable s) {iter : Nat × Val}
    (hiter : iter ∈ s.svf.entries) (hwraps : 2 ^ 64 ≤ iter.1 + iter.2.data.length) :
    filePositionImmediatlyAfterBlock iter = iter.1 + iter.2.data.length - 2 ^ 64 :=
  Wrap.add_of_ge (h.position iter hiter) (h.size iter hiter) hwraps

structure WellFormed (s : SparseVirtualFile) : Prop where
  separated : Segments.Separated s.segments
  bytesTotal : s.bytesTotal = Segments.total s.segments

/-- A well-formed file that ends within the `size_t` range. -/
structure Tidy (s : SparseVirtualFile) : Prop extends WellFormed s where
  within : ∀ iter ∈ s.svf.entries, iter.1 + iter.2.data.length < 2 ^ 64

/-- The blocks that begin before a position end within the `size_t` range. -/
def SparseVirtualFile.EndsWithin (s : SparseVirtualFile) (hi : Nat) : Prop :=
  ∀ iter ∈ s.svf.entries, iter.1 < hi → iter.1 + iter.2.data.length < 2 ^ 64

theorem Tidy.endsWithin {s : SparseVirtualFile} (h : Tidy s) (hi : Nat) : s.EndsWithin hi :=
  fun iter hiter _ => h.within iter hiter

theorem SparseVirtualFile.mem_segments {s : SparseVirtualFile} {iter : Nat × Val}
    (h : iter ∈ s.svf.entries) : (iter.1, iter.2.data) ∈ s.segments :=
  mem_segmentsOf.mpr ⟨iter, h, rfl⟩

/-- `blocks` are the segments without their bytes. -/
theorem SparseVirtualFile.blocks_eq (s : SparseVirtualFile) :
    s.blocks = s.segments.map fun seg => (seg.1, seg.2.length) := by
  simp only [blocks, segments, segmentsOf, List.map_map]
  rfl

/-- The file ends, as the source computes it, where its last block does. -/
theorem SparseVirtualFile.end_of_concat {s : SparseVirtualFile} {front : List (Nat × Val)} {last : Nat × Val}
    (hback : s.svf.entries = front ++ [last]) :
    s.filePositionImmediatlyAfterEnd = filePositionImmediatlyAfterBlock last := by
  simp only [filePositionImmediatlyAfterEnd, hback, List.getLast?_concat]

/-- A position is held under some block. -/
theorem SparseVirtualFile.mem_of_held {s : SparseVirtualFile} {p : Nat} {b : Byte} (h : s.held p = some b) :
    ∃ iter ∈ s.svf.entries, iter.1 ≤ p ∧ p < iter.1 + iter.2.data.length := by
  have hne : Segments.lookup s.segments p ≠ none := fun hnone => by
    rw [held, hnone] at h
    cases h
  obtain ⟨seg, hseg, hp⟩ := Segments.lookup_ne_none_iff.mp hne
  obtain ⟨iter, hiter, rfl⟩ := mem_segmentsOf.mp hseg
  exact ⟨iter, hiter, hp⟩

/-- A block of a file with separated blocks gives the bytes held over it. -/
theorem SparseVirtualFile.held_of_mem {s : SparseVirtualFile} (h : Segments.Separated s.segments)
    {iter : Nat × Val} (hiter : iter ∈ s.svf.entries) {p : Nat} (hp : iter.1 ≤ p ∧ p < iter.1 + iter.2.data.length) :
    s.held p = iter.2.data[p - iter.1]? :=
  h.lookup_of_mem (SparseVirtualFile.mem_segments hiter) hp

/-- What separated blocks hold is the union of what each of them gives. -/
theorem SparseVirtualFile.held_eq_some_iff {s : SparseVirtualFile} (h : Segments.Separated s.segments)
    {p : Nat} {b : Byte} :
    s.held p = some b ↔ ∃ iter ∈ s.svf.entries, Segments.Gives (iter.1, iter.2.data) p b := by
  rw [SparseVirtualFile.held, h.lookup_eq_some_iff]
  simp [SparseVirtualFile.segments, segmentsOf]

/-- Separated blocks that end within the `size_t` range can be counted. -/
theorem SparseVirtualFile.total_lt {s : SparseVirtualFile} (h : Segments.Separated s.segments)
    (hwithin : ∀ iter ∈ s.svf.entries, iter.1 + iter.2.data.length < 2 ^ 64) :
    Segments.total s.segments < 2 ^ 64 := by
  have hle : Segments.total s.segments ≤ 2 ^ 64 - 1 := by
    apply h.total_le
    intro seg hseg
    obtain ⟨iter, hiter, rfl⟩ := mem_segmentsOf.mp hseg
    have := hwithin iter hiter
    simp only [Segments.stop_mk]
    omega
  omega

theorem SparseVirtualFile.separated_after {s : SparseVirtualFile} (h : Segments.Separated s.segments)
    {pre rest : List (Nat × Val)} (hcut : s.svf.entries = pre ++ rest) :
    Segments.Separated (segmentsOf rest) := by
  rw [SparseVirtualFile.segments, hcut, segmentsOf_append] at h
  exact (Segments.separated_append.mp h).2.1

theorem SparseVirtualFile.placed_after {s : SparseVirtualFile} (h : Segments.Placed s.segments)
    {pre rest : List (Nat × Val)} (hcut : s.svf.entries = pre ++ rest) : Segments.Placed (segmentsOf rest) := by
  rw [SparseVirtualFile.segments, hcut, segmentsOf_append] at h
  exact h.sublist (List.sublist_append_right _ _)

theorem SparseVirtualFile.segments_of_cut {s : SparseVirtualFile} {pre rest : List (Nat × Val)}
    {iter : Nat × Val} (hcut : s.svf.entries = pre ++ iter :: rest) :
    s.segments = segmentsOf pre ++ (iter.1, iter.2.data) :: segmentsOf rest := by
  rw [SparseVirtualFile.segments, hcut, segmentsOf_append, segmentsOf_cons]

/-- In a file with separated blocks those after a block begin past its end. -/
theorem lt_of_separated {s : SparseVirtualFile} (hsep : Segments.Separated s.segments)
    {pre rest : List (Nat × Val)} {iter : Nat × Val} (hcut : s.svf.entries = pre ++ iter :: rest) :
    (∀ t ∈ pre, t.1 + t.2.data.length < iter.1) ∧
      ∀ t ∈ rest, iter.1 + iter.2.data.length < t.1 := by
  rw [SparseVirtualFile.segments_of_cut hcut] at hsep
  obtain ⟨_, htail, hcross⟩ := Segments.separated_append.mp hsep
  obtain ⟨_, hrest, _⟩ := Segments.separated_cons.mp htail
  exact ⟨fun t ht => hcross _ (mem_segmentsOf.mpr ⟨t, ht, rfl⟩) _ (List.mem_cons_self ..),
    fun t ht => hrest _ (mem_segmentsOf.mpr ⟨t, ht, rfl⟩)⟩

/-- In a file with its blocks in order none goes past the beginning of the next. -/
theorem le_of_placed {s : SparseVirtualFile} (hplaced : Segments.Placed s.segments)
    {pre rest : List (Nat × Val)} {iter : Nat × Val} (hcut : s.svf.entries = pre ++ iter :: rest) :
    (∀ t ∈ pre, t.1 + t.2.data.length ≤ iter.1) ∧
      ∀ t ∈ rest, iter.1 + iter.2.data.length ≤ t.1 := by
  rw [SparseVirtualFile.segments_of_cut hcut] at hplaced
  obtain ⟨_, htail, hcross⟩ := List.pairwise_append.mp hplaced.apart
  exact ⟨fun t ht => hcross _ (mem_segmentsOf.mpr ⟨t, ht, rfl⟩) _ (List.mem_cons_self ..),
    fun t ht => List.rel_of_pairwise_cons htail (mem_segmentsOf.mpr ⟨t, ht, rfl⟩)⟩

/-- A block lies before the one the map is cut at, is that one, or begins past its end. -/
theorem cases_of_cut {s : SparseVirtualFile} (hsep : Segments.Separated s.segments)
    {pre rest : List (Nat × Val)} {iter t : Nat × Val} (hcut : s.svf.entries = pre ++ iter :: rest)
    (ht : t ∈ s.svf.entries) : (t ∈ pre ∧ t.1 + t.2.data.length < iter.1) ∨ t = iter ∨
      (t ∈ rest ∧ iter.1 + iter.2.data.length < t.1) := by
  obtain ⟨hbefore, hafter⟩ := lt_of_separated hsep hcut
  rw [hcut] at ht
  rcases List.mem_append.mp ht with ht | ht
  · exact .inl ⟨ht, hbefore t ht⟩
  · exact .inr ((List.mem_cons.mp ht).imp_right fun ht => ⟨ht, hafter t ht⟩)

/-- A block that reaches a position is the last to begin at or before it. -/
theorem lastAt_of_separated {s : SparseVirtualFile} (hsep : Segments.Separated s.segments) {iter : Nat × Val}
    (hiter : iter ∈ s.svf.entries) {p : Nat} (hle : iter.1 ≤ p) (hstop : p ≤ iter.1 + iter.2.data.length) :
    s.svf.LastAt p iter := by
  refine ⟨hiter, hle, fun t ht htle => ?_⟩
  obtain ⟨pre, rest, hcut⟩ := List.append_of_mem hiter
  rcases cases_of_cut hsep hcut ht with ⟨_, hbefore⟩ | rfl | ⟨_, hafter⟩ <;> omega

theorem Tidy.representable {s : SparseVirtualFile} (h : Tidy s) : Representable s := by
  refine ⟨fun iter hiter => ?_, fun iter hiter => ?_, ?_⟩
  · have := h.within iter hiter
    omega
  · have := h.within iter hiter
    omega
  · rw [h.bytesTotal]
    exact SparseVirtualFile.total_lt h.separated h.within

/-- Files of the same bytes have blocks of the same places and lengths. -/
theorem SparseVirtualFile.mem_of_segments {s s' : SparseVirtualFile} (hsegments : s'.segments = s.segments)
    {iter : Nat × Val} (hiter : iter ∈ s'.svf.entries) :
    ∃ old ∈ s.svf.entries, old.1 = iter.1 ∧ old.2.data = iter.2.data := by
  have hmem := mem_segments hiter
  rw [hsegments] at hmem
  obtain ⟨old, hold, heq⟩ := mem_segmentsOf.mp hmem
  obtain ⟨hkey, hdata⟩ := Prod.mk.inj heq
  exact ⟨old, hold, hkey, hdata⟩

theorem Representable.of_segments {s s' : SparseVirtualFile} (h : Representable s)
    (hsegments : s'.segments = s.segments) (hbytes : s'.bytesTotal < 2 ^ 64) : Representable s' := by
  refine ⟨fun iter hiter => ?_, fun iter hiter => ?_, hbytes⟩
  · obtain ⟨old, hold, hkey, _⟩ := SparseVirtualFile.mem_of_segments hsegments hiter
    exact hkey ▸ h.position old hold
  · obtain ⟨old, hold, _, hdata⟩ := SparseVirtualFile.mem_of_segments hsegments hiter
    exact hdata ▸ h.size old hold

/-- Being tidy shows in the bytes and their count. -/
theorem Tidy.of_segments {s s' : SparseVirtualFile} (h : Tidy s) (hsegments : s'.segments = s.segments)
    (hbytes : s'.bytesTotal = s.bytesTotal) : Tidy s' := by
  refine ⟨⟨hsegments ▸ h.separated, by rw [hbytes, hsegments, h.bytesTotal]⟩, fun iter hiter => ?_⟩
  obtain ⟨old, hold, hkey, hdata⟩ := SparseVirtualFile.mem_of_segments hsegments hiter
  rw [← hkey, ← hdata]
  exact h.within old hold

theorem tidy_new (id : List Byte) (modTime : Float) (config : SparseVirtualFileConfig) :
    Tidy (SparseVirtualFile.new id modTime config) where
  separated := Segments.separated_nil
  bytesTotal := rfl
  within := by simp [SparseVirtualFile.new]

/-! ### What `integrity` reports -/

namespace SparseVirtualFile

/-- A block that ends, as the source computes it, before the next begins. -/
def EndsBefore (a b : Nat × Nat) : Prop := sizeAdd a.1 a.2 < b.1

theorem integrityLoop_eq_none {bytesTotal : Nat} {l : List (Nat × Val)} {prev : Option (Nat × Nat)}
    {byteCount : Nat} (hcount : byteCount < 2 ^ 64)
    (h : integrityLoop bytesTotal [] l prev byteCount = .none) :
    (∀ iter ∈ l, iter.2.data ≠ []) ∧
      List.IsChain EndsBefore (prev.toList ++ l.map fun iter => (iter.1, iter.2.data.length)) ∧
      sizeAdd byteCount (Segments.total (segmentsOf l)) = bytesTotal := by
  induction l generalizing prev byteCount with
  | nil =>
    refine ⟨by simp, by cases prev <;> simp, ?_⟩
    rw [segmentsOf_nil, Segments.total_nil, sizeAdd_zero hcount]
    simpa [integrityLoop] using h
  | cons iter rest ih =>
    have hstep : iter.2.data ≠ [] ∧ (∀ p ∈ prev, EndsBefore p (iter.1, iter.2.data.length)) ∧
        integrityLoop bytesTotal [] rest (some (iter.1, iter.2.data.length))
          (sizeAdd byteCount iter.2.data.length) = .none := by
      simp only [integrityLoop] at h
      split at h
      · cases h
      · rename_i hempty
        refine ⟨by simpa using hempty, ?_⟩
        cases prev with
        | none => exact ⟨by simp, by simpa using h⟩
        | some p =>
          simp only [List.contains_nil, Bool.false_eq_true, if_false] at h
          split at h
          · cases h
          · split at h
            · cases h
            · split at h
              · cases h
              · refine ⟨fun q hq => ?_, h⟩
                cases hq
                show sizeAdd p.1 p.2 < iter.1
                omega
    obtain ⟨hne, hprev, hrest⟩ := hstep
    obtain ⟨hnes, hchain, hsum⟩ := ih Wrap.add_lt hrest
    refine ⟨?_, ?_, ?_⟩
    · intro t ht
      rcases List.mem_cons.mp ht with rfl | ht
      · exact hne
      · exact hnes t ht
    · cases prev with
      | none => exact hchain
      | some p => exact List.isChain_cons_cons.mpr ⟨hprev p rfl, hchain⟩
    · rw [segmentsOf_cons, Segments.total_cons, ← sizeAdd_assoc]
      exact hsum

/-- A file `integrity` finds nothing wrong with: no block empty, each ends before
the next begins, and the sizes add up to `m_bytes_total` — with the sums wrapping. -/
theorem integrity_none {s : SparseVirtualFile} (h : s.integrity = .none) :
    (∀ iter ∈ s.svf.entries, iter.2.data ≠ []) ∧ List.IsChain EndsBefore s.blocks ∧
      sizeAdd 0 (Segments.total s.segments) = s.bytesTotal :=
  integrityLoop_eq_none (by norm_num) h

theorem integrityLoop_of_separated {bytesTotal : Nat} {l : List (Nat × Val)} {prev : Option (Nat × Nat)}
    {byteCount : Nat} (hsep : Segments.Separated (segmentsOf l))
    (hposition : ∀ iter ∈ l, iter.1 < 2 ^ 64)
    (hprev : ∀ p ∈ prev, ∀ iter ∈ l, p.1 + p.2 < iter.1)
    (hcount : byteCount + Segments.total (segmentsOf l) = bytesTotal) (hbytes : bytesTotal < 2 ^ 64) :
    integrityLoop bytesTotal [] l prev byteCount = .none := by
  induction l generalizing prev byteCount with
  | nil =>
    have hcount : byteCount = bytesTotal := hcount
    simp [integrityLoop, hcount]
  | cons iter rest ih =>
    obtain ⟨hne, hlater, hsep'⟩ := Segments.separated_cons.mp hsep
    rw [segmentsOf_cons, Segments.total_cons] at hcount
    simp only at hcount
    have hprev' : ∀ p ∈ some (iter.1, iter.2.data.length), ∀ t ∈ rest, p.1 + p.2 < t.1 := by
      intro p hp t ht
      cases hp
      exact hlater _ (mem_segmentsOf.mpr ⟨t, ht, rfl⟩)
    have hcount' : byteCount + iter.2.data.length + Segments.total (segmentsOf rest) = bytesTotal := by
      omega
    have hrest := ih hsep' (fun t ht => hposition t (List.mem_cons_of_mem _ ht)) hprev' hcount'
    have hsum : sizeAdd byteCount iter.2.data.length = byteCount + iter.2.data.length :=
      sizeAdd_of_lt (by omega)
    have hempty : iter.2.data.isEmpty = false := List.isEmpty_eq_false_iff.mpr hne
    simp only [integrityLoop, hsum, hrest, hempty, Bool.false_eq_true, if_false, List.contains_nil]
    cases prev with
    | none => rfl
    | some p =>
      have hlt := hprev p rfl iter (List.mem_cons_self ..)
      have hfit := hposition iter (List.mem_cons_self ..)
      have hend : sizeAdd p.1 p.2 = p.1 + p.2 := sizeAdd_of_lt (by omega)
      simp only [hend]
      rw [if_neg (by omega), if_neg (by omega), if_neg (by omega)]

end SparseVirtualFile

/-- Nothing is wrong with a well-formed file. -/
theorem WellFormed.integrity {s : SparseVirtualFile} (h : WellFormed s) (hs : Representable s) :
    s.integrity = .none :=
  SparseVirtualFile.integrityLoop_of_separated h.separated hs.position (by simp)
    (by rw [Nat.zero_add, h.bytesTotal]; rfl) hs.bytesTotal

theorem Tidy.integrity {s : SparseVirtualFile} (h : Tidy s) : s.integrity = .none :=
  h.toWellFormed.integrity h.representable

/-- Two neighbouring blocks that touch or overlap are reported. -/
theorem SparseVirtualFile.integrity_ne_none {s : SparseVirtualFile} {pre post : List (Nat × Val)}
    {a b : Nat × Val} (h : s.svf.entries = pre ++ a :: b :: post)
    (hend : b.1 ≤ sizeAdd a.1 a.2.data.length) : s.integrity ≠ .none := by
  intro hnone
  have hchain := (integrity_none hnone).2.1
  rw [blocks, h, List.map_append, List.map_cons, List.map_cons] at hchain
  have hpair := (List.isChain_append.mp hchain).2.1
  have hlt : sizeAdd a.1 a.2.data.length < b.1 := (List.isChain_cons_cons.mp hpair).1
  omega

end Svfs
