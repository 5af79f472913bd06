import Svfs.File.Command
import Svfs.Write.Effect

/-! Appending to a block coalesces exactly.

The block a write falls on and the later ones that begin within the range written, or at
its end, become one block with the bytes of all of them and the data; every other block
stays as it was. It makes no difference here whether the last block runs out of the
`size_t` range: what the walk takes of a block it computes from the block's start. -/
namespace Svfs
namespace World

/-- What a write onto a block is to leave behind, with the blocks it reaches and those it
does not. -/
structure Coalesced (w : World) (fpos : Nat) (data : List Byte) (pre : List (Nat × Val))
    (base : Nat × Val) (reached later : List (Nat × Val)) (o : Outcome Unit) : Prop where
  result : o.result = .ok ()
  /-- One block in place of the base block and those reached, with the union of their bytes
  and the data, and the touch that was next. -/
  blocks : ∃ bytes, o.world.file.svf.entries = pre ++ (base.1, ⟨bytes, w.file.blockTouch⟩) :: later ∧
    ∀ p b, Segments.Gives (base.1, bytes) p b ↔
      Segments.Gives (fpos, data) p b ∨ ∃ t ∈ base :: reached, Segments.Gives (t.1, t.2.data) p b
  /-- The count is raised by the number of bytes newly held, as a `size_t` is. -/
  bytesTotal : o.world.file.bytesTotal = sizeAdd w.file.bytesTotal
    (Set.Ico fpos (fpos + data.length) \ Segments.support w.file.segments).ncard
  frame : o.world.file = {w.file with
    svf := o.world.file.svf
    bytesTotal := o.world.file.bytesTotal
    blockTouch := touchSucc w.file.blockTouch}
  separated : Segments.Separated o.world.file.segments
  /-- It is exact where a `size_t` can count the bytes held now. -/
  wellFormed : Segments.total o.world.file.segments < 2 ^ 64 → WellFormed o.world.file ∧
    o.world.file.bytesTotal = w.file.bytesTotal +
      (Set.Ico fpos (fpos + data.length) \ Segments.support w.file.segments).ncard

section Coalesce
variable {w : World} {fpos : Nat} {data : List Byte} {pre reached later : List (Nat × Val)}
  {base : Nat × Val} {o : Outcome Unit}

/-- A file with separated blocks keeps those after the ones the data reaches, and only those. -/
theorem eq_later_of_absorbed {remaining : List (Nat × Val)} {pos : Nat} {bytes : List Byte}
    (hsep : Segments.Separated (segmentsOf (reached ++ later)))
    (hsuffix : remaining.IsSuffix (reached ++ later))
    (hremaining : segmentsOf remaining = (Segments.absorb pos bytes (segmentsOf (reached ++ later))).2)
    (hreached : ∀ t ∈ reached, t.1 ≤ pos + bytes.length) (hlater : ∀ t ∈ later, pos + bytes.length < t.1) :
    remaining = later := by
  rw [segmentsOf_append] at hsep hremaining
  rw [Segments.absorb_reached hsep (fun seg hseg => by
    obtain ⟨t, ht, rfl⟩ := mem_segmentsOf.mp hseg
    exact hreached t ht) fun seg hseg => by
    obtain ⟨t, ht, rfl⟩ := mem_segmentsOf.mp hseg
    exact hlater t ht] at hremaining
  have hlen := congrArg List.length hremaining
  simp only [segmentsOf, List.length_map] at hlen
  exact (List.suffix_of_suffix_length_le hsuffix (List.suffix_append ..) hlen.le).eq_of_length hlen

/-- The blocks reached go, and only those. -/
theorem Grown.entries_eq (h : Grown w fpos data pre base (reached ++ later) o)
    (hsep : Segments.Separated w.file.segments)
    (hcut : w.file.svf.entries = pre ++ base :: (reached ++ later))
    (hstop : fpos ≤ base.1 + base.2.data.length) (hreached : ∀ t ∈ reached, t.1 ≤ fpos + data.length)
    (hlater : ∀ t ∈ later, fpos + data.length < t.1) :
    ∃ bytes, o.world.file.svf.entries = pre ++ (base.1, ⟨bytes, w.file.blockTouch⟩) :: later := by
  obtain ⟨remaining, hsuffix, hremaining, hentries⟩ := h.entries
  have hafter := (lt_of_separated hsep hcut).2
  have hlength := List.length_drop (l := data) (i := base.1 + base.2.data.length - fpos)
  have hsame : remaining = later := by
    refine eq_later_of_absorbed (separated_of_cut hsep hcut) hsuffix hremaining (fun t ht => ?_) fun t ht => ?_
    · have := hreached t ht
      have := hafter t (List.mem_append_left _ ht)
      omega
    · have := hlater t ht
      have := hafter t (List.mem_append_right _ ht)
      omega
  exact ⟨_, hsame ▸ hentries⟩

/-! ### The block the others went into -/

section Merged
variable {s s' : SparseVirtualFile} {merged : List (Nat × Val)} {k : Nat}

/-- What is held from the first of the merged blocks on, and before the later ones, is held by
one of those merged. -/
theorem mem_merged_of_gives (hcut : s.svf.entries = pre ++ merged ++ later)
    (hpre : ∀ t ∈ pre, t.1 + t.2.data.length ≤ k) {t : Nat × Val} (ht : t ∈ s.svf.entries) {p : Nat} {b : Byte}
    (hgives : Segments.Gives (t.1, t.2.data) p b) (hle : k ≤ p) (hlater : ∀ next ∈ later, p < next.1) :
    t ∈ merged := by
  obtain ⟨hstart, hlt⟩ := hgives.bounds
  rw [hcut] at ht
  rcases List.mem_append.mp ht with ht | ht
  · rcases List.mem_append.mp ht with ht | ht
    · have := hpre t ht
      omega
    · exact ht
  · have := hlater t ht
    omega

/-- What the data gives, and the merged blocks, lies before the later blocks. -/
theorem bounds_of_union (hsep : Segments.Separated s.segments) (hcut : s.svf.entries = pre ++ merged ++ later)
    (hle : k ≤ fpos) (hmerged : ∀ t ∈ merged, k ≤ t.1) (hlater : ∀ t ∈ later, fpos + data.length < t.1)
    {p : Nat} {b : Byte} (h : Segments.Gives (fpos, data) p b ∨ ∃ t ∈ merged, Segments.Gives (t.1, t.2.data) p b) :
    k ≤ p ∧ ∀ next ∈ later, p < next.1 := by
  rcases h with hgives | ⟨t, ht, hgives⟩
  · obtain ⟨hstart, hlt⟩ := hgives.bounds
    exact ⟨hle.trans hstart, fun next hnext => hlt.trans (hlater next hnext)⟩
  · obtain ⟨hstart, hlt⟩ := hgives.bounds
    have hcut' : s.segments = segmentsOf (pre ++ merged) ++ segmentsOf later := by
      rw [SparseVirtualFile.segments, hcut, segmentsOf_append]
    have hpast := (Segments.separated_append.mp (hcut' ▸ hsep)).2.2 (t.1, t.2.data)
      (mem_segmentsOf.mpr ⟨t, List.mem_append_right _ ht, rfl⟩)
    exact ⟨(hmerged t ht).trans hstart, fun next hnext =>
      hlt.trans (hpast _ (mem_segmentsOf.mpr ⟨next, hnext, rfl⟩))⟩

/-- The block left behind gives what the data gives, and what the blocks gone into it did. -/
theorem gives_coalesced (pre : List (Nat × Val)) {bytes : List Byte} {touch : Nat}
    (hsep : Segments.Separated s.segments) (hsep' : Segments.Separated s'.segments) (hcut : s.svf.entries = pre ++ merged ++ later)
    (hcut' : s'.svf.entries = pre ++ (k, ⟨bytes, touch⟩) :: later) (hle : k ≤ fpos)
    (hmerged : ∀ t ∈ merged, k ≤ t.1) (hlater : ∀ t ∈ later, fpos + data.length < t.1)
    (hheld : ∀ p b, s'.held p = some b ↔ Segments.Gives (fpos, data) p b ∨ s.held p = some b)
    (p : Nat) (b : Byte) : Segments.Gives (k, bytes) p b ↔
      Segments.Gives (fpos, data) p b ∨ ∃ t ∈ merged, Segments.Gives (t.1, t.2.data) p b := by
  obtain ⟨hpre, hpost⟩ := lt_of_separated hsep' hcut'
  have hpre' : ∀ t ∈ pre, t.1 + t.2.data.length ≤ k := fun t ht => (hpre t ht).le
  constructor
  · intro hgives
    obtain ⟨hstart, hlt⟩ := hgives.bounds
    have hmem : (k, ⟨bytes, touch⟩) ∈ s'.svf.entries := by simp [hcut']
    have hnew := (hheld p b).mp ((SparseVirtualFile.held_eq_some_iff hsep').mpr ⟨_, hmem, hgives⟩)
    refine hnew.imp_right fun hold => ?_
    obtain ⟨t, ht, hgives'⟩ := (SparseVirtualFile.held_eq_some_iff hsep).mp hold
    exact ⟨t, mem_merged_of_gives hcut hpre' ht hgives' hstart fun next hnext =>
      hlt.trans (hpost next hnext), hgives'⟩
  · intro hunion
    obtain ⟨hstart, hbeyond⟩ := bounds_of_union hsep hcut hle hmerged hlater hunion
    have hnew : s'.held p = some b := by
      refine (hheld p b).mpr (hunion.imp_right ?_)
      rintro ⟨t, ht, hgives⟩
      refine (SparseVirtualFile.held_eq_some_iff hsep).mpr ⟨t, ?_, hgives⟩
      rw [hcut]
      exact List.mem_append_left _ (List.mem_append_right _ ht)
    obtain ⟨t, ht, hgives⟩ := (SparseVirtualFile.held_eq_some_iff hsep').mp hnew
    rw [List.append_cons] at hcut'
    obtain rfl := List.mem_singleton.mp (mem_merged_of_gives hcut' hpre' ht hgives hstart hbeyond)
    exact hgives

end Merged

/-! ### What is held and counted -/

section Counted

/-- Bytes written over what they agree with are held beside it. -/
theorem held_iff_of_agree {s s' : SparseVirtualFile} (hagree : ¬ s.Conflict fpos data)
    (hheld : ∀ p, s'.held p = Segments.overlay s.held fpos data p) (p : Nat) (b : Byte) :
    s'.held p = some b ↔ Segments.Gives (fpos, data) p b ∨ s.held p = some b := by
  rw [hheld, Segments.overlay_eq_some_iff]
  intro y hp hp' hy
  by_contra hne
  exact hagree ⟨p, y, hp, hp', hy, hne⟩

/-- What a write that returned counted is what is newly held. -/
theorem Written.newlyHeld {segments : List (Segments.Segment Byte)} (h : Written w segments o)
    (hsep : Segments.Separated w.file.segments) (hsep' : Segments.Separated o.world.file.segments)
    (hheld : ∀ p, o.world.file.held p = Segments.overlay w.file.held fpos data p) :
    o.world.file.bytesTotal = sizeAdd w.file.bytesTotal
        (Set.Ico fpos (fpos + data.length) \ Segments.support w.file.segments).ncard ∧
      Segments.total o.world.file.segments = Segments.total w.file.segments +
        (Set.Ico fpos (fpos + data.length) \ Segments.support w.file.segments).ncard := by
  have htotal : Segments.total o.world.file.segments = Segments.total w.file.segments +
      (Set.Ico fpos (fpos + data.length) \ Segments.support w.file.segments).ncard := by
    rw [hsep'.total_eq, hsep.total_eq, Segments.support_overlay hheld, ← Set.union_sdiff_self,
      Set.ncard_union_eq Set.disjoint_sdiff_right (Segments.support_finite _) ((Set.finite_Ico _ _).sdiff)]
  obtain ⟨added, hadded, hsum⟩ := h.bytes
  rw [← h.blocks] at hsum
  obtain rfl : added = (Set.Ico fpos (fpos + data.length) \ Segments.support w.file.segments).ncard := by
    omega
  exact ⟨hadded, htotal⟩

/-- The count is exact where a `size_t` can count the bytes held now. -/
theorem wellFormed_of_counted {s s' : SparseVirtualFile} {added : Nat} (h : WellFormed s)
    (hsep : Segments.Separated s'.segments) (hadded : s'.bytesTotal = sizeAdd s.bytesTotal added)
    (htotal : Segments.total s'.segments = Segments.total s.segments + added)
    (hfits : Segments.total s'.segments < 2 ^ 64) :
    WellFormed s' ∧ s'.bytesTotal = s.bytesTotal + added := by
  have hcounted := h.bytesTotal
  rw [sizeAdd_of_lt (by omega)] at hadded
  exact ⟨⟨hsep, by omega⟩, hadded⟩

end Counted

/-- **Appending coalesces exactly.** -/
theorem append_coalesces (w : World) (fpos : Nat) (data : List Byte) (pre : List (Nat × Val))
    (base : Nat × Val) (reached later : List (Nat × Val)) (h : WellFormed w.file)
    (hs : Representable w.file) (hdata : data ≠ []) (hfit : fpos + data.length < 2 ^ 64)
    (hcut : w.file.svf.entries = pre ++ base :: (reached ++ later)) (hle : base.1 ≤ fpos)
    (hstop : fpos ≤ base.1 + base.2.data.length) (hreached : ∀ t ∈ reached, t.1 ≤ fpos + data.length)
    (hlater : ∀ t ∈ later, fpos + data.length < t.1) (hagree : ¬ w.file.Conflict fpos data) :
    Coalesced w fpos data pre base reached later
      (w.writeAppendNewToOld fpos data base (reached ++ later)) := by
  have hmem : base ∈ w.file.svf.entries := by simp [hcut]
  have hgrown := grown_of_agree h.separated hs hdata hfit hagree hcut hle hstop
  have hsep := hgrown.separated h.separated hcut
  have hheld := hgrown.held_eq h.separated hcut hle hstop fun p hp hp' hlt =>
    agree_of_not_conflict h.separated hagree hmem hle hp hp' hlt
  obtain ⟨bytes, hentries⟩ := hgrown.entries_eq h.separated hcut hstop hreached hlater
  have hcut' : w.file.svf.entries = pre ++ (base :: reached) ++ later := by
    rw [hcut, List.append_assoc, List.cons_append]
  have hmerged : ∀ t ∈ base :: reached, base.1 ≤ t.1 := by
    intro t ht
    rcases List.mem_cons.mp ht with rfl | ht
    · exact le_refl _
    · have := (lt_of_separated h.separated hcut).2 t (List.mem_append_left _ ht)
      omega
  obtain ⟨hadded, htotal⟩ := hgrown.written.newlyHeld h.separated hsep hheld
  exact ⟨hgrown.written.result, ⟨bytes, hentries,
    gives_coalesced pre h.separated hsep hcut' hentries hle hmerged hlater (held_iff_of_agree hagree hheld)⟩,
    hadded, hgrown.written.frame, hsep, wellFormed_of_counted h hsep hadded htotal⟩

/-- Three blocks, the first of which grows over the second. -/
def threeApart : World :=
  Run.run Command.step (World.new [] 0) [.write 0 0 [1, 2], .write 0 4 [5, 6], .write 0 9 [10]]

theorem tidy_threeApart : Tidy threeApart.file where
  separated := ⟨by decide, by decide⟩
  bytesTotal := by decide
  within := by decide

theorem append_coalesces_first : Coalesced threeApart 1 [2, 3, 4, 5] [] (0, ⟨[1, 2], 0⟩)
    [(4, ⟨[5, 6], 1⟩)] [(9, ⟨[10], 2⟩)]
    (threeApart.writeAppendNewToOld 1 [2, 3, 4, 5] (0, ⟨[1, 2], 0⟩) [(4, ⟨[5, 6], 1⟩), (9, ⟨[10], 2⟩)]) :=
  append_coalesces threeApart 1 [2, 3, 4, 5] [] (0, ⟨[1, 2], 0⟩) [(4, ⟨[5, 6], 1⟩)] [(9, ⟨[10], 2⟩)]
    tidy_threeApart.toWellFormed tidy_threeApart.representable (by decide) (by decide) rfl (by decide)
    (by decide) (by decide) (by decide) (by decide)

end Coalesce

end World
end Svfs
