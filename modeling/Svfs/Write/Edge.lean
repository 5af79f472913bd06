import Svfs.Query.Range
import Svfs.Write.Agreeing

/-! Writes past the end of all blocks.

Such a write becomes a block of its own, or grows the last block where it begins at its
end. If it ends within the `size_t` range it can be asked for and written again
(`edge_write_iff`). If it does not, the file seems to end before the block just written
begins: the same write is then taken for a new block past the end, and its bytes are
counted again, whether or not the map takes it. -/
namespace Svfs
open World

/-- What a write past the end of all blocks promises. If it returns, each byte it covers is
had (but for the last position, whose end wraps) and the same write again changes nothing;
if it throws, it changed nothing itself. -/
structure EdgeHandled (w : World) (now : Int) (fpos : Nat) (data : List Byte) : Prop where
  has : (w.write now fpos data).Returns → ∀ p, fpos ≤ p → p < fpos + data.length → p < 2 ^ 64 - 1 →
    (w.write now fpos data).world.file.has p 1 = true
  again : (w.write now fpos data).Returns → ∀ now',
    ((w.write now fpos data).world.write now' fpos data).Returns ∧
    ((w.write now fpos data).world.write now' fpos data).world.file.segments =
      (w.write now fpos data).world.file.segments ∧
    ((w.write now fpos data).world.write now' fpos data).world.file.bytesTotal =
      (w.write now fpos data).world.file.bytesTotal
  threw : ¬ (w.write now fpos data).Returns →
    (w.write now fpos data).world.file.segments = w.file.segments ∧
      (w.write now fpos data).world.file.bytesTotal = w.file.bytesTotal

section Edge
variable {w : World} {fpos : Nat} {data : List Byte}

/-- Blocks that end by a position below `2 ^ 64` end within the range. -/
theorem WellFormed.tidy_of_past {s : SparseVirtualFile} (h : WellFormed s) (hfpos : fpos < 2 ^ 64)
    (hpast : ∀ t ∈ s.svf.entries, t.1 + t.2.data.length ≤ fpos) : Tidy s :=
  ⟨h, fun t ht => (hpast t ht).trans_lt hfpos⟩

/-! ### Within the range -/

theorem not_conflict_of_past (hpast : ∀ t ∈ w.file.svf.entries, t.1 + t.2.data.length ≤ fpos) :
    ¬ w.file.Conflict fpos data := by
  rintro ⟨p, b, hp, _, hb, _⟩
  obtain ⟨iter, hiter, _, hlt⟩ := SparseVirtualFile.mem_of_held hb
  have := hpast iter hiter
  omega

theorem settled_of_past (hwell : WellFormed w.file) (hdata : data ≠ [])
    (hpast : ∀ t ∈ w.file.svf.entries, t.1 + t.2.data.length ≤ fpos)
    (hfit : fpos + data.length < 2 ^ 64) : Settled w fpos data (w.writeBlocks fpos data) := by
  have htidy := hwell.tidy_of_past (by omega) hpast
  refine settled_of_clear htidy.separated htidy.representable hdata hfit (not_conflict_of_past hpast)
    fun last hlast hwraps => ?_
  have := htidy.within last hlast
  omega

/-- Where all other blocks begin by the position written, each position written is had. -/
theorem Landed.has_each {s s' : SparseVirtualFile} {iter : Nat × Val} (h : Landed s s' fpos data iter)
    (hpast : ∀ t ∈ s.svf.entries, t.1 ≤ fpos) {p : Nat} (hp : fpos ≤ p) (hp' : p < fpos + data.length) :
    s'.has p 1 = true := by
  have hle := h.lastAt.le
  have hstop := h.stop
  have hwithin := h.within
  refine SparseVirtualFile.has_iff_lastAt.mpr ⟨iter, ⟨h.lastAt.mem, hle.trans hp, fun t ht _ => ?_⟩, ?_⟩
  · rcases h.others t ht with rfl | hold
    · exact le_refl _
    · exact h.lastAt.last t ht (hpast t hold)
  · rw [filePositionImmediatlyAfterBlock_of_lt hwithin, sizeAdd_of_lt (by omega)]
    omega

theorem edgeHandled_of_fit (now : Int) (hwell : WellFormed w.file) (hdata : data ≠ [])
    (hpast : ∀ t ∈ w.file.svf.entries, t.1 + t.2.data.length ≤ fpos)
    (hfit : fpos + data.length < 2 ^ 64) : EdgeHandled w now fpos data := by
  have htidy := hwell.tidy_of_past (by omega) hpast
  obtain ⟨hresult, ⟨iter, hlanded⟩, _⟩ := settled_of_past hwell hdata hpast hfit
  have hwrite := write_eq now fpos data hresult
  refine ⟨fun _ p hp hp' _ => ?_, fun _ now' => ?_, fun hthrew => ?_⟩
  · rw [hwrite]
    exact hlanded.has_each (fun t ht => (Nat.le_add_right ..).trans (hpast t ht)) hp hp'
  · rw [hwrite, Outcome.returned_world]
    obtain ⟨hagain, hsegments, hbytes⟩ := writeBlocks_again
      (w := (w.writeBlocks fpos data).world.countWrite now data.length) hdata hfit hlanded.lastAt
      hlanded.stop hlanded.within hlanded.bytes (hlanded.le_end htidy.representable fun t ht hwraps => by
        have := htidy.within t ht
        omega)
    rw [write_eq now' fpos data hagain]
    exact ⟨⟨(), rfl⟩, hsegments, hbytes⟩
  · exact absurd ⟨(), by rw [hwrite]; rfl⟩ hthrew

/-! ### Out of the range -/

/-- A block that begins where a write does, and the file with it, seems to end before. -/
theorem end_of_wraps {s : SparseVirtualFile} {pre : List (Nat × Val)} {k touch : Nat} {bytes : List Byte}
    (hentries : s.svf.entries = pre ++ [(k, ⟨bytes, touch⟩)]) (hstop : k + bytes.length = fpos + data.length)
    (hfpos : fpos < 2 ^ 64) (hlen : data.length < 2 ^ 64) (hwraps : 2 ^ 64 ≤ fpos + data.length) :
    s.filePositionImmediatlyAfterEnd < fpos := by
  have hend : s.filePositionImmediatlyAfterEnd = sizeAdd k bytes.length :=
    SparseVirtualFile.end_of_concat hentries
  have hsame : sizeAdd k bytes.length = sizeAdd fpos data.length := congrArg (· % 2 ^ 64) hstop
  rw [hend, hsame, sizeAdd, Wrap.add_of_ge hfpos hlen hwraps]
  omega

/-- Onto the last block, from its end. -/
theorem writeAppendNewToOld_end {pre : List (Nat × Val)} {base : Nat × Val} (hdata : data ≠ [])
    (hcut : w.file.svf.entries = pre ++ [base]) (hstop : base.1 + base.2.data.length = fpos)
    (hfpos : fpos < 2 ^ 64) :
    (w.writeAppendNewToOld fpos data base []).result = .ok () ∧
      ∃ bytes touch, base.1 + bytes.length = fpos + data.length ∧
        (w.writeAppendNewToOld fpos data base []).world.file.svf.entries = pre ++ [(base.1, ⟨bytes, touch⟩)] := by
  -- Nothing of the base block is written over.
  have hcheck := checkBase_returns (w := w) hdata (Nat.le.intro hstop) fun _ htrip => by
    have := htrip.1
    omega
  have hentries := touch_cut
    (w := ((checkBase fpos data base w).world.pushBack base.1 data).addBytes data.length)
    (pushBack_cut (checkBase_file.symm ▸ hcut) data)
  rw [writeAppendNewToOld_eq (Nat.le.intro hstop) hstop.ge (by omega) hfpos (fun _ => by omega),
    Outcome.bind_of_ok hcheck, hstop, Nat.sub_self, List.drop_zero, appendLoop_last hdata, Outcome.bind_returned]
  refine ⟨rfl, _, _, ?_, hentries⟩
  rw [Val.pushBack, List.length_append]
  omega

/-- A write past all blocks that runs out of the range returns, and hides its own start. -/
theorem writeBlocks_edge (hwell : WellFormed w.file) (hdata : data ≠ [])
    (hpast : ∀ t ∈ w.file.svf.entries, t.1 + t.2.data.length ≤ fpos) (hfpos : fpos < 2 ^ 64)
    (hlen : data.length < 2 ^ 64) (hwraps : 2 ^ 64 ≤ fpos + data.length) :
    (w.writeBlocks fpos data).result = .ok () ∧
      (w.writeBlocks fpos data).world.file.filePositionImmediatlyAfterEnd < fpos := by
  have htidy := hwell.tidy_of_past hfpos hpast
  have hbefore : ∀ t ∈ w.file.svf.entries, t.1 < fpos := fun t ht => by
    have := Segments.lt_stop (hwell.separated.nonempty _ (SparseVirtualFile.mem_segments ht))
    have := hpast t ht
    simp only [Segments.stop_mk] at *
    omega
  cases writeBlocks_cases fpos data w with
  | newBlock heq _ =>
    have hcut := (List.append_nil w.file.svf.entries).symm
    rw [heq]
    exact ⟨(writeNewBlock_written data hcut hbefore nofun).1.result,
      end_of_wraps (writeNewBlock_entries data hcut hbefore nofun) rfl hfpos hlen hwraps⟩
  | newAppendOld iter rest _ hcut hlt _ _ =>
    have := hbefore iter (by simp [hcut])
    omega
  | appendNewToOld pre base rest heq hcut hle hrest hstop _ =>
    have hmem : base ∈ w.file.svf.entries := by simp [hcut]
    have hnil : rest = [] := List.eq_nil_iff_forall_not_mem.mpr fun next hnext => by
      have := hrest next hnext
      have := hbefore next (by simp [hcut, hnext])
      omega
    subst hnil
    rw [filePositionImmediatlyAfterBlock_of_lt (htidy.within base hmem)] at hstop
    obtain ⟨hresult, bytes, touch, hbytes, hentries⟩ :=
      writeAppendNewToOld_end hdata hcut ((hpast base hmem).antisymm hstop) hfpos
    rw [heq]
    exact ⟨hresult, end_of_wraps hentries hbytes hfpos hlen hwraps⟩

/-- The same write then counts its bytes once more. -/
theorem not_edgeHandled_of_wraps (now : Int) (hwell : WellFormed w.file) (hdata : data ≠ [])
    (hpast : ∀ t ∈ w.file.svf.entries, t.1 + t.2.data.length ≤ fpos) (hfpos : fpos < 2 ^ 64)
    (hlen : data.length < 2 ^ 64) (hwraps : 2 ^ 64 ≤ fpos + data.length) : ¬ EdgeHandled w now fpos data := by
  intro h
  obtain ⟨hresult, hend⟩ := writeBlocks_edge hwell hdata hpast hfpos hlen hwraps
  have hwrite := write_eq now fpos data hresult
  obtain ⟨_, _, hbytes⟩ := h.again ⟨(), by rw [hwrite]; rfl⟩ 0
  have hpastEnd : (w.write now fpos data).world.file.filePositionImmediatlyAfterEnd < fpos := by
    rw [hwrite]
    exact hend
  rw [write_bytesTotal, writeBlocks_past data hpastEnd, writeNewBlock_bytesTotal] at hbytes
  have hpos := List.length_pos_iff.mpr hdata
  simp only [sizeAdd, Wrap.add] at hbytes
  omega

end Edge

/-- **Writes past the end of all blocks are handled** exactly where they end within the
`size_t` range. -/
theorem edge_write_iff (w : World) (now : Int) (fpos : Nat) (data : List Byte) (hwell : WellFormed w.file)
    (hpast : ∀ t ∈ w.file.svf.entries, t.1 + t.2.data.length ≤ fpos) (hfpos : fpos < 2 ^ 64)
    (hdata : data ≠ []) (hlen : data.length < 2 ^ 64) :
    EdgeHandled w now fpos data ↔ fpos + data.length < 2 ^ 64 := by
  refine ⟨fun h => ?_, edgeHandled_of_fit now hwell hdata hpast⟩
  by_contra hwraps
  exact not_edgeHandled_of_wraps now hwell hdata hpast hfpos hlen (not_lt.mp hwraps) h

theorem edge_write_iff_ten : EdgeHandled tenBytes 0 10 [1, 2] ↔ 10 + 2 < 2 ^ 64 :=
  edge_write_iff tenBytes 0 10 [1, 2] ⟨⟨by decide, by decide⟩, by decide⟩ (by decide) (by decide) (by decide)
    (by decide)

/-- Written twice at the last two positions, two bytes cannot be inserted. -/
theorem not_edge_write : ¬ ∀ (w : World) (now : Int) (fpos : Nat) (data : List Byte), WellFormed w.file →
    (∀ t ∈ w.file.svf.entries, t.1 + t.2.data.length < fpos) → fpos < 2 ^ 64 → data ≠ [] →
    data.length < 2 ^ 64 → EdgeHandled w now fpos data := by
  intro h
  have hhandled := h (World.new [] 0) 0 (2 ^ 64 - 2) [1, 2] (tidy_new [] 0 {}).toWellFormed (by decide)
    (by decide) (by decide) (by decide)
  obtain ⟨⟨_, hagain⟩, _⟩ := hhandled.again ⟨(), by decide⟩ 0
  have hthrows : (((World.new [] 0).write 0 (2 ^ 64 - 2) [1, 2]).world.write 0 (2 ^ 64 - 2) [1, 2]).result ≠
      .ok () := by decide
  exact hthrows hagain

end Svfs
