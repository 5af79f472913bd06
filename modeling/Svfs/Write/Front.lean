import Svfs.Write.Coalesce

/-! Prepending to the first blocks coalesces exactly.

The blocks at the front of the map that begin within the range written, or at its end,
become one block with the bytes of all of them and the data. Here it does make a difference
whether a block runs out of the `size_t` range: the walk compares the end of the data with
the end the block seems to have, takes the block for covered, and drops the rest of it
(`prepend_coalesces_iff`). -/
namespace Svfs
namespace World

/-- What a write in front of the blocks is to leave behind, with the blocks it reaches and
those it does not. -/
structure Prepended (w : World) (fpos : Nat) (data : List Byte) (reached later : List (Nat × Val))
    (o : Outcome Unit) : Prop where
  result : o.result = .ok ()
  /-- One block in place of those reached, with the union of their bytes and the data, and
  the touch that was next. -/
  blocks : ∃ bytes, o.world.file.svf.entries = (fpos, ⟨bytes, w.file.blockTouch⟩) :: later ∧
    ∀ p b, Segments.Gives (fpos, bytes) p b ↔
      Segments.Gives (fpos, data) p b ∨ ∃ t ∈ reached, Segments.Gives (t.1, t.2.data) p b
  /-- The count is raised by the number of bytes newly held, as a `size_t` is. -/
  bytesTotal : o.world.file.bytesTotal = sizeAdd w.file.bytesTotal
    (Set.Ico fpos (fpos + data.length) \ Segments.support w.file.segments).ncard
  frame : o.world.file = {w.file with
    svf := o.world.file.svf
    bytesTotal := o.world.file.bytesTotal
    blockTouch := touchSucc w.file.blockTouch}
  separated : Segments.Separated o.world.file.segments
  /-- It is exact where a `size_t` can count the bytes held now. -/
  wellFormed : Segments.total o.world.file.segments < 2 ^ 64 → WellFormed o.world.file ∧
    o.world.file.bytesTotal = w.file.bytesTotal +
      (Set.Ico fpos (fpos + data.length) \ Segments.support w.file.segments).ncard
  /-- The two assertions at the end hold. -/
  asserts : ∃ log, o.world.log = .assertion true :: .assertion true :: log

section Front
variable {w : World} {fpos : Nat} {data : List Byte} {reached later rest : List (Nat × Val)}
  {iter : Nat × Val} {o : Outcome Unit}

/-- The walk has used up the data when the new block goes in. -/
theorem writeNewAppendOld_asserts (hcut : w.file.svf.entries = iter :: rest) (hahead : Ahead fpos (iter :: rest))
    (hreach : iter.1 ≤ fpos + data.length) (hfit : fpos + data.length < 2 ^ 64)
    (htrip : w.file.config.compareForDiff = true →
      ∀ next ∈ iter :: rest, ¬ TripsAt fpos data next.2.data next)
    (hstops : ∀ next ∈ iter :: rest, next.1 ≤ fpos + data.length →
      next.1 + next.2.data.length < 2 ^ 64) :
    ∃ log, (w.writeNewAppendOld fpos data (iter :: rest)).world.log =
      .assertion true :: .assertion true :: log := by
  have hwalk := prependLoop_returns (w := enterPrepend fpos data (iter :: rest) w) [] hcut hahead hreach hfit
    htrip hstops
  obtain ⟨hinsert, _⟩ := insertNew_cut "SparseVirtualFile::write():"
    (v := ⟨(Segments.absorb fpos data (segmentsOf (iter :: rest))).1, w.file.blockTouch⟩)
    (List.nil_append _).symm (by simp) fun e he => hahead.beyond e (hwalk.blocks.1.subset he)
  have hresult := hwalk.result
  rw [List.nil_append] at hresult
  rw [writeNewAppendOld_eq hfit, Outcome.bind_of_ok hresult, Outcome.bind_of_ok hinsert, Outcome.returned_world,
    emit_log, emit_log, List.isEmpty_nil, beq_self_eq_true]
  exact ⟨_, rfl⟩

/-- The blocks not reached are those that stay. -/
theorem Fronted.entries_eq (h : Fronted w fpos data o) (hsep : Segments.Separated w.file.segments)
    (hcut : w.file.svf.entries = reached ++ later) (hreached : ∀ t ∈ reached, t.1 ≤ fpos + data.length)
    (hlater : ∀ t ∈ later, fpos + data.length < t.1) :
    ∃ bytes, o.world.file.svf.entries = (fpos, ⟨bytes, w.file.blockTouch⟩) :: later := by
  obtain ⟨remaining, hsuffix, hentries⟩ := h.entries
  have hblocks := h.written.blocks
  rw [SparseVirtualFile.segments, hentries, segmentsOf_cons] at hblocks
  have hremaining := (List.cons.inj hblocks).2
  rw [SparseVirtualFile.segments, hcut] at hremaining hsep
  have hsame := eq_later_of_absorbed hsep (hcut ▸ hsuffix) hremaining hreached hlater
  exact ⟨_, hsame ▸ hentries⟩

/-- Where the blocks reached end within the range, they are coalesced. -/
theorem prepended_of_within (h : WellFormed w.file) (hs : Representable w.file) (hdata : data ≠ [])
    (hfit : fpos + data.length < 2 ^ 64) (hcut : w.file.svf.entries = reached ++ later) (hne : reached ≠ [])
    (hbefore : ∀ t ∈ w.file.svf.entries, fpos < t.1) (hreached : ∀ t ∈ reached, t.1 ≤ fpos + data.length)
    (hlater : ∀ t ∈ later, fpos + data.length < t.1) (hagree : ¬ w.file.Conflict fpos data)
    (hwithin : ∀ t ∈ reached, t.1 + t.2.data.length < 2 ^ 64) :
    Prepended w fpos data reached later (w.writeNewAppendOld fpos data (reached ++ later)) := by
  obtain ⟨iter, more, rfl⟩ := List.exists_cons_of_ne_nil hne
  have hfirst : fpos < iter.1 := hbefore iter (by simp [hcut])
  have hreach : iter.1 ≤ fpos + data.length := hreached iter (List.mem_cons_self ..)
  have hstops : ∀ next ∈ iter :: (more ++ later), next.1 ≤ fpos + data.length →
      next.1 + next.2.data.length < 2 ^ 64 := by
    intro next hnext hle
    rw [← List.cons_append] at hnext
    rcases List.mem_append.mp hnext with hnext | hnext
    · exact hwithin next hnext
    · have := hlater next hnext
      omega
  have hfronted := fronted_of_agree h.separated hs hdata hfit hagree hcut hfirst hreach hstops
  have hsep := hfronted.separated h.separated hdata hcut hfirst
  have hheld := hfronted.held_eq h.separated hcut hfirst
  obtain ⟨bytes, hentries⟩ := hfronted.entries_eq h.separated hcut hreached hlater
  obtain ⟨hadded, htotal⟩ := hfronted.written.newlyHeld h.separated hsep hheld
  have hmerged : ∀ t ∈ iter :: more, fpos ≤ t.1 := fun t ht =>
    (hbefore t (by rw [hcut]; exact List.mem_append_left _ ht)).le
  refine ⟨hfronted.written.result, ⟨bytes, hentries, gives_coalesced [] h.separated hsep hcut hentries
    (le_refl _) hmerged hlater (held_iff_of_agree hagree hheld)⟩, hadded, hfronted.written.frame, hsep,
    wellFormed_of_counted h hsep hadded htotal, ?_⟩
  exact writeNewAppendOld_asserts hcut (hs.ahead_first h.separated hcut (OrderedMap.lt_of_first hcut hfirst))
    hreach hfit
    (fun _ next hnext htrip => not_differsAt_of_front h.separated hagree hcut hfirst hnext htrip.differs) hstops

/-- A block reached that runs out of the range loses the byte after the data. -/
theorem not_prepended_of_wraps (h : WellFormed w.file) (hs : Representable w.file)
    (hfit : fpos + data.length < 2 ^ 64) (hcut : w.file.svf.entries = reached ++ later)
    (hbefore : ∀ t ∈ w.file.svf.entries, fpos < t.1) (hreached : ∀ t ∈ reached, t.1 ≤ fpos + data.length)
    (hagree : ¬ w.file.Conflict fpos data) {last : Nat × Val} (hlast : last ∈ reached)
    (hwraps : 2 ^ 64 ≤ last.1 + last.2.data.length) :
    ¬ Prepended w fpos data reached later (w.writeNewAppendOld fpos data (reached ++ later)) := by
  intro hprepended
  obtain ⟨iter, more, rfl⟩ := List.exists_cons_of_ne_nil (List.ne_nil_of_mem hlast)
  have hfirst : fpos < iter.1 := hbefore iter (by simp [hcut])
  have hreach := hreached last hlast
  obtain ⟨_, hentries⟩ := writeNewAppendOld_drops hcut
    (hs.ahead_first h.separated hcut (OrderedMap.lt_of_first hcut hfirst)) hfit
    (fun _ next hnext htrip => not_differsAt_of_front h.separated hagree hcut hfirst hnext htrip.differs)
    (List.mem_append_left _ hlast) hwraps hreach
  obtain ⟨bytes, hblocks, hunion⟩ := hprepended.blocks
  have hbytes := (List.cons.inj (hentries.symm.trans hblocks)).1
  obtain rfl : data = bytes := congrArg (fun e => e.2.data) hbytes
  -- The block had a byte just past the data, and the data is all that is left.
  obtain ⟨b, hb⟩ : ∃ b, last.2.data[fpos + data.length - last.1]? = some b :=
    ⟨_, List.getElem?_eq_getElem (by omega)⟩
  have hgives := (hunion (fpos + data.length) b).mpr (.inr ⟨last, hlast, hreach, hb⟩)
  have := hgives.bounds
  omega

/-- **Prepending coalesces exactly** where the blocks reached end within the `size_t` range. -/
theorem prepend_coalesces_iff (w : World) (fpos : Nat) (data : List Byte) (reached later : List (Nat × Val))
    (h : WellFormed w.file) (hs : Representable w.file) (hdata : data ≠ []) (hfit : fpos + data.length < 2 ^ 64)
    (hcut : w.file.svf.entries = reached ++ later) (hne : reached ≠ [])
    (hbefore : ∀ t ∈ w.file.svf.entries, fpos < t.1) (hreached : ∀ t ∈ reached, t.1 ≤ fpos + data.length)
    (hlater : ∀ t ∈ later, fpos + data.length < t.1) (hagree : ¬ w.file.Conflict fpos data) :
    Prepended w fpos data reached later (w.writeNewAppendOld fpos data (reached ++ later)) ↔
      ∀ t ∈ reached, t.1 + t.2.data.length < 2 ^ 64 := by
  refine ⟨fun hprepended t ht => ?_,
    prepended_of_within h hs hdata hfit hcut hne hbefore hreached hlater hagree⟩
  by_contra hwraps
  exact not_prepended_of_wraps h hs hfit hcut hbefore hreached hagree ht (not_lt.mp hwraps) hprepended

/-- Three blocks, with room for one in front. -/
def roomInFront : World :=
  Run.run Command.step (World.new [] 0) [.write 0 2 [2, 3], .write 0 6 [6, 7], .write 0 11 [11]]

theorem tidy_roomInFront : Tidy roomInFront.file where
  separated := ⟨by decide, by decide⟩
  bytesTotal := by decide
  within := by decide

theorem prepend_coalesces_iff_two : Prepended roomInFront 1 [1, 2, 3, 4, 5, 6] [(2, ⟨[2, 3], 0⟩), (6, ⟨[6, 7], 1⟩)]
      [(11, ⟨[11], 2⟩)] (roomInFront.writeNewAppendOld 1 [1, 2, 3, 4, 5, 6]
        ([(2, ⟨[2, 3], 0⟩), (6, ⟨[6, 7], 1⟩)] ++ [(11, ⟨[11], 2⟩)])) ↔
    ∀ t ∈ [((2, ⟨[2, 3], 0⟩) : Nat × Val), (6, ⟨[6, 7], 1⟩)], t.1 + t.2.data.length < 2 ^ 64 :=
  prepend_coalesces_iff roomInFront 1 [1, 2, 3, 4, 5, 6] [(2, ⟨[2, 3], 0⟩), (6, ⟨[6, 7], 1⟩)] [(11, ⟨[11], 2⟩)]
    tidy_roomInFront.toWellFormed tidy_roomInFront.representable (by decide) (by decide) rfl (by decide)
    (by decide) (by decide) (by decide) (by decide)

/-- One block, up to the last position of all. -/
def atTheEnd : World := Run.run Command.step (World.new [] 0) [.write 0 (2 ^ 64 - 2) [1, 2]]

theorem wellFormed_atTheEnd : WellFormed atTheEnd.file := ⟨⟨by decide, by decide⟩, by decide⟩

theorem representable_atTheEnd : Representable atTheEnd.file := ⟨by decide, by decide, by decide⟩

/-- A byte written before it is all that is left. -/
theorem not_prepend_coalesces : ¬ ∀ (w : World) (fpos : Nat) (data : List Byte) (reached later : List (Nat × Val)),
    WellFormed w.file → Representable w.file → data ≠ [] → fpos + data.length < 2 ^ 64 →
    w.file.svf.entries = reached ++ later → reached ≠ [] → (∀ t ∈ w.file.svf.entries, fpos < t.1) →
    (∀ t ∈ reached, t.1 ≤ fpos + data.length) → (∀ t ∈ later, fpos + data.length < t.1) →
    ¬ w.file.Conflict fpos data →
    Prepended w fpos data reached later (w.writeNewAppendOld fpos data (reached ++ later)) := by
  intro h
  have hprepended := h atTheEnd (2 ^ 64 - 3) [0] [(2 ^ 64 - 2, ⟨[1, 2], 0⟩)] [] wellFormed_atTheEnd
    representable_atTheEnd (by decide) (by decide) (by decide) (by decide) (by decide) (by decide) (by decide)
    (by decide)
  obtain ⟨bytes, hentries, hunion⟩ := hprepended.blocks
  have hleft : (atTheEnd.writeNewAppendOld (2 ^ 64 - 3) [0] [(2 ^ 64 - 2, ⟨[1, 2], 0⟩)]).world.file.svf.entries =
      [(2 ^ 64 - 3, ⟨[0], 1⟩)] := by decide
  rw [List.append_nil, hleft] at hentries
  obtain rfl : [0] = bytes := congrArg (fun e => e.2.data) (List.cons.inj hentries).1
  have hgives := (hunion (2 ^ 64 - 2) 1).mpr
    (.inr ⟨_, List.mem_singleton_self _, by simp, by simp⟩)
  have := hgives.bounds
  simp only [List.length_singleton] at this
  omega

end Front

end World
end Svfs
