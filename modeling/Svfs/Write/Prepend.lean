import Svfs.Write.Append

/-! Putting a block before the ones it reaches.

The walk of `_write_new_append_old` either throws at the first block whose first
byte is not the one written there, or ends with the new buffer holding exactly
what `Segments.absorb` says (`prependLoop_returns`). When it throws the blocks it
passed are gone from the map while their bytes are still counted
(`prependLoop_throws`). -/
namespace Svfs
namespace World

section Step
variable {w : World} {pre rest : List (Nat × Val)} {fpos : Nat} {data built : List Byte}
  {iter : Nat × Val}

/-- The new data up to a block, counted and compared with it. -/
def checkIter (fpos : Nat) (data : List Byte) (iter : Nat × Val) (w : World) : Outcome Unit :=
  diffCheck iter.1 (data.drop (iter.1 - fpos)) iter.2.data 0
    (min (data.length - (iter.1 - fpos)) iter.2.data.length) iter.2.data 0 (w.addBytes (iter.1 - fpos))

theorem checkIter_file : (checkIter fpos data iter w).world.file = (w.addBytes (iter.1 - fpos)).file :=
  diffCheck_file

theorem frame_checkIter : Frame w (checkIter fpos data iter w).world := by
  unfold Frame
  rw [checkIter_file]
  rfl

theorem checkIter_svf : (checkIter fpos data iter w).world.file.svf = w.file.svf := by
  rw [checkIter_file]
  rfl

theorem checkIter_bytesTotal : (checkIter fpos data iter w).world.file.bytesTotal =
    sizeAdd w.file.bytesTotal (iter.1 - fpos) := by
  rw [checkIter_file]
  rfl

theorem checkIter_throws (hc : w.file.config.compareForDiff = true)
    (htrip : TripsAt fpos data iter.2.data iter) :
    ∃ m, (checkIter fpos data iter w).result = .error (.diff m) :=
  diffCheck_throws hc htrip.2

theorem checkIter_returns
    (htrip : w.file.config.compareForDiff = true → ¬ TripsAt fpos data iter.2.data iter) :
    (checkIter fpos data iter w).result = .ok () := by
  refine diffCheck_returns fun hc htrips => htrip hc ⟨?_, htrips⟩
  obtain ⟨i, hi, _⟩ := memcmpDiffers_iff.mp htrips.1
  omega

theorem sound_checkIter
    (hdiff : w.file.config.compareForDiff = true → ¬ DiffersAt fpos data iter) :
    SoundLog w (checkIter fpos data iter w).world := by
  refine (SoundLog.of_log_eq rfl).trans
    (diffCheck_sound (by omega) fun hc => Bool.eq_false_iff.mpr fun h => hdiff hc ⟨?_, h⟩)
  obtain ⟨i, hi, _⟩ := memcmpDiffers_iff.mp h
  omega

/-- The walk reaches a block: it compares, takes over and goes on. -/
theorem prependLoop_reach {fposEnd : Nat} (hbeyond : fpos ≤ iter.1) (hposition : iter.1 < 2 ^ 64)
    (hreach : iter.1 ≤ fpos + data.length) :
    prependLoop fposEnd (iter :: rest) data fpos built w =
      (checkIter fpos data iter w).bind fun _ w =>
        let delta := min (data.length - (iter.1 - fpos)) iter.2.data.length
        let built := built ++ data.take (iter.1 - fpos + delta)
        let left := data.drop (iter.1 - fpos + delta)
        let fpos := sizeAdd iter.1 delta
        if fposEnd < filePositionImmediatlyAfterBlock iter then
          .returned (built ++ iter.2.data.drop delta, left, fpos)
            (((w.emit (.assertion left.isEmpty)).emit
              (.copy iter.2.data.length delta (iter.2.data.length - delta))).swallow iter.1)
        else if (rest.head?.map Prod.fst).all (sizeAdd fpos left.length < ·) then
          .returned (built ++ left, [], sizeAdd fpos left.length)
            ((w.swallow iter.1).addBytes left.length)
        else prependLoop fposEnd rest left fpos built (w.swallow iter.1) := by
  have hgap : (data.take (iter.1 - fpos)).length = iter.1 - fpos := by
    rw [List.length_take]
    omega
  have hfpos : sizeAdd fpos (iter.1 - fpos) = iter.1 := by
    rw [sizeAdd_of_lt (by omega)]
    omega
  simp only [prependLoop, hgap, hfpos, checkIter, List.drop_drop, List.length_drop, List.append_assoc,
    ← List.take_add]

/-- The data ends inside the block. -/
theorem prependLoop_ends (hbeyond : fpos ≤ iter.1) (hsize : iter.1 + iter.2.data.length < 2 ^ 64)
    (hreach : iter.1 ≤ fpos + data.length)
    (hends : fpos + data.length < iter.1 + iter.2.data.length)
    (hcheck : (checkIter fpos data iter w).result = .ok ()) :
    prependLoop (fpos + data.length) (iter :: rest) data fpos built w =
      .returned (built ++ (data ++ iter.2.data.drop (fpos + data.length - iter.1)), [],
          fpos + data.length)
        ((((checkIter fpos data iter w).world.emit (.assertion true)).emit
          (.copy iter.2.data.length (fpos + data.length - iter.1)
            (iter.2.data.length - (fpos + data.length - iter.1)))).swallow iter.1) := by
  have hdelta : min (data.length - (iter.1 - fpos)) iter.2.data.length =
      fpos + data.length - iter.1 := by omega
  have hall : iter.1 - fpos + (fpos + data.length - iter.1) = data.length := by omega
  have hfpos : sizeAdd iter.1 (fpos + data.length - iter.1) = fpos + data.length := by
    rw [sizeAdd_of_lt (by omega)]
    omega
  have hafter := filePositionImmediatlyAfterBlock_of_lt hsize
  rw [prependLoop_reach hbeyond (by omega) hreach, Outcome.bind_of_ok hcheck]
  dsimp only
  rw [hdelta, hall, hfpos, hafter, if_pos hends, List.take_length, List.drop_length, List.append_assoc]
  rfl

/-- The data ends after the block, with no block in the way of what is left. -/
theorem prependLoop_done (hbeyond : fpos ≤ iter.1) (hfit : fpos + data.length < 2 ^ 64)
    (hends : iter.1 + iter.2.data.length ≤ fpos + data.length)
    (hrest : ∀ next ∈ rest, fpos + data.length < next.1)
    (hcheck : (checkIter fpos data iter w).result = .ok ()) :
    prependLoop (fpos + data.length) (iter :: rest) data fpos built w =
      .returned (built ++ data, [], fpos + data.length)
        (((checkIter fpos data iter w).world.swallow iter.1).addBytes
          (fpos + data.length - (iter.1 + iter.2.data.length))) := by
  have hdelta : min (data.length - (iter.1 - fpos)) iter.2.data.length = iter.2.data.length := by
    omega
  have hafter : filePositionImmediatlyAfterBlock iter = iter.1 + iter.2.data.length :=
    filePositionImmediatlyAfterBlock_of_lt (by omega)
  have hfpos : sizeAdd iter.1 iter.2.data.length = iter.1 + iter.2.data.length :=
    sizeAdd_of_lt (by omega)
  have hleft : (data.drop (iter.1 - fpos + iter.2.data.length)).length =
      fpos + data.length - (iter.1 + iter.2.data.length) := by
    rw [List.length_drop]
    omega
  have hfpos' : sizeAdd (iter.1 + iter.2.data.length)
      (fpos + data.length - (iter.1 + iter.2.data.length)) = fpos + data.length := by
    rw [sizeAdd_of_lt (by omega)]
    omega
  have hnone : ((rest.head?.map Prod.fst).all (fpos + data.length < ·)) = true := by
    cases rest with
    | nil => rfl
    | cons next rest => simpa using hrest next (List.mem_cons_self ..)
  rw [prependLoop_reach hbeyond (by omega) (by omega), Outcome.bind_of_ok hcheck]
  dsimp only
  rw [hdelta, hafter, if_neg (by omega), hfpos, hleft, hfpos', if_pos hnone, List.append_assoc,
    List.take_append_drop]

/-- The data reaches the next block. -/
theorem prependLoop_passes {next : Nat × Val} (hbeyond : fpos ≤ iter.1)
    (hfit : fpos + data.length < 2 ^ 64) (hends : iter.1 + iter.2.data.length ≤ fpos + data.length)
    (hnext : next.1 ≤ fpos + data.length)
    (hcheck : (checkIter fpos data iter w).result = .ok ()) :
    prependLoop (fpos + data.length) (iter :: next :: rest) data fpos built w =
      prependLoop (fpos + data.length) (next :: rest)
        (data.drop (iter.1 + iter.2.data.length - fpos)) (iter.1 + iter.2.data.length)
        (built ++ data.take (iter.1 + iter.2.data.length - fpos))
        ((checkIter fpos data iter w).world.swallow iter.1) := by
  have hdelta : min (data.length - (iter.1 - fpos)) iter.2.data.length = iter.2.data.length := by
    omega
  have hafter : filePositionImmediatlyAfterBlock iter = iter.1 + iter.2.data.length :=
    filePositionImmediatlyAfterBlock_of_lt (by omega)
  have hfpos : sizeAdd iter.1 iter.2.data.length = iter.1 + iter.2.data.length :=
    sizeAdd_of_lt (by omega)
  have hfpos' : sizeAdd (iter.1 + iter.2.data.length)
      (data.length - (iter.1 + iter.2.data.length - fpos)) = fpos + data.length := by
    rw [sizeAdd_of_lt (by omega)]
    omega
  have hsome : (((next :: rest).head?.map Prod.fst).all (fpos + data.length < ·)) = false := by
    simpa using hnext
  rw [prependLoop_reach hbeyond (by omega) (by omega), Outcome.bind_of_ok hcheck]
  dsimp only
  rw [hdelta, hafter, if_neg (by omega), hfpos,
    show iter.1 - fpos + iter.2.data.length = iter.1 + iter.2.data.length - fpos by omega,
    List.length_drop, hfpos', hsome, if_neg (by simp)]

/-- The last block runs past the end of the `size_t` range: its end looks to be
before the data's, and it is dropped whole. -/
theorem prependLoop_wraps (built : List Byte) (hbeyond : fpos < iter.1) (hposition : iter.1 < 2 ^ 64)
    (hsize : iter.2.data.length < 2 ^ 64) (hwraps : 2 ^ 64 ≤ iter.1 + iter.2.data.length)
    (hreach : iter.1 ≤ fpos + data.length)
    (hcheck : (checkIter fpos data iter w).result = .ok ()) :
    ∃ fpos' added, prependLoop (fpos + data.length) [iter] data fpos built w =
      .returned (built ++ data, [], fpos')
        (((checkIter fpos data iter w).world.swallow iter.1).addBytes added) := by
  have hafter : filePositionImmediatlyAfterBlock iter = iter.1 + iter.2.data.length - 2 ^ 64 :=
    Wrap.add_of_ge hposition hsize hwraps
  rw [prependLoop_reach hbeyond.le hposition hreach, Outcome.bind_of_ok hcheck]
  dsimp only
  rw [hafter, if_neg (by omega), if_pos (by rfl), List.append_assoc, List.take_append_drop]
  exact ⟨_, _, rfl⟩

end Step

/-! ### The walk -/

/-- How a walk that does not throw ends. -/
structure PrependReturns (w : World) (iters : List (Nat × Val)) (fpos : Nat) (data built : List Byte)
    (o : Outcome (List Byte × List Byte × Nat)) : Prop where
  result : o.result =
    .ok (built ++ (Segments.absorb fpos data (segmentsOf iters)).1, [], fpos + data.length)
  frame : Frame w o.world
  blocks : o.world.file.svf.entries.IsSuffix iters ∧
    segmentsOf o.world.file.svf.entries = (Segments.absorb fpos data (segmentsOf iters)).2
  bytes : ∃ added, o.world.file.bytesTotal = sizeAdd w.file.bytesTotal added ∧
    added + Segments.total (segmentsOf iters) =
      (Segments.absorb fpos data (segmentsOf iters)).1.length +
        Segments.total (Segments.absorb fpos data (segmentsOf iters)).2
  sound : Quiet fpos data iters w → SoundLog w o.world

section Walk
variable {w : World} {iter : Nat × Val} {rest : List (Nat × Val)} {data built : List Byte} {fpos : Nat}

theorem swallow_checkIter_cut (h : w.file.svf.entries = iter :: rest) :
    ((checkIter fpos data iter w).world.swallow iter.1).file.svf.entries = rest := by
  have hcut : (checkIter fpos data iter w).world.file.svf.entries = [] ++ (iter.1, iter.2) :: rest := by
    rw [checkIter_svf, h]
    rfl
  exact swallow_cut hcut

theorem frame_taken : Frame w ((checkIter fpos data iter w).world.swallow iter.1) :=
  frame_checkIter.trans (frame_swallow _ _)

theorem prependReturns_ends (h : w.file.svf.entries = iter :: rest) (hahead : Ahead fpos (iter :: rest))
    (hsize : iter.1 + iter.2.data.length < 2 ^ 64) (hreach : iter.1 ≤ fpos + data.length)
    (hends : fpos + data.length < iter.1 + iter.2.data.length)
    (hcheck : (checkIter fpos data iter w).result = .ok ()) :
    PrependReturns w (iter :: rest) fpos data built
      (prependLoop (fpos + data.length) (iter :: rest) data fpos built w) := by
  have hbeyond := hahead.beyond iter (List.mem_cons_self ..)
  have habsorb : Segments.absorb fpos data (segmentsOf (iter :: rest)) =
      (data ++ iter.2.data.drop (fpos + data.length - iter.1), segmentsOf rest) :=
    Segments.absorb_cons_of_overhang hreach hends
  have hcut : ∀ e f : Event, ((((checkIter fpos data iter w).world.emit e).emit f).swallow
      iter.1).file.svf.entries = rest := by
    intro e f
    have hcut : (((checkIter fpos data iter w).world.emit e).emit f).file.svf.entries =
        [] ++ (iter.1, iter.2) :: rest := by
      rw [emit_file, emit_file, checkIter_svf, h]
      rfl
    exact swallow_cut hcut
  rw [prependLoop_ends hbeyond.le hsize hreach hends hcheck]
  refine ⟨by rw [habsorb]; rfl, ?_, ⟨?_, ?_⟩, ⟨iter.1 - fpos, ?_, ?_⟩, fun hq => ?_⟩
  · exact (frame_checkIter.trans ((frame_emit _ _).trans (frame_emit _ _))).trans (frame_swallow _ _)
  · rw [Outcome.returned_world, hcut]
    exact List.suffix_cons ..
  · rw [Outcome.returned_world, hcut, habsorb]
  · rw [Outcome.returned_world, swallow_bytesTotal]
    exact checkIter_bytesTotal
  · rw [habsorb, segmentsOf_cons, Segments.total_cons, List.length_append, List.length_drop]
    simp only
    omega
  · have hcheckSound := sound_checkIter (w := w)
      fun hc => hq.2 hc iter (List.mem_cons_self ..)
    refine ((hcheckSound.emit ?_).emit ?_).trans (sound_swallow _ _)
    · rfl
    · show _ + _ ≤ _
      omega

theorem prependReturns_done (h : w.file.svf.entries = iter :: rest) (hahead : Ahead fpos (iter :: rest))
    (hfit : fpos + data.length < 2 ^ 64) (hends : iter.1 + iter.2.data.length ≤ fpos + data.length)
    (hrest : ∀ next ∈ rest, fpos + data.length < next.1)
    (hcheck : (checkIter fpos data iter w).result = .ok ()) :
    PrependReturns w (iter :: rest) fpos data built
      (prependLoop (fpos + data.length) (iter :: rest) data fpos built w) := by
  have hbeyond := hahead.beyond iter (List.mem_cons_self ..)
  have habsorb : Segments.absorb fpos data (segmentsOf (iter :: rest)) = (data, segmentsOf rest) := by
    rw [segmentsOf_cons, Segments.absorb_cons_of_covered (by simp only; omega) hends]
    apply Segments.absorb_of_lt
    intro s hs
    obtain ⟨next, hnext, rfl⟩ := mem_segmentsOf.mp hs
    exact hrest next hnext
  rw [prependLoop_done hbeyond.le hfit hends hrest hcheck]
  refine ⟨by rw [habsorb]; rfl, ?_, ⟨?_, ?_⟩,
    ⟨iter.1 - fpos + (fpos + data.length - (iter.1 + iter.2.data.length)), ?_, ?_⟩, fun hq => ?_⟩
  · exact frame_taken.trans (frame_addBytes _ _)
  · rw [Outcome.returned_world, addBytes_svf, swallow_checkIter_cut h]
    exact List.suffix_cons ..
  · rw [Outcome.returned_world, addBytes_svf, swallow_checkIter_cut h, habsorb]
  · rw [Outcome.returned_world, addBytes_bytesTotal, swallow_bytesTotal, checkIter_bytesTotal,
      sizeAdd_assoc]
  · rw [habsorb, segmentsOf_cons, Segments.total_cons]
    simp only
    omega
  · refine ((sound_checkIter fun hc => hq.2 hc iter (List.mem_cons_self ..)).trans
      (sound_swallow _ _)).trans (SoundLog.of_log_eq rfl)

/-- Where the walk passes a block, it goes on at its end with the rest of the data. -/
theorem Ahead.end_eq {iters : List (Nat × Val)} (h : Ahead fpos (iter :: iters))
    (hends : iter.1 + iter.2.data.length ≤ fpos + data.length) :
    iter.1 + iter.2.data.length + (data.drop (iter.1 + iter.2.data.length - fpos)).length =
      fpos + data.length := by
  have hbeyond := h.beyond iter (List.mem_cons_self ..)
  rw [List.length_drop]
  omega

/-- A walk that returns from the block after returns from this one. -/
theorem PrependReturns.passes {iters : List (Nat × Val)} {o : Outcome (List Byte × List Byte × Nat)}
    (hahead : Ahead fpos (iter :: iters)) (hends : iter.1 + iter.2.data.length ≤ fpos + data.length)
    (hwalk : PrependReturns ((checkIter fpos data iter w).world.swallow iter.1) iters
      (iter.1 + iter.2.data.length) (data.drop (iter.1 + iter.2.data.length - fpos))
      (built ++ data.take (iter.1 + iter.2.data.length - fpos)) o) :
    PrependReturns w (iter :: iters) fpos data built o := by
  have hbeyond := hahead.beyond iter (List.mem_cons_self ..)
  obtain ⟨hresult, hframe, ⟨hsuffix, hremaining⟩, ⟨added, hadded, hsum⟩, hsound⟩ := hwalk
  have habsorb : Segments.absorb fpos data (segmentsOf (iter :: iters)) =
      (data.take (iter.1 + iter.2.data.length - fpos) ++
          (Segments.absorb (iter.1 + iter.2.data.length)
            (data.drop (iter.1 + iter.2.data.length - fpos)) (segmentsOf iters)).1,
        (Segments.absorb (iter.1 + iter.2.data.length)
          (data.drop (iter.1 + iter.2.data.length - fpos)) (segmentsOf iters)).2) :=
    Segments.absorb_cons_of_passed (by simp only; omega) (by simp only [Segments.stop_mk]; omega)
      (by simp only [Segments.stop_mk]; omega)
  refine ⟨?_, frame_taken.trans hframe, ⟨hsuffix.trans (List.suffix_cons ..), ?_⟩,
    ⟨iter.1 - fpos + added, ?_, ?_⟩, fun hq => ?_⟩
  · rw [hresult, habsorb, hahead.end_eq hends, List.append_assoc]
  · rw [hremaining, habsorb]
  · rw [hadded, swallow_bytesTotal, checkIter_bytesTotal, sizeAdd_assoc]
  · rw [habsorb, segmentsOf_cons, Segments.total_cons, List.length_append, List.length_take]
    simp only
    omega
  · refine ((sound_checkIter fun hc => hq.2 hc iter (List.mem_cons_self ..)).trans
      (sound_swallow _ _)).trans (hsound ⟨fun t ht => hq.1 t (List.mem_cons_of_mem _ ht), ?_⟩)
    intro hc t ht
    rw [frame_taken.config] at hc
    rw [hahead.differsAt_iff ht]
    exact hq.2 hc t (List.mem_cons_of_mem _ ht)

/-- What is not tripped on from here is not from the end of the first block. -/
theorem Ahead.not_tripsAt_tail (hahead : Ahead fpos (iter :: rest))
    (htrip : w.file.config.compareForDiff = true →
      ∀ next ∈ iter :: rest, ¬ TripsAt fpos data next.2.data next) :
    ((checkIter fpos data iter w).world.swallow iter.1).file.config.compareForDiff = true →
      ∀ t ∈ rest, ¬ TripsAt (iter.1 + iter.2.data.length)
        (data.drop (iter.1 + iter.2.data.length - fpos)) t.2.data t := by
  intro hc t ht
  rw [(frame_taken (w := w)).config] at hc
  rw [hahead.tripsAt_iff ht]
  exact htrip hc t (List.mem_cons_of_mem _ ht)

/-- The walk without a throw, where the blocks reached end within the `size_t` range. -/
theorem prependLoop_returns (built : List Byte) (h : w.file.svf.entries = iter :: rest)
    (hahead : Ahead fpos (iter :: rest)) (hreach : iter.1 ≤ fpos + data.length)
    (hfit : fpos + data.length < 2 ^ 64)
    (htrip : w.file.config.compareForDiff = true →
      ∀ next ∈ iter :: rest, ¬ TripsAt fpos data next.2.data next)
    (hstops : ∀ next ∈ iter :: rest, next.1 ≤ fpos + data.length →
      next.1 + next.2.data.length < 2 ^ 64) :
    PrependReturns w (iter :: rest) fpos data built
      (prependLoop (fpos + data.length) (iter :: rest) data fpos built w) := by
  have hcheck := checkIter_returns (w := w) fun hc => htrip hc iter (List.mem_cons_self ..)
  have hstop := hstops iter (List.mem_cons_self ..) hreach
  induction rest generalizing iter data built fpos w with
  | nil =>
    rcases Nat.lt_or_ge (fpos + data.length) (iter.1 + iter.2.data.length) with hends | hends
    · exact prependReturns_ends h hahead hstop hreach hends hcheck
    · exact prependReturns_done h hahead hfit hends (by simp) hcheck
  | cons next rest ih =>
    rcases Nat.lt_or_ge (fpos + data.length) (iter.1 + iter.2.data.length) with hends | hends
    · exact prependReturns_ends h hahead hstop hreach hends hcheck
    · rcases Nat.lt_or_ge (fpos + data.length) next.1 with hclear | hnext
      · have hlast : ∀ t ∈ next :: rest, fpos + data.length < t.1 := fun t ht =>
          hclear.trans_le ((hahead.tail (le_refl _)).head_le ht)
        exact prependReturns_done h hahead hfit hends hlast hcheck
      · -- The walk goes on at the next block, from the end of this one.
        have hend := hahead.end_eq hends
        have htail := hahead.not_tripsAt_tail htrip
        have hwalk := ih (built ++ data.take (iter.1 + iter.2.data.length - fpos))
          (swallow_checkIter_cut h) (hahead.tail (le_refl _)) (hnext.trans hend.ge)
          (hend.trans_lt hfit) htail
          (fun t ht hle => hstops t (List.mem_cons_of_mem _ ht) (hle.trans hend.le))
          (checkIter_returns fun hc => htail hc next (List.mem_cons_self ..))
          (hstops next (by simp) hnext)
        rw [hend] at hwalk
        rw [prependLoop_passes (hahead.beyond iter (List.mem_cons_self ..)).le hfit hends hnext hcheck]
        exact .passes hahead hends hwalk

/-- The walk without a throw, where it reaches a block that runs out of the `size_t` range:
that is the last one, and nothing is left of it. -/
theorem prependLoop_drops (built : List Byte) (h : w.file.svf.entries = iter :: rest)
    (hahead : Ahead fpos (iter :: rest)) (hfit : fpos + data.length < 2 ^ 64)
    (htrip : w.file.config.compareForDiff = true →
      ∀ next ∈ iter :: rest, ¬ TripsAt fpos data next.2.data next)
    {last : Nat × Val} (hlast : last ∈ iter :: rest) (hwraps : 2 ^ 64 ≤ last.1 + last.2.data.length)
    (hreach : last.1 ≤ fpos + data.length) :
    ∃ fpos', (prependLoop (fpos + data.length) (iter :: rest) data fpos built w).result =
        .ok (built ++ data, [], fpos') ∧
      (prependLoop (fpos + data.length) (iter :: rest) data fpos built w).world.file.svf.entries = [] := by
  have hcheck := checkIter_returns (w := w) fun hc => htrip hc iter (List.mem_cons_self ..)
  have hbeyond := hahead.beyond iter (List.mem_cons_self ..)
  induction rest generalizing iter data built fpos w with
  | nil =>
    obtain rfl := List.mem_singleton.mp hlast
    obtain ⟨fpos', added, heq⟩ := prependLoop_wraps built hbeyond
      (hahead.position last (List.mem_cons_self ..)) (hahead.size last (List.mem_cons_self ..)) hwraps
      hreach hcheck
    rw [heq]
    exact ⟨fpos', rfl, swallow_checkIter_cut h⟩
  | cons next rest ih =>
    have hapart := hahead.later next (List.mem_cons_self ..)
    have hposition := hahead.position next (by simp)
    have hlater : last ∈ next :: rest := by
      rcases List.mem_cons.mp hlast with rfl | hmem
      · omega
      · exact hmem
    have hnext := (hahead.tail (le_refl _)).head_le hlater
    have hends : iter.1 + iter.2.data.length ≤ fpos + data.length := by omega
    have hend := hahead.end_eq hends
    have htail := hahead.not_tripsAt_tail htrip
    have hwalk := ih (built ++ data.take (iter.1 + iter.2.data.length - fpos))
      (swallow_checkIter_cut h) (hahead.tail (le_refl _)) (hend.trans_lt hfit) htail hlater
      (hreach.trans hend.ge) (checkIter_returns fun hc => htail hc next (List.mem_cons_self ..))
      (hahead.later next (List.mem_cons_self ..))
    rw [hend, List.append_assoc, List.take_append_drop] at hwalk
    rwa [prependLoop_passes hbeyond.le hfit hends (by omega) hcheck]

/-- A throw of the walk: the blocks passed are gone, while what was counted is
the new bytes between them. -/
structure PrependThrows (w : World) (iters : List (Nat × Val)) (data : List Byte)
    (o : Outcome (List Byte × List Byte × Nat)) : Prop where
  result : ∃ m, o.result = .error (.diff m)
  frame : Frame w o.world
  blocks : o.world.file.svf.entries.IsSuffix iters
  bytes : ∃ added lost, 0 < added ∧ added + lost ≤ data.length ∧
    o.world.file.bytesTotal = sizeAdd w.file.bytesTotal added ∧
    Segments.total (segmentsOf iters) =
      lost + Segments.total (segmentsOf o.world.file.svf.entries)

theorem prependThrows_here (h : w.file.svf.entries = iter :: rest) (hahead : Ahead fpos (iter :: rest))
    (hc : w.file.config.compareForDiff = true) (htrip : TripsAt fpos data iter.2.data iter)
    {fposEnd : Nat} :
    PrependThrows w (iter :: rest) data (prependLoop fposEnd (iter :: rest) data fpos built w) := by
  have hbeyond := hahead.beyond iter (List.mem_cons_self ..)
  have hreach := htrip.1
  obtain ⟨m, hm⟩ := checkIter_throws hc htrip
  rw [prependLoop_reach hbeyond.le (hahead.position iter (List.mem_cons_self ..)) hreach.le,
    Outcome.bind_of_error hm]
  have hentries : (checkIter fpos data iter w).world.file.svf.entries = iter :: rest := by
    rw [checkIter_svf, h]
  refine ⟨⟨m, rfl⟩, frame_checkIter, ?_, ⟨iter.1 - fpos, 0, by omega, by omega,
    checkIter_bytesTotal, ?_⟩⟩
  · simp only [hentries]
    exact List.suffix_refl _
  · simp only [hentries, Nat.zero_add]

/-- A walk that throws from the block after throws from this one. -/
theorem PrependThrows.passes {iters : List (Nat × Val)} {o : Outcome (List Byte × List Byte × Nat)}
    (hbeyond : fpos < iter.1) (hends : iter.1 + iter.2.data.length ≤ fpos + data.length)
    (hwalk : PrependThrows ((checkIter fpos data iter w).world.swallow iter.1) iters
      (data.drop (iter.1 + iter.2.data.length - fpos)) o) :
    PrependThrows w (iter :: iters) data o := by
  obtain ⟨hresult, hframe, hsuffix, added, lost, hpos, hle, hadded, htotal⟩ := hwalk
  rw [List.length_drop] at hle
  refine ⟨hresult, frame_taken.trans hframe, hsuffix.trans (List.suffix_cons ..),
    iter.1 - fpos + added, iter.2.data.length + lost, by omega, by omega, ?_, ?_⟩
  · rw [hadded, swallow_bytesTotal, checkIter_bytesTotal, sizeAdd_assoc]
  · rw [segmentsOf_cons, Segments.total_cons, htotal]
    simp only
    omega

/-- The walk with a throw. -/
theorem prependLoop_throws (h : w.file.svf.entries = iter :: rest)
    (hahead : Ahead fpos (iter :: rest)) (hfit : fpos + data.length < 2 ^ 64)
    (hc : w.file.config.compareForDiff = true)
    (htrip : ∃ next ∈ iter :: rest, TripsAt fpos data next.2.data next) :
    PrependThrows w (iter :: rest) data
      (prependLoop (fpos + data.length) (iter :: rest) data fpos built w) := by
  induction rest generalizing iter data built fpos w with
  | nil =>
    obtain ⟨t, ht, htripped⟩ := htrip
    rw [List.mem_singleton.mp ht] at htripped
    exact prependThrows_here h hahead hc htripped
  | cons next rest ih =>
    by_cases hiter : TripsAt fpos data iter.2.data iter
    · exact prependThrows_here h hahead hc hiter
    · have hbeyond := hahead.beyond iter (List.mem_cons_self ..)
      have hcheck := checkIter_returns (w := w) fun _ => hiter
      obtain ⟨t, ht, htripped⟩ := htrip
      have ht : t ∈ next :: rest := (List.mem_cons.mp ht).resolve_left fun heq => hiter (heq ▸ htripped)
      have hnext := (hahead.tail (le_refl _)).head_le ht
      have hapart := hahead.later next (List.mem_cons_self ..)
      have hreach := htripped.1
      have hends : iter.1 + iter.2.data.length ≤ fpos + data.length := by omega
      have hend := hahead.end_eq hends
      have hwalk : PrependThrows ((checkIter fpos data iter w).world.swallow iter.1) (next :: rest)
          (data.drop (iter.1 + iter.2.data.length - fpos))
          (prependLoop (fpos + data.length) (next :: rest)
            (data.drop (iter.1 + iter.2.data.length - fpos)) (iter.1 + iter.2.data.length)
            (built ++ data.take (iter.1 + iter.2.data.length - fpos))
            ((checkIter fpos data iter w).world.swallow iter.1)) := by
        rw [← hend]
        exact ih (swallow_checkIter_cut h) (hahead.tail (le_refl _)) (hend.trans_lt hfit)
          (by rw [frame_taken.config]; exact hc) ⟨t, ht, (hahead.tripsAt_iff ht).mpr htripped⟩
      rw [prependLoop_passes hbeyond.le hfit hends (by omega) hcheck]
      exact .passes hbeyond hends hwalk

end Walk

end World
end Svfs
