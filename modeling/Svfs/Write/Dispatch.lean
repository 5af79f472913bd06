import Svfs.File.WellFormed
import Svfs.Write.Prepend

/-! The three ways to write, and which one a write takes.

Each way is described once for a write that returns (`Written`: the blocks it
leaves and what it counted) and once for one that throws. `writeBlocks_cases`
says which way a write goes, whatever the state of the map. -/
namespace Svfs
namespace World

/-- A write that returned left these blocks, counted the bytes it added and
issued one touch; nothing else of the file changed. -/
structure Written (w : World) (segments : List (Segments.Segment Byte)) (o : Outcome Unit) : Prop where
  result : o.result = .ok ()
  frame : o.world.file = {w.file with
    svf := o.world.file.svf
    bytesTotal := o.world.file.bytesTotal
    blockTouch := touchSucc w.file.blockTouch}
  blocks : o.world.file.segments = segments
  bytes : ∃ added, o.world.file.bytesTotal = sizeAdd w.file.bytesTotal added ∧
    added + Segments.total w.file.segments = Segments.total segments

section Ways
variable {w : World} {pre post : List (Nat × Val)} {fpos : Nat} {data : List Byte}

/-! ### A new block -/

/-- What `_write_new_block` does before it inserts. -/
def enterNewBlock (fpos : Nat) (data : List Byte) (w : World) : World :=
  {w.emit (.assertion (w.file.svf.find? fpos).isNone) with
    file := {w.file with
      blockTouch := touchSucc w.file.blockTouch
      bytesTotal := sizeAdd w.file.bytesTotal data.length}}

theorem writeNewBlock_eq (fpos : Nat) (data : List Byte) (w : World) :
    w.writeNewBlock fpos data = (enterNewBlock fpos data w).insertNew
      "SparseVirtualFile::_write_new_block():" fpos ⟨data, w.file.blockTouch⟩ := rfl

theorem writeNewBlock_entries (data : List Byte) (h : w.file.svf.entries = pre ++ post)
    (hpre : ∀ e ∈ pre, e.1 < fpos) (hpost : ∀ e ∈ post, fpos < e.1) :
    (w.writeNewBlock fpos data).world.file.svf.entries = pre ++ (fpos, ⟨data, w.file.blockTouch⟩) :: post :=
  (insertNew_cut _ (w := enterNewBlock fpos data w) h hpre hpost).2.1

theorem mem_writeNewBlock (data : List Byte) (h : w.file.svf.entries = pre ++ post)
    (hpre : ∀ e ∈ pre, e.1 < fpos) (hpost : ∀ e ∈ post, fpos < e.1) {t : Nat × Val} :
    t ∈ (w.writeNewBlock fpos data).world.file.svf.entries ↔
      t = (fpos, ⟨data, w.file.blockTouch⟩) ∨ t ∈ w.file.svf.entries := by
  rw [writeNewBlock_entries data h hpre hpost, h]
  simp only [List.mem_append, List.mem_cons]
  tauto

theorem writeNewBlock_written (data : List Byte) (h : w.file.svf.entries = pre ++ post)
    (hpre : ∀ e ∈ pre, e.1 < fpos) (hpost : ∀ e ∈ post, fpos < e.1) :
    Written w (segmentsOf pre ++ (fpos, data) :: segmentsOf post) (w.writeNewBlock fpos data) ∧
      SoundLog w (w.writeNewBlock fpos data).world := by
  have habsent := OrderedMap.find?_of_cut h hpre hpost
  obtain ⟨hresult, hentries, hbytes, hframe, hlog⟩ := insertNew_cut _ (w := enterNewBlock fpos data w)
    (v := ⟨data, w.file.blockTouch⟩) h hpre hpost
  refine ⟨⟨hresult, hframe, ?_, data.length, hbytes, ?_⟩, ⟨[.assertion _], hlog, ?_⟩⟩
  · show segmentsOf _ = _
    exact (congrArg segmentsOf hentries).trans (by simp)
  · show _ + Segments.total (segmentsOf w.file.svf.entries) = _
    rw [h]
    simp only [segmentsOf_append, Segments.total_append, Segments.total_cons]
    omega
  · rw [habsent]
    intro e he
    rw [List.mem_singleton.mp he]
    rfl

/-- A new block never reports a difference. -/
theorem writeNewBlock_not_diff (fpos : Nat) (data : List Byte) (w : World) (m : String) :
    (w.writeNewBlock fpos data).result ≠ .error (.diff m) := by
  unfold writeNewBlock insertNew
  dsimp only
  split <;> simp

theorem writeNewBlock_bytesTotal (fpos : Nat) (data : List Byte) (w : World) :
    (w.writeNewBlock fpos data).world.file.bytesTotal = sizeAdd w.file.bytesTotal data.length := by
  unfold writeNewBlock insertNew
  dsimp only
  split <;> rfl

/-! ### In front of the blocks it reaches -/

/-- What `_write_new_append_old` does before its walk. -/
def enterPrepend (fpos : Nat) (data : List Byte) (iters : List (Nat × Val)) (w : World) : World :=
  let w := (w.emit (.assertion (0 < data.length))).emit
    (.assertion ((iters.head?.map Prod.fst).any (fpos < ·)))
  {w with file := {w.file with blockTouch := touchSucc w.file.blockTouch}}

variable {iter : Nat × Val} {rest : List (Nat × Val)}

theorem writeNewAppendOld_bind (fpos : Nat) (data : List Byte) (iters : List (Nat × Val)) (w : World) :
    w.writeNewAppendOld fpos data iters =
      (prependLoop (sizeAdd fpos data.length) iters data fpos [] (enterPrepend fpos data iters w)).bind
      fun b w' => (w'.insertNew "SparseVirtualFile::write():" fpos ⟨b.1, w.file.blockTouch⟩).bind fun _ w =>
      .returned () ((w.emit (.assertion b.2.1.isEmpty)).emit
        (.assertion (b.2.2 == sizeAdd fpos data.length))) := rfl

theorem writeNewAppendOld_eq (hfit : fpos + data.length < 2 ^ 64) :
    writeNewAppendOld fpos data (iter :: rest) w =
      (prependLoop (fpos + data.length) (iter :: rest) data fpos []
        (enterPrepend fpos data (iter :: rest) w)).bind fun b w' =>
      (w'.insertNew "SparseVirtualFile::write():" fpos ⟨b.1, w.file.blockTouch⟩).bind fun _ w =>
      .returned () ((w.emit (.assertion b.2.1.isEmpty)).emit
        (.assertion (b.2.2 == fpos + data.length))) := by
  rw [writeNewAppendOld_bind, sizeAdd_of_lt hfit]

theorem sound_enterPrepend (hdata : data ≠ []) (hbeyond : fpos < iter.1) :
    SoundLog w (enterPrepend fpos data (iter :: rest) w) := by
  refine ⟨[_, _], rfl, fun e he => ?_⟩
  rcases List.mem_pair.mp he with rfl | rfl
  · simpa [Event.Sound] using hbeyond
  · simpa [Event.Sound] using List.length_pos_iff.mpr hdata

/-- A write in front of the blocks that returned: those it reached went into a new one, the
others stayed. -/
structure Fronted (w : World) (fpos : Nat) (data : List Byte) (o : Outcome Unit) : Prop where
  written : Written w ((fpos, (Segments.absorb fpos data w.file.segments).1) ::
    (Segments.absorb fpos data w.file.segments).2) o
  entries : ∃ remaining, remaining.IsSuffix w.file.svf.entries ∧
    o.world.file.svf.entries =
      (fpos, ⟨(Segments.absorb fpos data w.file.segments).1, w.file.blockTouch⟩) :: remaining
  sound : Quiet fpos data w.file.svf.entries w → SoundLog w o.world

theorem writeNewAppendOld_fronted (h : w.file.svf.entries = iter :: rest) (hdata : data ≠ [])
    (hahead : Ahead fpos (iter :: rest)) (hreach : iter.1 ≤ fpos + data.length)
    (hfit : fpos + data.length < 2 ^ 64)
    (hstops : ∀ next ∈ iter :: rest, next.1 ≤ fpos + data.length →
      next.1 + next.2.data.length < 2 ^ 64)
    (htrip : w.file.config.compareForDiff = true →
      ∀ next ∈ iter :: rest, ¬ TripsAt fpos data next.2.data next) :
    Fronted w fpos data (w.writeNewAppendOld fpos data (iter :: rest)) := by
  have hsegments : w.file.segments = segmentsOf (iter :: rest) := congrArg segmentsOf h
  obtain ⟨hresult, hframe, ⟨hsuffix, hremaining⟩, ⟨added, hadded, hsum⟩, hsound⟩ :=
    prependLoop_returns (w := enterPrepend fpos data (iter :: rest) w) [] h hahead hreach hfit htrip hstops
  obtain ⟨hresult', hentries, hbytes, hframe', hlog⟩ := insertNew_cut _
    (v := ⟨(Segments.absorb fpos data (segmentsOf (iter :: rest))).1, w.file.blockTouch⟩)
    (List.nil_append _).symm (by simp) fun e he => hahead.beyond e (hsuffix.subset he)
  rw [List.nil_append] at hresult
  rw [writeNewAppendOld_eq hfit, Outcome.bind_of_ok hresult, Outcome.bind_of_ok hresult']
  refine ⟨⟨rfl, ?_, ?_, added, ?_, ?_⟩, ⟨_, ?_, by rw [hsegments]; exact hentries⟩, fun hq => ?_⟩
  · have := hframe.trans hframe'
    unfold Frame at this
    exact this
  · show segmentsOf _ = _
    exact (congrArg segmentsOf hentries).trans (by simp [hsegments, hremaining])
  · exact hbytes.trans hadded
  · rw [hsegments, Segments.total_cons]
    exact hsum
  · rw [h]
    exact hsuffix
  · rw [h] at hq
    refine ((((sound_enterPrepend hdata (hahead.beyond iter (List.mem_cons_self ..))).trans
      (hsound hq)).trans (SoundLog.of_log_eq hlog)).emit ?_).emit ?_
    · rfl
    · simp [Event.Sound]

/-- Where it reaches a block that runs out of the range, the data is all that is left. -/
theorem writeNewAppendOld_drops (h : w.file.svf.entries = iter :: rest)
    (hahead : Ahead fpos (iter :: rest)) (hfit : fpos + data.length < 2 ^ 64)
    (htrip : w.file.config.compareForDiff = true →
      ∀ next ∈ iter :: rest, ¬ TripsAt fpos data next.2.data next)
    {last : Nat × Val} (hlast : last ∈ iter :: rest) (hwraps : 2 ^ 64 ≤ last.1 + last.2.data.length)
    (hreach : last.1 ≤ fpos + data.length) :
    (w.writeNewAppendOld fpos data (iter :: rest)).result = .ok () ∧
      (w.writeNewAppendOld fpos data (iter :: rest)).world.file.svf.entries =
        [(fpos, ⟨data, w.file.blockTouch⟩)] := by
  obtain ⟨fpos', hresult, hentries⟩ := prependLoop_drops (w := enterPrepend fpos data (iter :: rest) w) []
    h hahead hfit htrip hlast hwraps hreach
  obtain ⟨hresult', hentries', -⟩ := insertNew_cut _ (v := ⟨data, w.file.blockTouch⟩)
    (hentries.trans (List.append_nil _).symm) (by simp) (by simp)
  rw [List.nil_append] at hresult
  rw [writeNewAppendOld_eq hfit, Outcome.bind_of_ok hresult, Outcome.bind_of_ok hresult']
  exact ⟨rfl, hentries'⟩

/-- Without a block to trip on no difference is reported, even when the last
block runs past the end of the `size_t` range. -/
theorem writeNewAppendOld_not_diff (h : w.file.svf.entries = iter :: rest)
    (hahead : Ahead fpos (iter :: rest)) (hreach : iter.1 ≤ fpos + data.length)
    (hfit : fpos + data.length < 2 ^ 64)
    (htrip : w.file.config.compareForDiff = true →
      ∀ next ∈ iter :: rest, ¬ TripsAt fpos data next.2.data next) (m : String) :
    (w.writeNewAppendOld fpos data (iter :: rest)).result ≠ .error (.diff m) := by
  have hreturns : (w.writeNewAppendOld fpos data (iter :: rest)).result = .ok () := by
    by_cases hstops : ∀ next ∈ iter :: rest, next.1 ≤ fpos + data.length →
      next.1 + next.2.data.length < 2 ^ 64
    · have hbeyond := hahead.beyond iter (List.mem_cons_self ..)
      have hdata : data ≠ [] := List.ne_nil_of_length_pos (by omega)
      exact (writeNewAppendOld_fronted h hdata hahead hreach hfit hstops htrip).written.result
    · push Not at hstops
      obtain ⟨last, hlast, hle, hwraps⟩ := hstops
      exact (writeNewAppendOld_drops h hahead hfit htrip hlast hwraps hle).1
  rw [hreturns]
  simp

theorem writeNewAppendOld_throws (h : w.file.svf.entries = iter :: rest)
    (hahead : Ahead fpos (iter :: rest)) (hfit : fpos + data.length < 2 ^ 64)
    (hc : w.file.config.compareForDiff = true)
    (htrip : ∃ next ∈ iter :: rest, TripsAt fpos data next.2.data next) :
    (∃ m, (w.writeNewAppendOld fpos data (iter :: rest)).result = .error (.diff m)) ∧
      ∃ added lost, 0 < added ∧ added + lost ≤ data.length ∧
        (w.writeNewAppendOld fpos data (iter :: rest)).world.file.bytesTotal =
          sizeAdd w.file.bytesTotal added ∧
        Segments.total w.file.segments =
          lost + Segments.total (w.writeNewAppendOld fpos data (iter :: rest)).world.file.segments := by
  obtain ⟨⟨m, hresult⟩, _, _, added, lost, hpos, hle, hadded, htotal⟩ :=
    prependLoop_throws (w := enterPrepend fpos data (iter :: rest) w) h hahead hfit hc htrip
  rw [writeNewAppendOld_eq hfit, Outcome.bind_of_error hresult]
  refine ⟨⟨m, rfl⟩, added, lost, hpos, hle, hadded, ?_⟩
  show Segments.total (segmentsOf w.file.svf.entries) = _
  rw [h]
  exact htotal

/-! ### Onto the block it falls on -/

variable {base : Nat × Val}

/-- A write onto a block that returned: the blocks it reached went into that one, the
others stayed, and in a file that ends within the range nothing was logged to complain
about. -/
structure Grown (w : World) (fpos : Nat) (data : List Byte) (pre : List (Nat × Val)) (base : Nat × Val)
    (rest : List (Nat × Val)) (o : Outcome Unit) : Prop where
  written : Written w (segmentsOf pre ++
    (base.1, base.2.data ++ (Segments.absorb (base.1 + base.2.data.length)
      (data.drop (base.1 + base.2.data.length - fpos)) (segmentsOf rest)).1) ::
    (Segments.absorb (base.1 + base.2.data.length)
      (data.drop (base.1 + base.2.data.length - fpos)) (segmentsOf rest)).2) o
  entries : ∃ remaining, remaining.IsSuffix rest ∧
    segmentsOf remaining = (Segments.absorb (base.1 + base.2.data.length)
      (data.drop (base.1 + base.2.data.length - fpos)) (segmentsOf rest)).2 ∧
    o.world.file.svf.entries = pre ++ (base.1,
      ⟨base.2.data ++ (Segments.absorb (base.1 + base.2.data.length)
        (data.drop (base.1 + base.2.data.length - fpos)) (segmentsOf rest)).1,
        w.file.blockTouch⟩) :: remaining
  sound : base.1 + base.2.data.length < 2 ^ 64 →
    (w.file.config.compareForDiff = true → ¬ BaseDiffers fpos data base) →
    Quiet (base.1 + base.2.data.length) (data.drop (base.1 + base.2.data.length - fpos)) rest w →
    SoundLog w o.world

/-- The walk from the end of the base block. Where that block runs out of the range, the
data ends in it. -/
theorem appendReturns_base (h : w.file.svf.entries = pre ++ base :: rest) (hne : base.2.data ≠ [])
    (hstop : fpos ≤ base.1 + base.2.data.length)
    (hahead : Ahead (base.1 + base.2.data.length) rest) (hfit : fpos + data.length < 2 ^ 64)
    (hbytes : w.file.bytesTotal < 2 ^ 64)
    (htrip : w.file.config.compareForDiff = true → ∀ next ∈ rest,
      ¬ TripsAt (base.1 + base.2.data.length) (data.drop (base.1 + base.2.data.length - fpos))
        base.2.data next) :
    AppendReturns w pre base.1 base.2 (base.1 + base.2.data.length)
      (data.drop (base.1 + base.2.data.length - fpos)) rest
      (appendLoop base.1 rest (data.drop (base.1 + base.2.data.length - fpos))
        (base.1 + base.2.data.length) w) := by
  rcases Nat.lt_or_ge (base.1 + base.2.data.length) (2 ^ 64) with hwithin | hwraps
  · have hreach : base.1 + base.2.data.length +
        (data.drop (base.1 + base.2.data.length - fpos)).length < 2 ^ 64 := by
      rw [List.length_drop]
      omega
    exact appendLoop_returns h hne hahead hreach hbytes htrip
  · have hdrop : data.drop (base.1 + base.2.data.length - fpos) = [] :=
      List.drop_of_length_le (by omega)
    rw [hdrop]
    exact appendReturns_nil h hahead hbytes

theorem writeAppendNewToOld_grown (h : w.file.svf.entries = pre ++ base :: rest)
    (hdata : data ≠ []) (hne : base.2.data ≠ []) (hbase : base.1 ≤ fpos)
    (hstop : fpos ≤ base.1 + base.2.data.length) (hsize : base.2.data.length < 2 ^ 64)
    (hahead : Ahead (base.1 + base.2.data.length) rest) (hfit : fpos + data.length < 2 ^ 64)
    (hbytes : w.file.bytesTotal < 2 ^ 64)
    (hbaseTrip : w.file.config.compareForDiff = true → ¬ BaseTrips fpos data base)
    (htrip : w.file.config.compareForDiff = true → ∀ next ∈ rest,
      ¬ TripsAt (base.1 + base.2.data.length) (data.drop (base.1 + base.2.data.length - fpos))
        base.2.data next) :
    Grown w fpos data pre base rest (w.writeAppendNewToOld fpos data base rest) := by
  have hcheck := checkBase_returns (w := w) hdata hbase hbaseTrip
  obtain ⟨hresult, hframe, ⟨remaining, hsuffix, hremaining, hentries⟩, ⟨added, hadded, hsum⟩, hsound⟩ :=
    appendReturns_base (w := (checkBase fpos data base w).world) (by rw [checkBase_file]; exact h) hne
      hstop hahead hfit (by rw [checkBase_file]; exact hbytes) (by rw [checkBase_file]; exact htrip)
  have hframe : Frame w _ := (Frame.of_file_eq checkBase_file).trans hframe
  rw [writeAppendNewToOld_eq hbase hstop hsize (by omega) (by omega), Outcome.bind_of_ok hcheck,
    Outcome.bind_of_ok hresult]
  rw [checkBase_file] at hadded
  refine ⟨⟨rfl, ?_, ?_, added, hadded, ?_⟩, ⟨remaining, hsuffix, hremaining, ?_⟩, fun hwithin hdiff hq => ?_⟩
  · have hfile := hframe
    unfold Frame at hfile
    simp only [Outcome.returned_world, emit_file, touch]
    rw [hfile]
  · show segmentsOf _ = _
    rw [Outcome.returned_world, emit_file, touch_cut hentries]
    simp [hremaining]
  · show _ + Segments.total (segmentsOf w.file.svf.entries) = _
    rw [h]
    simp only [segmentsOf_append, segmentsOf_cons, Segments.total_append, Segments.total_cons,
      List.length_append]
    omega
  · rw [Outcome.returned_world, emit_file, touch_cut hentries, hframe.blockTouch]
    rfl
  · have hquiet : Quiet (base.1 + base.2.data.length) (data.drop (base.1 + base.2.data.length - fpos))
        rest (checkBase fpos data base w).world := by
      refine ⟨hq.1, ?_⟩
      rw [checkBase_file]
      exact hq.2
    have hlog := (sound_checkBase hdata hbase hstop hwithin hdiff).trans (hsound hquiet)
    exact SoundLog.emit (hlog.trans (SoundLog.of_log_eq rfl)) rfl

/-- A difference in the first byte written is found before anything is done. -/
theorem writeAppendNewToOld_baseThrows (rest : List (Nat × Val)) (hdata : data ≠ []) (hbase : base.1 ≤ fpos)
    (hstop : fpos ≤ base.1 + base.2.data.length) (hsize : base.2.data.length < 2 ^ 64) (hfpos : fpos < 2 ^ 64)
    (hwithin : base.1 + base.2.data.length < fpos + data.length → base.1 + base.2.data.length < 2 ^ 64)
    (hc : w.file.config.compareForDiff = true) (htrip : BaseTrips fpos data base) :
    (∃ m, (w.writeAppendNewToOld fpos data base rest).result = .error (.diff m)) ∧
      (w.writeAppendNewToOld fpos data base rest).world.file = w.file := by
  obtain ⟨m, hm⟩ := checkBase_throws hdata hbase hc htrip
  rw [writeAppendNewToOld_eq hbase hstop hsize hfpos hwithin, Outcome.bind_of_error hm]
  exact ⟨⟨m, rfl⟩, checkBase_file⟩

/-- What throws later has grown the base block up against the next one, however far the data
goes. -/
theorem writeAppendNewToOld_thrown {e : Exception} (h : w.file.svf.entries = pre ++ base :: rest)
    (hdata : data ≠ []) (hbase : base.1 ≤ fpos) (hstop : fpos ≤ base.1 + base.2.data.length)
    (hwithin : base.1 + base.2.data.length < 2 ^ 64) (hahead : Ahead (base.1 + base.2.data.length) rest)
    (hbaseTrip : ¬ BaseTrips fpos data base)
    (hthrown : (w.writeAppendNewToOld fpos data base rest).result = .error e) :
    ∃ v' next later, (w.writeAppendNewToOld fpos data base rest).world.file.svf.entries =
      pre ++ (base.1, v') :: next :: later ∧ next.1 < 2 ^ 64 ∧ base.1 + v'.data.length = next.1 := by
  have hcheck := checkBase_returns (w := w) hdata hbase fun _ => hbaseTrip
  rw [writeAppendNewToOld_eq hbase hstop (by omega) (by omega) fun _ => hwithin, Outcome.bind_of_ok hcheck]
    at hthrown ⊢
  cases hwalk : (appendLoop base.1 rest (data.drop (base.1 + base.2.data.length - fpos))
    (base.1 + base.2.data.length) (checkBase fpos data base w).world).result with
  | ok left =>
    rw [Outcome.bind_of_ok hwalk] at hthrown
    cases hthrown
  | error _ =>
    rw [Outcome.bind_of_error hwalk]
    exact appendLoop_thrown (by rw [checkBase_file]; exact h) rfl hahead hwalk

/-- A difference found by the walk is thrown. -/
theorem writeAppendNewToOld_throws (h : w.file.svf.entries = pre ++ base :: rest)
    (hdata : data ≠ []) (hne : base.2.data ≠ []) (hbase : base.1 ≤ fpos)
    (hstop : fpos ≤ base.1 + base.2.data.length) (hwithin : base.1 + base.2.data.length < 2 ^ 64)
    (hahead : Ahead (base.1 + base.2.data.length) rest) (hfit : fpos + data.length < 2 ^ 64)
    (hc : w.file.config.compareForDiff = true) (hbaseTrip : ¬ BaseTrips fpos data base)
    (htrip : ∃ next ∈ rest, TripsAt (base.1 + base.2.data.length)
      (data.drop (base.1 + base.2.data.length - fpos)) base.2.data next) :
    ∃ m, (w.writeAppendNewToOld fpos data base rest).result = .error (.diff m) := by
  have hcheck := checkBase_returns (w := w) hdata hbase fun _ => hbaseTrip
  have hreach : base.1 + base.2.data.length +
      (data.drop (base.1 + base.2.data.length - fpos)).length < 2 ^ 64 := by
    rw [List.length_drop]
    omega
  obtain ⟨m, hresult⟩ := appendLoop_throws (w := (checkBase fpos data base w).world)
    (by rw [checkBase_file]; exact h) hne hahead hreach (by rw [checkBase_file]; exact hc) htrip
  rw [writeAppendNewToOld_eq hbase hstop (by omega) (by omega) fun _ => hwithin, Outcome.bind_of_ok hcheck,
    Outcome.bind_of_error hresult]
  exact ⟨m, rfl⟩

end Ways

/-! ### Which way -/

end World

/-- Where a write puts a block of its own. -/
inductive SparseVirtualFile.PutsNew (s : SparseVirtualFile) (fpos len : Nat) : Prop where
  | first (hempty : s.svf.entries = [])
  | last (hpast : s.filePositionImmediatlyAfterEnd < fpos)
  /-- In front of all blocks, -/
  | before (iter : Nat × Val) (rest : List (Nat × Val)) (hcut : s.svf.entries = iter :: rest)
    (hlt : fpos < iter.1) (hshort : sizeAdd fpos len < iter.1)
  /-- or beyond the end of the one before it. -/
  | after (pre : List (Nat × Val)) (iter : Nat × Val) (rest : List (Nat × Val))
    (hcut : s.svf.entries = pre ++ iter :: rest) (hle : iter.1 ≤ fpos) (hrest : ∀ next ∈ rest, fpos < next.1)
    (hpast : filePositionImmediatlyAfterBlock iter < fpos)

namespace World

/-- The way a write goes. -/
inductive Way (w : World) (fpos : Nat) (data : List Byte) : Prop where
  | newBlock (heq : w.writeBlocks fpos data = w.writeNewBlock fpos data)
    (hcase : w.file.PutsNew fpos data.length)
  | newAppendOld (iter : Nat × Val) (rest : List (Nat × Val))
    (heq : w.writeBlocks fpos data = w.writeNewAppendOld fpos data (iter :: rest))
    (hcut : w.file.svf.entries = iter :: rest) (hlt : fpos < iter.1)
    (hreach : iter.1 ≤ sizeAdd fpos data.length) (hend : fpos ≤ w.file.filePositionImmediatlyAfterEnd)
  | appendNewToOld (pre : List (Nat × Val)) (iter : Nat × Val) (rest : List (Nat × Val))
    (heq : w.writeBlocks fpos data = w.writeAppendNewToOld fpos data iter rest)
    (hcut : w.file.svf.entries = pre ++ iter :: rest) (hle : iter.1 ≤ fpos)
    (hrest : ∀ next ∈ rest, fpos < next.1) (hstop : fpos ≤ filePositionImmediatlyAfterBlock iter)
    (hend : fpos ≤ w.file.filePositionImmediatlyAfterEnd)

/-- Past the end the file seems to have, a write is a new block. -/
theorem writeBlocks_past {w : World} {fpos : Nat} (data : List Byte)
    (hpast : w.file.filePositionImmediatlyAfterEnd < fpos) :
    w.writeBlocks fpos data = w.writeNewBlock fpos data := by
  rw [writeBlocks, if_pos]
  simp [hpast]

/-- The block a write falls on ends within the `size_t` range, or the write would
not have fallen on it. -/
theorem within_of_reached {fpos : Nat} {base : Nat × Val} (hsize : base.2.data.length < 2 ^ 64) (hle : base.1 ≤ fpos)
    (hfpos : fpos < 2 ^ 64) (hstop : fpos ≤ filePositionImmediatlyAfterBlock base) :
    base.1 + base.2.data.length < 2 ^ 64 ∧ fpos ≤ base.1 + base.2.data.length := by
  rcases Nat.lt_or_ge (base.1 + base.2.data.length) (2 ^ 64) with hlt | hge
  · rw [filePositionImmediatlyAfterBlock_of_lt hlt] at hstop
    exact ⟨hlt, hstop⟩
  · have hwrap : filePositionImmediatlyAfterBlock base = base.1 + base.2.data.length - 2 ^ 64 :=
      Wrap.add_of_ge (by omega) hsize hge
    omega

/-- Every write goes one of these ways, whatever the state of the map. -/
theorem writeBlocks_cases (fpos : Nat) (data : List Byte) (w : World) : Way w fpos data := by
  by_cases hfirst : w.file.svf.isEmpty || decide (w.file.filePositionImmediatlyAfterEnd < fpos)
  · refine .newBlock (by rw [writeBlocks, if_pos hfirst]) ?_
    simp only [Bool.or_eq_true, decide_eq_true_eq, OrderedMap.isEmpty_iff] at hfirst
    exact hfirst.elim .first .last
  · have hend : fpos ≤ w.file.filePositionImmediatlyAfterEnd ∧ w.file.svf.entries ≠ [] := by
      simp only [Bool.or_eq_true, decide_eq_true_eq, OrderedMap.isEmpty_iff, not_or] at hfirst
      exact ⟨by omega, hfirst.1⟩
    rcases w.file.svf.prev_upperBound fpos with ⟨hcursor, hafter⟩ | ⟨pre, iter, rest, h, hle, hrest, hcursor⟩
    · obtain ⟨iter, rest, h⟩ := List.exists_cons_of_ne_nil hend.2
      have hiter := hafter iter (by rw [h]; exact List.mem_cons_self ..)
      by_cases hreach : iter.1 ≤ sizeAdd fpos data.length
      · refine .newAppendOld iter rest ?_ h hiter hreach hend.1
        rw [writeBlocks, if_neg hfirst, hcursor]
        simp only [h, if_pos hiter, if_pos hreach]
      · refine .newBlock ?_ (.before iter rest h hiter (by omega))
        rw [writeBlocks, if_neg hfirst, hcursor]
        simp only [h, if_pos hiter, if_neg hreach]
    · by_cases hpast : filePositionImmediatlyAfterBlock iter < fpos
      · refine .newBlock ?_ (.after pre iter rest h hle hrest hpast)
        rw [writeBlocks, if_neg hfirst, hcursor]
        simp only [if_neg (not_lt.mpr hle), if_pos hpast]
      · refine .appendNewToOld pre iter rest ?_ h hle hrest (by omega) hend.1
        rw [writeBlocks, if_neg hfirst, hcursor]
        simp only [if_neg (not_lt.mpr hle), if_neg hpast]

end World
end Svfs
