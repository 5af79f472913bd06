import Svfs.Write.Steps

/-! Growing a block over the blocks that follow it.

The walk of `_write_append_new_to_old` either throws at the first block it trips
on, or ends with the base block grown by exactly what `Segments.absorb` says
(`appendLoop_returns`). When it throws it has grown the base block up to the block
it tripped on, which stays where it was (`appendLoop_thrown`). -/
namespace Svfs
namespace World

/-- The walk trips on a block it reaches: there is a difference in the part
written over, and the byte at the block's start is not the one probed. -/
def TripsAt (fpos : Nat) (newData probed : List Byte) (next : Nat × Val) : Prop :=
  next.1 < fpos + newData.length ∧
    Trips (newData.drop (next.1 - fpos)) next.2.data 0
      (min (newData.length - (next.1 - fpos)) next.2.data.length) probed 0

/-- There is a difference in the part of a block written over. -/
def DiffersAt (fpos : Nat) (newData : List Byte) (next : Nat × Val) : Prop :=
  next.1 < fpos + newData.length ∧
    memcmpDiffers next.2.data 0 (min (newData.length - (next.1 - fpos)) next.2.data.length)
      (newData.drop (next.1 - fpos)) = true

theorem TripsAt.differs {fpos : Nat} {newData probed : List Byte} {next : Nat × Val}
    (h : TripsAt fpos newData probed next) : DiffersAt fpos newData next :=
  ⟨h.1, h.2.1⟩

section Advance
variable {fpos fpos' : Nat} {newData probed : List Byte} {next : Nat × Val}

/-- How far the walk has come does not matter for the blocks ahead of it. -/
theorem tripsAt_advance (h : fpos ≤ fpos') (hnext : fpos' ≤ next.1) :
    TripsAt fpos' (newData.drop (fpos' - fpos)) probed next ↔ TripsAt fpos newData probed next := by
  unfold TripsAt
  rw [List.drop_drop, List.length_drop, show fpos' - fpos + (next.1 - fpos') = next.1 - fpos by omega,
    show newData.length - (fpos' - fpos) - (next.1 - fpos') = newData.length - (next.1 - fpos) by omega]
  exact and_congr_left fun _ => by omega

theorem differsAt_advance (h : fpos ≤ fpos') (hnext : fpos' ≤ next.1) :
    DiffersAt fpos' (newData.drop (fpos' - fpos)) next ↔ DiffersAt fpos newData next := by
  unfold DiffersAt
  rw [List.drop_drop, List.length_drop, show fpos' - fpos + (next.1 - fpos') = next.1 - fpos by omega,
    show newData.length - (fpos' - fpos) - (next.1 - fpos') = newData.length - (next.1 - fpos) by omega]
  exact and_congr_left fun _ => by omega

end Advance

/-- What the walks need of the blocks ahead: positions and sizes are `size_t`
values, and the blocks are separated and lie beyond the walk. -/
structure Ahead (fpos : Nat) (rest : List (Nat × Val)) : Prop where
  beyond : ∀ next ∈ rest, fpos < next.1
  position : ∀ next ∈ rest, next.1 < 2 ^ 64
  size : ∀ next ∈ rest, next.2.data.length < 2 ^ 64
  separated : Segments.Separated (segmentsOf rest)

/-- The blocks after the first one ahead begin past its end. -/
theorem Ahead.later {fpos : Nat} {next : Nat × Val} {rest : List (Nat × Val)}
    (h : Ahead fpos (next :: rest)) : ∀ t ∈ rest, next.1 + next.2.data.length < t.1 := by
  obtain ⟨_, hrest, _⟩ := Segments.separated_cons.mp h.separated
  exact fun t ht => hrest _ (mem_segmentsOf.mpr ⟨t, ht, rfl⟩)

theorem Ahead.head_le {fpos : Nat} {next t : Nat × Val} {rest : List (Nat × Val)}
    (h : Ahead fpos (next :: rest)) (ht : t ∈ next :: rest) : next.1 ≤ t.1 := by
  rcases List.mem_cons.mp ht with rfl | ht
  · exact le_refl _
  · exact (Nat.le_add_right ..).trans (h.later t ht).le

/-- Past the first block ahead. -/
theorem Ahead.tail {fpos fpos' : Nat} {next : Nat × Val} {rest : List (Nat × Val)}
    (h : Ahead fpos (next :: rest)) (hfpos' : fpos' ≤ next.1 + next.2.data.length) :
    Ahead fpos' rest :=
  ⟨fun t ht => hfpos'.trans_lt (h.later t ht), fun t ht => h.position t (List.mem_cons_of_mem _ ht),
    fun t ht => h.size t (List.mem_cons_of_mem _ ht), (Segments.separated_cons.mp h.separated).2.2⟩

/-- No difference within blocks that fit: nothing was logged to complain about. -/
def Quiet (fpos : Nat) (newData : List Byte) (rest : List (Nat × Val)) (w : World) : Prop :=
  (∀ next ∈ rest, next.1 + next.2.data.length < 2 ^ 64) ∧
    (w.file.config.compareForDiff = true → ∀ next ∈ rest, ¬ DiffersAt fpos newData next)

/-! ### One block of the walk -/

section Step
variable {w : World} {pre rest : List (Nat × Val)} {base fpos : Nat} {v : Val}
  {newData : List Byte} {next : Nat × Val}

@[simp] theorem appendLoop_nil_data (base : Nat) (rest : List (Nat × Val)) (fpos : Nat)
    (w : World) : appendLoop base rest [] fpos w = .returned [] w := by
  cases rest <;> rfl

theorem appendLoop_last (hdata : newData ≠ []) : appendLoop base [] newData fpos w =
    .returned [] ((w.pushBack base newData).addBytes newData.length) := by
  simp [appendLoop, hdata]

/-- The data ends before the next block. -/
theorem appendLoop_short (hdata : newData ≠ []) (hfit : fpos + newData.length < 2 ^ 64)
    (hshort : fpos + newData.length < next.1) : appendLoop base (next :: rest) newData fpos w =
      .returned [] ((w.pushBack base newData).addBytes newData.length) := by
  have htake : newData.take (next.1 - fpos) = newData := List.take_of_length_le (by omega)
  have hdrop : newData.drop (next.1 - fpos) = [] := List.drop_of_length_le (by omega)
  have hsum : sizeAdd fpos newData.length = fpos + newData.length := Wrap.add_of_lt hfit
  simp only [appendLoop, htake, hdrop, hsum]
  simp [hdata, hshort]

/-- Up against the next block. -/
def upTo (base fpos : Nat) (newData : List Byte) (next : Nat × Val) (w : World) : World :=
  (((w.pushBack base (newData.take (next.1 - fpos))).addBytes (next.1 - fpos)).emit
    (.subtract (filePositionImmediatlyAfterBlock next) next.1))

/-- The comparison with the next block. -/
def checkNext (base fpos : Nat) (newData : List Byte) (next : Nat × Val) (w : World) :
    Outcome Unit :=
  let left := newData.drop (next.1 - fpos)
  let len := min left.length next.2.data.length
  if len = 0 then .returned () (w.upTo base fpos newData next)
  else diffCheck next.1 left next.2.data 0 len ((w.upTo base fpos newData next).blockData base) 0
    (w.upTo base fpos newData next)

/-- What the base block takes over at the next block once they compared equal. -/
def takeNext (base fpos : Nat) (newData : List Byte) (next : Nat × Val) (w : World) : World :=
  let left := newData.drop (next.1 - fpos)
  let len := min left.length next.2.data.length
  let w := w.pushBack base (left.take len)
  let w :=
    if (left.drop len).isEmpty then
      (w.emit (.copy next.2.data.length len (next.2.data.length - len))).pushBack base
        (next.2.data.drop len)
    else w
  w.swallow next.1

/-- The walk reaches the next block: it compares, takes over and goes on. -/
theorem appendLoop_reach (hdata : newData ≠ []) (hbeyond : fpos ≤ next.1) (hposition : next.1 < 2 ^ 64)
    (hsize : next.2.data.length < 2 ^ 64) (hreach : next.1 ≤ fpos + newData.length) :
    appendLoop base (next :: rest) newData fpos w =
      (checkNext base fpos newData next w).bind fun _ w' =>
        appendLoop base rest
          (newData.drop (next.1 - fpos + min (newData.length - (next.1 - fpos)) next.2.data.length))
          (sizeAdd next.1 (min (newData.length - (next.1 - fpos)) next.2.data.length))
          (takeNext base fpos newData next w') := by
  have hne := List.isEmpty_eq_false_iff.mpr hdata
  have hgap : (newData.take (next.1 - fpos)).length = next.1 - fpos := by
    rw [List.length_take]
    omega
  have hfpos : sizeAdd fpos (next.1 - fpos) = next.1 := by
    rw [sizeAdd, Wrap.add_of_lt (by omega)]
    omega
  have hafter : sizeSub (filePositionImmediatlyAfterBlock next) next.1 = next.2.data.length :=
    Wrap.sub_add_cancel hposition hsize
  simp only [appendLoop, hne, hgap, hfpos, hafter, Bool.false_eq_true, if_false, lt_irrefl,
    decide_false, Bool.and_false, checkNext, upTo, takeNext, List.drop_drop, List.length_drop]

theorem checkNext_file : (checkNext base fpos newData next w).world.file =
    (w.upTo base fpos newData next).file := by
  unfold checkNext
  dsimp only
  split
  · rfl
  · exact diffCheck_file

theorem upTo_cut (h : w.file.svf.entries = pre ++ (base, v) :: rest) :
    (w.upTo base fpos newData next).file.svf.entries =
      pre ++ (base, v.pushBack (newData.take (next.1 - fpos))) :: rest :=
  pushBack_cut h _

theorem checkNext_throws (h : w.file.svf.entries = pre ++ (base, v) :: next :: rest)
    (hv : v.data ≠ []) (hc : w.file.config.compareForDiff = true)
    (htrip : TripsAt fpos newData v.data next) :
    ∃ m, (checkNext base fpos newData next w).result = .error (.diff m) := by
  obtain ⟨hlt, hdiff, given, held, hgiven, hheld, hne⟩ := htrip
  have hprobe : (v.data ++ newData.take (next.1 - fpos))[0]? = some held := by
    rw [List.getElem?_append_left (List.length_pos_iff.mpr hv), hheld]
  have hlen : min (newData.drop (next.1 - fpos)).length next.2.data.length ≠ 0 := by
    intro hzero
    rw [List.length_drop] at hzero
    rw [memcmpDiffers_iff] at hdiff
    obtain ⟨i, hi, _⟩ := hdiff
    omega
  unfold checkNext
  dsimp only
  rw [if_neg hlen, blockData_cut (upTo_cut h)]
  refine diffCheck_throws hc ⟨by rwa [List.length_drop], given, held, hgiven, hprobe, hne⟩

theorem checkNext_returns (h : w.file.svf.entries = pre ++ (base, v) :: next :: rest)
    (hv : v.data ≠ []) (htrip : w.file.config.compareForDiff = true → ¬ TripsAt fpos newData v.data next) :
    (checkNext base fpos newData next w).result = .ok () := by
  unfold checkNext
  dsimp only
  split
  · rfl
  · rename_i hlen
    rw [blockData_cut (upTo_cut h)]
    refine diffCheck_returns fun hc ⟨hdiff, given, held, hgiven, hheld, hne⟩ => htrip hc ?_
    rw [Val.pushBack_data, List.getElem?_append_left (List.length_pos_iff.mpr hv)] at hheld
    rw [List.length_drop] at hlen hdiff
    exact ⟨by omega, hdiff, given, held, hgiven, hheld, hne⟩

theorem checkNext_sound (hsize : next.1 + next.2.data.length < 2 ^ 64)
    (hdiff : w.file.config.compareForDiff = true → ¬ DiffersAt fpos newData next) :
    SoundLog w (checkNext base fpos newData next w).world := by
  have hupTo : SoundLog w (w.upTo base fpos newData next) := by
    refine SoundLog.emit (SoundLog.of_log_eq rfl) ?_
    show next.1 ≤ filePositionImmediatlyAfterBlock next
    rw [filePositionImmediatlyAfterBlock, sizeAdd, Wrap.add_of_lt hsize]
    omega
  unfold checkNext
  dsimp only
  split
  · exact hupTo
  · rename_i hlen
    refine hupTo.trans (diffCheck_sound (by omega) fun hc => ?_)
    rw [List.length_drop] at hlen ⊢
    exact Bool.eq_false_iff.mpr fun h => hdiff hc ⟨by omega, h⟩

/-- Taking over a block the data ends in, or at: the base block gets the rest of
the data and the overhang. -/
theorem takeNext_ends (h : w.file.svf.entries = pre ++ (base, v) :: next :: rest)
    (hends : newData.length - (next.1 - fpos) ≤ next.2.data.length) :
    (takeNext base fpos newData next w).file.svf.entries =
      pre ++ (base, v.pushBack (newData.drop (next.1 - fpos) ++
        next.2.data.drop (newData.length - (next.1 - fpos)))) :: rest := by
  have hlen : min (newData.drop (next.1 - fpos)).length next.2.data.length =
      (newData.drop (next.1 - fpos)).length := by
    rw [List.length_drop]
    omega
  have hpush := pushBack_cut (w := (w.pushBack base (newData.drop (next.1 - fpos))).emit
    (.copy next.2.data.length (newData.drop (next.1 - fpos)).length
      (next.2.data.length - (newData.drop (next.1 - fpos)).length)))
    (pushBack_cut h (newData.drop (next.1 - fpos)))
    (next.2.data.drop (newData.drop (next.1 - fpos)).length)
  rw [Val.pushBack_pushBack, List.append_cons] at hpush
  unfold takeNext
  dsimp only
  rw [hlen, List.take_length, List.drop_length, List.isEmpty_nil, if_pos rfl, swallow_cut hpush,
    List.length_drop, List.append_assoc, List.singleton_append]

/-- Passing over a block: the base block gets the data written over it. -/
theorem takeNext_passes (h : w.file.svf.entries = pre ++ (base, v) :: next :: rest)
    (hpasses : next.2.data.length < newData.length - (next.1 - fpos)) :
    (takeNext base fpos newData next w).file.svf.entries =
      pre ++ (base, v.pushBack ((newData.drop (next.1 - fpos)).take next.2.data.length)) :: rest := by
  have hlen : min (newData.drop (next.1 - fpos)).length next.2.data.length =
      next.2.data.length := by
    rw [List.length_drop]
    omega
  have hmore : ((newData.drop (next.1 - fpos)).drop next.2.data.length).isEmpty = false := by
    rw [List.isEmpty_eq_false_iff, List.ne_nil_iff_length_pos, List.length_drop, List.length_drop]
    omega
  have hpush := pushBack_cut h ((newData.drop (next.1 - fpos)).take next.2.data.length)
  rw [List.append_cons] at hpush
  unfold takeNext
  dsimp only
  rw [hlen, hmore, if_neg (by simp), swallow_cut hpush, List.append_assoc, List.singleton_append]

theorem frame_takeNext : Frame w (takeNext base fpos newData next w) := by
  unfold takeNext
  dsimp only
  refine Frame.trans ?_ (frame_swallow _ _)
  split <;> rfl

@[simp] theorem takeNext_bytesTotal :
    (takeNext base fpos newData next w).file.bytesTotal = w.file.bytesTotal := by
  unfold takeNext
  dsimp only
  rw [swallow_bytesTotal]
  split <;> rfl

theorem sound_takeNext : SoundLog w (takeNext base fpos newData next w) := by
  unfold takeNext
  dsimp only
  refine SoundLog.trans ?_ (sound_swallow _ _)
  split
  · refine ⟨[_], rfl, fun e he => ?_⟩
    rw [List.mem_singleton.mp he]
    show min _ _ + (_ - min _ _) ≤ _
    omega
  · exact SoundLog.of_log_eq rfl

/-- The world once the next block was compared with and taken over. -/
def afterNext (base fpos : Nat) (newData : List Byte) (next : Nat × Val) (w : World) : World :=
  takeNext base fpos newData next (checkNext base fpos newData next w).world

theorem checkNext_cut (h : w.file.svf.entries = pre ++ (base, v) :: rest) :
    (checkNext base fpos newData next w).world.file.svf.entries =
      pre ++ (base, v.pushBack (newData.take (next.1 - fpos))) :: rest := by
  rw [checkNext_file]
  exact upTo_cut h

theorem frame_checkNext : Frame w (checkNext base fpos newData next w).world := by
  unfold Frame
  rw [checkNext_file]
  rfl

theorem frame_afterNext : Frame w (afterNext base fpos newData next w) :=
  frame_checkNext.trans frame_takeNext

theorem afterNext_bytesTotal : (afterNext base fpos newData next w).file.bytesTotal =
    sizeAdd w.file.bytesTotal (next.1 - fpos) := by
  rw [afterNext, takeNext_bytesTotal, checkNext_file]
  rfl

theorem sound_afterNext (hsize : next.1 + next.2.data.length < 2 ^ 64)
    (hdiff : w.file.config.compareForDiff = true → ¬ DiffersAt fpos newData next) :
    SoundLog w (afterNext base fpos newData next w) :=
  (checkNext_sound hsize hdiff).trans sound_takeNext

theorem checkNext_inBuffers (h : w.file.svf.entries = pre ++ (base, v) :: next :: rest) (hv : v.data ≠ [])
    (hlog : w.LogInBuffers) : (checkNext base fpos newData next w).world.LogInBuffers := by
  have hupTo : (w.upTo base fpos newData next).LogInBuffers := LogInBuffers.subtract (hlog.of_log_eq rfl) _ _
  unfold checkNext
  dsimp only
  split
  · exact hupTo
  · apply hupTo.diffCheck
    · omega
    · intro _
      rw [blockData_cut (upTo_cut h), Val.pushBack_data, List.length_append]
      have := List.length_pos_iff.mpr hv
      omega

theorem afterNext_inBuffers (h : w.file.svf.entries = pre ++ (base, v) :: next :: rest) (hv : v.data ≠ [])
    (hlog : w.LogInBuffers) : (afterNext base fpos newData next w).LogInBuffers :=
  (checkNext_inBuffers h hv hlog).of_sound sound_takeNext

theorem afterNext_passes (h : w.file.svf.entries = pre ++ (base, v) :: next :: rest)
    (hbeyond : fpos ≤ next.1) (hpasses : next.1 + next.2.data.length < fpos + newData.length) :
    (afterNext base fpos newData next w).file.svf.entries =
      pre ++ (base, v.pushBack (newData.take (next.1 + next.2.data.length - fpos))) :: rest := by
  rw [afterNext, takeNext_passes (checkNext_cut h) (by omega), Val.pushBack_pushBack, ← List.take_add,
    show next.1 - fpos + next.2.data.length = next.1 + next.2.data.length - fpos by omega]

theorem afterNext_ends (h : w.file.svf.entries = pre ++ (base, v) :: next :: rest)
    (hbeyond : fpos ≤ next.1) (hreach : next.1 ≤ fpos + newData.length)
    (hends : fpos + newData.length ≤ next.1 + next.2.data.length) :
    (afterNext base fpos newData next w).file.svf.entries =
      pre ++ (base, v.pushBack (newData ++ next.2.data.drop (fpos + newData.length - next.1))) :: rest := by
  rw [afterNext, takeNext_ends (checkNext_cut h) (by omega), Val.pushBack_pushBack,
    ← List.append_assoc, List.take_append_drop,
    show newData.length - (next.1 - fpos) = fpos + newData.length - next.1 by omega]

/-- The data goes on past the next block. -/
theorem appendLoop_passes (hbeyond : fpos ≤ next.1) (hfit : fpos + newData.length < 2 ^ 64)
    (hpasses : next.1 + next.2.data.length < fpos + newData.length)
    (hcheck : (checkNext base fpos newData next w).result = .ok ()) :
    appendLoop base (next :: rest) newData fpos w =
      appendLoop base rest (newData.drop (next.1 + next.2.data.length - fpos))
        (next.1 + next.2.data.length) (afterNext base fpos newData next w) := by
  have hdata : newData ≠ [] := List.ne_nil_of_length_pos (by omega)
  rw [appendLoop_reach hdata hbeyond (by omega) (by omega) (by omega), Outcome.bind_of_ok hcheck,
    show min (newData.length - (next.1 - fpos)) next.2.data.length = next.2.data.length by omega,
    sizeAdd_of_lt (by omega),
    show next.1 - fpos + next.2.data.length = next.1 + next.2.data.length - fpos by omega]
  rfl

/-- The data ends in the next block, or at its end. -/
theorem appendLoop_ends (hdata : newData ≠ []) (hbeyond : fpos ≤ next.1) (hposition : next.1 < 2 ^ 64)
    (hsize : next.2.data.length < 2 ^ 64) (hreach : next.1 ≤ fpos + newData.length)
    (hends : fpos + newData.length ≤ next.1 + next.2.data.length)
    (hcheck : (checkNext base fpos newData next w).result = .ok ()) :
    appendLoop base (next :: rest) newData fpos w =
      .returned [] (afterNext base fpos newData next w) := by
  rw [appendLoop_reach hdata hbeyond hposition hsize hreach, Outcome.bind_of_ok hcheck,
    List.drop_of_length_le (by omega), appendLoop_nil_data]
  rfl

end Step

/-! ### The walk -/

/-- How a walk that does not throw ends: the base block has grown by what it
absorbed, and the blocks `remaining` are still there. -/
structure AppendReturns (w : World) (pre : List (Nat × Val)) (base : Nat) (v : Val)
    (fpos : Nat) (newData : List Byte) (rest : List (Nat × Val)) (o : Outcome (List Byte)) : Prop where
  result : o.result = .ok []
  frame : Frame w o.world
  blocks : ∃ remaining, remaining.IsSuffix rest ∧
    segmentsOf remaining = (Segments.absorb fpos newData (segmentsOf rest)).2 ∧
    o.world.file.svf.entries =
      pre ++ (base, v.pushBack (Segments.absorb fpos newData (segmentsOf rest)).1) :: remaining
  bytes : ∃ added, o.world.file.bytesTotal = sizeAdd w.file.bytesTotal added ∧
    added + Segments.total (segmentsOf rest) =
      (Segments.absorb fpos newData (segmentsOf rest)).1.length +
        Segments.total (Segments.absorb fpos newData (segmentsOf rest)).2
  sound : Quiet fpos newData rest w → SoundLog w o.world

section Walk
variable {pre : List (Nat × Val)} {base : Nat}

theorem tripsAt_append {fpos : Nat} {newData probed : List Byte} {next : Nat × Val}
    (hprobed : probed ≠ []) (more : List Byte) :
    TripsAt fpos newData (probed ++ more) next ↔ TripsAt fpos newData probed next := by
  unfold TripsAt Trips
  rw [List.getElem?_append_left (List.length_pos_iff.mpr hprobed)]

/-- The blocks ahead of the walk once it passed one: it is as far from tripping on
them as it was, -/
theorem Ahead.tripsAt_iff {fpos : Nat} {newData probed : List Byte} {next t : Nat × Val}
    {rest : List (Nat × Val)} (h : Ahead fpos (next :: rest)) (ht : t ∈ rest) :
    TripsAt (next.1 + next.2.data.length) (newData.drop (next.1 + next.2.data.length - fpos)) probed t ↔
      TripsAt fpos newData probed t := by
  have hbeyond := h.beyond next (List.mem_cons_self ..)
  exact tripsAt_advance (by omega) (h.later t ht).le

/-- and as far from differing from them. -/
theorem Ahead.differsAt_iff {fpos : Nat} {newData : List Byte} {next t : Nat × Val}
    {rest : List (Nat × Val)} (h : Ahead fpos (next :: rest)) (ht : t ∈ rest) :
    DiffersAt (next.1 + next.2.data.length) (newData.drop (next.1 + next.2.data.length - fpos)) t ↔
      DiffersAt fpos newData t := by
  have hbeyond := h.beyond next (List.mem_cons_self ..)
  exact differsAt_advance (by omega) (h.later t ht).le

section Turn
variable {next : Nat × Val} {rest : List (Nat × Val)} {newData : List Byte} {fpos : Nat} {v : Val} {w : World}

/-- With no data left the walk is over. -/
theorem appendReturns_nil (h : w.file.svf.entries = pre ++ (base, v) :: rest) (hahead : Ahead fpos rest)
    (hbytes : w.file.bytesTotal < 2 ^ 64) :
    AppendReturns w pre base v fpos [] rest (appendLoop base rest [] fpos w) := by
  have habsorb : Segments.absorb fpos [] (segmentsOf rest) = ([], segmentsOf rest) := by
    apply Segments.absorb_of_lt
    intro s hs
    obtain ⟨next, hnext, rfl⟩ := mem_segmentsOf.mp hs
    exact hahead.beyond next hnext
  rw [appendLoop_nil_data]
  refine ⟨rfl, .refl w, ⟨rest, List.suffix_refl _, by rw [habsorb], ?_⟩,
    ⟨0, (sizeAdd_zero hbytes).symm, by rw [habsorb]; rfl⟩, fun _ => .refl w⟩
  rw [habsorb, Val.pushBack_nil]
  exact h

/-- Data that ends short of the next block is all appended. -/
theorem appendReturns_short (h : w.file.svf.entries = pre ++ (base, v) :: next :: rest)
    (hdata : newData ≠ []) (hfit : fpos + newData.length < 2 ^ 64)
    (hshort : fpos + newData.length < next.1) :
    AppendReturns w pre base v fpos newData (next :: rest)
      (appendLoop base (next :: rest) newData fpos w) := by
  have habsorb : Segments.absorb fpos newData (segmentsOf (next :: rest)) =
      (newData, segmentsOf (next :: rest)) := Segments.absorb_cons_of_lt hshort
  rw [appendLoop_short hdata hfit hshort]
  refine ⟨rfl, rfl, ⟨_, List.suffix_refl _, by rw [habsorb], ?_⟩,
    ⟨newData.length, rfl, by rw [habsorb]⟩, fun _ => SoundLog.of_log_eq rfl⟩
  rw [habsorb]
  exact pushBack_cut h newData

/-- A block that is checked before it is taken is quiet. -/
theorem Quiet.afterNext (hq : Quiet fpos newData (next :: rest) w) :
    SoundLog w (afterNext base fpos newData next w) :=
  sound_afterNext (hq.1 next (List.mem_cons_self ..)) fun hc => hq.2 hc next (List.mem_cons_self ..)

/-- Data that ends in the next block takes that one along. -/
theorem appendReturns_ends (h : w.file.svf.entries = pre ++ (base, v) :: next :: rest)
    (hahead : Ahead fpos (next :: rest)) (hreach : next.1 ≤ fpos + newData.length)
    (hends : fpos + newData.length ≤ next.1 + next.2.data.length)
    (hcheck : (checkNext base fpos newData next w).result = .ok ()) :
    AppendReturns w pre base v fpos newData (next :: rest)
      (appendLoop base (next :: rest) newData fpos w) := by
  have hbeyond := hahead.beyond next (List.mem_cons_self ..)
  have hposition := hahead.position next (List.mem_cons_self ..)
  have hsize := hahead.size next (List.mem_cons_self ..)
  have habsorb : Segments.absorb fpos newData (segmentsOf (next :: rest)) =
      (newData ++ next.2.data.drop (fpos + newData.length - next.1), segmentsOf rest) :=
    Segments.absorb_cons_of_ends hreach hends (Segments.separated_cons.mp hahead.separated).2.1
  rw [appendLoop_ends (List.ne_nil_of_length_pos (by omega)) hbeyond.le hposition hsize hreach hends hcheck]
  refine ⟨rfl, frame_afterNext, ⟨rest, List.suffix_cons .., by rw [habsorb], ?_⟩,
    ⟨next.1 - fpos, afterNext_bytesTotal, ?_⟩, fun hq => hq.afterNext⟩
  · rw [habsorb]
    exact afterNext_ends h hbeyond.le hreach hends
  · rw [habsorb, segmentsOf_cons, Segments.total_cons, List.length_append, List.length_drop]
    simp only
    omega

/-- Data that goes on past the next block takes it along, and the walk goes on from its end. -/
theorem AppendReturns.passes {o : Outcome (List Byte)} (hahead : Ahead fpos (next :: rest))
    (hpasses : next.1 + next.2.data.length < fpos + newData.length)
    (hwalk : AppendReturns (afterNext base fpos newData next w) pre base
      (v.pushBack (newData.take (next.1 + next.2.data.length - fpos))) (next.1 + next.2.data.length)
      (newData.drop (next.1 + next.2.data.length - fpos)) rest o) :
    AppendReturns w pre base v fpos newData (next :: rest) o := by
  have hbeyond := hahead.beyond next (List.mem_cons_self ..)
  obtain ⟨hresult, hframe, ⟨remaining, hsuffix, hremaining, hentries⟩, ⟨added, hadded, hsum⟩, hsound⟩ :=
    hwalk
  have habsorb : Segments.absorb fpos newData (segmentsOf (next :: rest)) =
      (newData.take (next.1 + next.2.data.length - fpos) ++
          (Segments.absorb (next.1 + next.2.data.length)
            (newData.drop (next.1 + next.2.data.length - fpos)) (segmentsOf rest)).1,
        (Segments.absorb (next.1 + next.2.data.length)
          (newData.drop (next.1 + next.2.data.length - fpos)) (segmentsOf rest)).2) :=
    Segments.absorb_cons_of_passed (by simp only; omega) (by simp only [Segments.stop_mk]; omega)
      (by simp only [Segments.stop_mk]; omega)
  refine ⟨hresult, frame_afterNext.trans hframe,
    ⟨remaining, hsuffix.trans (List.suffix_cons ..), ?_, ?_⟩,
    ⟨next.1 - fpos + added, ?_, ?_⟩, fun hq => hq.afterNext.trans (hsound ⟨?_, ?_⟩)⟩
  · rw [hremaining, habsorb]
  · rw [hentries, habsorb, Val.pushBack_pushBack]
  · rw [hadded, afterNext_bytesTotal, sizeAdd_assoc]
  · rw [habsorb, segmentsOf_cons, Segments.total_cons, List.length_append, List.length_take]
    simp only
    omega
  · exact fun t ht => hq.1 t (List.mem_cons_of_mem _ ht)
  · intro hc t ht
    rw [frame_afterNext.config] at hc
    rw [hahead.differsAt_iff ht]
    exact hq.2 hc t (List.mem_cons_of_mem _ ht)

end Turn

/-- The walk without a throw. -/
theorem appendLoop_returns {rest : List (Nat × Val)} {newData : List Byte} {fpos : Nat} {v : Val}
    {w : World} (h : w.file.svf.entries = pre ++ (base, v) :: rest) (hv : v.data ≠ [])
    (hahead : Ahead fpos rest) (hfit : fpos + newData.length < 2 ^ 64)
    (hbytes : w.file.bytesTotal < 2 ^ 64)
    (htrip : w.file.config.compareForDiff = true →
      ∀ next ∈ rest, ¬ TripsAt fpos newData v.data next) :
    AppendReturns w pre base v fpos newData rest (appendLoop base rest newData fpos w) := by
  induction rest generalizing newData fpos v w with
  | nil =>
    by_cases hdata : newData = []
    · subst hdata
      exact appendReturns_nil h hahead hbytes
    · rw [appendLoop_last hdata]
      exact ⟨rfl, rfl, ⟨[], List.suffix_refl _, rfl, pushBack_cut h newData⟩,
        ⟨newData.length, rfl, rfl⟩, fun _ => SoundLog.of_log_eq rfl⟩
  | cons next rest ih =>
    have hbeyond := hahead.beyond next (List.mem_cons_self ..)
    rcases Nat.lt_or_ge (fpos + newData.length) next.1 with hshort | hreach
    · by_cases hdata : newData = []
      · subst hdata
        exact appendReturns_nil h hahead hbytes
      · exact appendReturns_short h hdata hfit hshort
    · have hcheck := checkNext_returns h hv
        fun hc => htrip hc next (List.mem_cons_self ..)
      rcases Nat.lt_or_ge (next.1 + next.2.data.length) (fpos + newData.length) with hpasses | hends
      · have hfit' : next.1 + next.2.data.length +
            (newData.drop (next.1 + next.2.data.length - fpos)).length < 2 ^ 64 := by
          rw [List.length_drop]
          omega
        rw [appendLoop_passes hbeyond.le hfit hpasses hcheck]
        refine .passes hahead hpasses (ih (afterNext_passes h hbeyond.le hpasses) (by simp [hv])
          (hahead.tail (le_refl _)) hfit' (by rw [afterNext_bytesTotal]; exact Wrap.add_lt) ?_)
        intro hc t ht
        rw [frame_afterNext.config] at hc
        rw [Val.pushBack_data, tripsAt_append hv, hahead.tripsAt_iff ht]
        exact htrip hc t (List.mem_cons_of_mem _ ht)
      · exact appendReturns_ends h hahead hreach hends hcheck

/-! ### However far the data goes -/

/-- One turn of the walk at a block ahead of it. -/
inductive Turn (base : Nat) (next : Nat × Val) (rest : List (Nat × Val)) (newData : List Byte) (fpos : Nat)
    (w : World) : Prop where
  /-- The data ends before the block, -/
  | short (left : List Byte) (w' : World) (hlog : w'.log = w.log)
    (heq : appendLoop base (next :: rest) newData fpos w = .returned left w')
  | throws (e : Exception)
    (heq : appendLoop base (next :: rest) newData fpos w = ⟨.error e, (checkNext base fpos newData next w).world⟩)
    (hbeyond : fpos ≤ next.1) (hreach : next.1 ≤ fpos + newData.length)
  /-- or the block is the last one to be taken over, -/
  | ends (left : List Byte) (w' : World) (hlog : w'.log = (afterNext base fpos newData next w).log)
    (heq : appendLoop base (next :: rest) newData fpos w = .returned left w')
  /-- or the walk goes on. -/
  | passes (hbeyond : fpos ≤ next.1) (hpasses : next.1 + next.2.data.length < fpos + newData.length)
    (heq : appendLoop base (next :: rest) newData fpos w =
      appendLoop base rest (newData.drop (next.1 + next.2.data.length - fpos)) (next.1 + next.2.data.length)
        (afterNext base fpos newData next w))

/-- With no block in front of it the walk is over. -/
theorem appendLoop_nil_returns (base : Nat) (newData : List Byte) (fpos : Nat) (w : World) :
    ∃ w', appendLoop base [] newData fpos w = .returned [] w' ∧ w'.log = w.log := by
  by_cases hdata : newData = []
  · subst hdata
    exact ⟨w, appendLoop_nil_data .., rfl⟩
  · exact ⟨_, appendLoop_last hdata, rfl⟩

theorem appendLoop_turn (base : Nat) {next : Nat × Val} {rest : List (Nat × Val)} (newData : List Byte) {fpos : Nat}
    (w : World) (hahead : Ahead fpos (next :: rest)) : Turn base next rest newData fpos w := by
  have hbeyond := hahead.beyond next (List.mem_cons_self ..)
  have hposition := hahead.position next (List.mem_cons_self ..)
  by_cases hdata : newData = []
  · subst hdata
    exact .short [] w rfl (appendLoop_nil_data ..)
  · rcases Nat.lt_or_ge (fpos + newData.length) next.1 with hshort | hreach
    · exact .short [] ((w.pushBack base newData).addBytes newData.length) rfl
        (appendLoop_short hdata (hshort.trans hposition) hshort)
    · have hsize := hahead.size next (List.mem_cons_self ..)
      have heq : appendLoop base (next :: rest) newData fpos w = _ :=
        appendLoop_reach hdata hbeyond.le hposition hsize hreach
      cases hcheck : (checkNext base fpos newData next w).result with
      | error e =>
        rw [Outcome.bind_of_error hcheck] at heq
        exact .throws e heq hbeyond.le hreach
      | ok _ =>
        rw [Outcome.bind_of_ok hcheck] at heq
        rcases Nat.lt_or_ge (next.1 + next.2.data.length) (fpos + newData.length) with hpasses | hends
        · rcases Nat.lt_or_ge (next.1 + next.2.data.length) (2 ^ 64) with hwithin | hwraps
          · rw [show min (newData.length - (next.1 - fpos)) next.2.data.length = next.2.data.length by omega,
              show next.1 - fpos + next.2.data.length = next.1 + next.2.data.length - fpos by omega,
              sizeAdd_of_lt hwithin] at heq
            exact .passes hbeyond.le hpasses heq
          · -- A block that runs out of the range is the last one.
            have hlast : rest = [] := List.eq_nil_iff_forall_not_mem.mpr fun t ht => by
              have := hahead.later t ht
              have := hahead.position t (List.mem_cons_of_mem _ ht)
              omega
            subst hlast
            obtain ⟨w', hreturned, hlog⟩ := appendLoop_nil_returns base _ _ _
            exact .ends [] w' hlog (heq.trans hreturned)
        · rw [List.drop_of_length_le (by omega), appendLoop_nil_data] at heq
          exact .ends [] _ rfl heq

/-- A walk that throws leaves the base block grown up to the block it threw at. -/
theorem appendLoop_thrown {rest : List (Nat × Val)} {newData : List Byte} {fpos : Nat} {v : Val} {w : World}
    {e : Exception} (h : w.file.svf.entries = pre ++ (base, v) :: rest) (hfpos : base + v.data.length = fpos)
    (hahead : Ahead fpos rest) (hthrown : (appendLoop base rest newData fpos w).result = .error e) :
    ∃ v' next later, (appendLoop base rest newData fpos w).world.file.svf.entries =
      pre ++ (base, v') :: next :: later ∧ next.1 < 2 ^ 64 ∧ base + v'.data.length = next.1 := by
  induction rest generalizing newData fpos v w with
  | nil =>
    obtain ⟨_, hreturned, _⟩ := appendLoop_nil_returns base newData fpos w
    rw [hreturned] at hthrown
    cases hthrown
  | cons next rest ih =>
    cases appendLoop_turn base newData w hahead with
    | short left w' _ heq =>
      rw [heq] at hthrown
      cases hthrown
    | throws e' heq hbeyond hreach =>
      rw [heq]
      refine ⟨_, next, rest, checkNext_cut h, hahead.position next (List.mem_cons_self ..), ?_⟩
      rw [Val.pushBack_data, List.length_append, List.length_take]
      omega
    | ends left w' _ heq =>
      rw [heq] at hthrown
      cases hthrown
    | passes hbeyond hpasses heq =>
      rw [heq] at hthrown ⊢
      refine ih (afterNext_passes h hbeyond hpasses) ?_ (hahead.tail (le_refl _)) hthrown
      rw [Val.pushBack_data, List.length_append, List.length_take]
      omega

/-- A walk looks at no byte outside a buffer. -/
theorem appendLoop_inBuffers {rest : List (Nat × Val)} {newData : List Byte} {fpos : Nat} {v : Val} {w : World}
    (h : w.file.svf.entries = pre ++ (base, v) :: rest) (hv : v.data ≠ []) (hahead : Ahead fpos rest)
    (hlog : w.LogInBuffers) : (appendLoop base rest newData fpos w).world.LogInBuffers := by
  induction rest generalizing newData fpos v w with
  | nil =>
    obtain ⟨w', hreturned, hlog'⟩ := appendLoop_nil_returns base newData fpos w
    rw [hreturned]
    exact hlog.of_log_eq hlog'
  | cons next rest ih =>
    cases appendLoop_turn base newData w hahead with
    | short left w' hlog' heq =>
      rw [heq]
      exact hlog.of_log_eq hlog'
    | throws e heq _ _ =>
      rw [heq]
      exact checkNext_inBuffers h hv hlog
    | ends left w' hlog' heq =>
      rw [heq]
      exact (afterNext_inBuffers h hv hlog).of_log_eq hlog'
    | passes hbeyond hpasses heq =>
      rw [heq]
      exact ih (afterNext_passes h hbeyond hpasses) (by simp [hv]) (hahead.tail (le_refl _))
        (afterNext_inBuffers h hv hlog)

/-! ### A throw, where the data ends within the range -/

/-- The walk trips on the next block. -/
theorem appendLoop_throws_here {next : Nat × Val} {rest : List (Nat × Val)} {newData : List Byte} {fpos : Nat}
    {v : Val} {w : World} (h : w.file.svf.entries = pre ++ (base, v) :: next :: rest) (hv : v.data ≠ [])
    (hahead : Ahead fpos (next :: rest)) (hc : w.file.config.compareForDiff = true)
    (htrip : TripsAt fpos newData v.data next) :
    ∃ m, (appendLoop base (next :: rest) newData fpos w).result = .error (.diff m) := by
  have hbeyond := hahead.beyond next (List.mem_cons_self ..)
  have hposition := hahead.position next (List.mem_cons_self ..)
  have hreach := htrip.1
  obtain ⟨m, hm⟩ := checkNext_throws h hv hc htrip
  have hdata : newData ≠ [] := List.ne_nil_of_length_pos (by omega)
  rw [appendLoop_reach hdata hbeyond.le hposition (hahead.size next (List.mem_cons_self ..)) hreach.le,
    Outcome.bind_of_error hm]
  exact ⟨m, rfl⟩

/-- The walk with a throw. -/
theorem appendLoop_throws {rest : List (Nat × Val)} {newData : List Byte} {fpos : Nat} {v : Val}
    {w : World} (h : w.file.svf.entries = pre ++ (base, v) :: rest) (hv : v.data ≠ [])
    (hahead : Ahead fpos rest) (hfit : fpos + newData.length < 2 ^ 64)
    (hc : w.file.config.compareForDiff = true) (htrip : ∃ next ∈ rest, TripsAt fpos newData v.data next) :
    ∃ m, (appendLoop base rest newData fpos w).result = .error (.diff m) := by
  induction rest generalizing newData fpos v w with
  | nil =>
    obtain ⟨next, hnext, _⟩ := htrip
    cases hnext
  | cons next rest ih =>
    by_cases hnext : TripsAt fpos newData v.data next
    · exact appendLoop_throws_here h hv hahead hc hnext
    · have hbeyond := hahead.beyond next (List.mem_cons_self ..)
      obtain ⟨t, ht, htripped⟩ := htrip
      have ht : t ∈ rest := (List.mem_cons.mp ht).resolve_left fun heq => hnext (heq ▸ htripped)
      have hpasses : next.1 + next.2.data.length < fpos + newData.length := by
        have := hahead.later t ht
        have := htripped.1
        omega
      have hfit' : next.1 + next.2.data.length +
          (newData.drop (next.1 + next.2.data.length - fpos)).length < 2 ^ 64 := by
        rw [List.length_drop]
        omega
      have hlater : ∃ t ∈ rest, TripsAt (next.1 + next.2.data.length)
          (newData.drop (next.1 + next.2.data.length - fpos))
          (v.pushBack (newData.take (next.1 + next.2.data.length - fpos))).data t := by
        refine ⟨t, ht, ?_⟩
        rw [Val.pushBack_data, tripsAt_append hv, hahead.tripsAt_iff ht]
        exact htripped
      rw [appendLoop_passes hbeyond.le hfit hpasses (checkNext_returns h hv fun _ => hnext)]
      exact ih (afterNext_passes h hbeyond.le hpasses) (by simp [hv]) (hahead.tail (le_refl _)) hfit'
        (by rw [frame_afterNext.config]; exact hc) hlater

end Walk

/-! ### The base block -/

section Base
variable {w : World} {pre rest : List (Nat × Val)} {base : Nat × Val} {fpos : Nat}
  {newData : List Byte}

/-- The write differs from the base block, and already at its first byte. -/
def BaseTrips (fpos : Nat) (newData : List Byte) (base : Nat × Val) : Prop :=
  fpos < base.1 + base.2.data.length ∧ base.2.data[fpos - base.1]? ≠ newData.head?

/-- There is a difference in the part of the base block written over. -/
def BaseDiffers (fpos : Nat) (newData : List Byte) (base : Nat × Val) : Prop :=
  memcmpDiffers base.2.data (fpos - base.1)
    (min newData.length (base.1 + base.2.data.length - fpos)) newData = true

/-- The check against the base block trips at a difference in the first byte. -/
theorem baseTrips_iff (hdata : newData ≠ []) (hbase : base.1 ≤ fpos) :
    Trips newData base.2.data (fpos - base.1)
      (min newData.length (base.1 + base.2.data.length - fpos)) base.2.data (fpos - base.1) ↔
      BaseTrips fpos newData base := by
  have hpos := List.length_pos_iff.mpr hdata
  constructor
  · rintro ⟨_, given, held, hgiven, hheld, hne⟩
    obtain ⟨hlt, _⟩ := List.getElem?_eq_some_iff.mp hheld
    refine ⟨by omega, ?_⟩
    rw [hheld, hgiven]
    exact fun h => hne (Option.some.inj h).symm
  · rintro ⟨hlt, hne⟩
    obtain ⟨given, hgiven⟩ : ∃ given, newData.head? = some given := by
      cases newData with
      | nil => exact absurd rfl hdata
      | cons x _ => exact ⟨x, rfl⟩
    obtain ⟨held, hheld⟩ : ∃ held, base.2.data[fpos - base.1]? = some held :=
      ⟨_, List.getElem?_eq_getElem (by omega)⟩
    rw [hheld, hgiven] at hne
    refine ⟨memcmpDiffers_iff.mpr ⟨0, by omega, ?_⟩, given, held, hgiven, hheld,
      fun h => hne (by rw [h])⟩
    rw [Nat.add_zero, hheld, ← List.head?_eq_getElem?, hgiven]
    exact hne

/-- What `_write_append_new_to_old` asserts and computes before it compares. -/
def enterAppend (fpos : Nat) (newData : List Byte) (base : Nat × Val) (w : World) : World :=
  ((((w.emit (.assertion (0 < newData.length))).emit (.assertion (base.1 ≤ fpos))).emit
    (.assertion (fpos ≤ filePositionImmediatlyAfterBlock base))).emit (.subtract fpos base.1)).emit
    (.subtract base.2.data.length (sizeSub fpos base.1))

@[simp] theorem enterAppend_file : (enterAppend fpos newData base w).file = w.file := rfl

theorem sound_enterAppend (hdata : newData ≠ []) (hbase : base.1 ≤ fpos)
    (hstop : fpos ≤ base.1 + base.2.data.length) (hwithin : base.1 + base.2.data.length < 2 ^ 64) :
    SoundLog w (enterAppend fpos newData base w) := by
  have hafter := filePositionImmediatlyAfterBlock_of_lt hwithin
  refine SoundLog.emit (SoundLog.emit (SoundLog.emit (SoundLog.emit (SoundLog.emit
    (SoundLog.refl w) ?_) ?_) ?_) ?_) ?_
  · simpa [Event.Sound] using List.length_pos_iff.mpr hdata
  · simpa [Event.Sound] using hbase
  · simpa [Event.Sound, hafter] using hstop
  · exact hbase
  · show sizeSub fpos base.1 ≤ base.2.data.length
    rw [sizeSub_of_le hbase (by omega)]
    omega

/-- The check against the base block. -/
def checkBase (fpos : Nat) (newData : List Byte) (base : Nat × Val) (w : World) : Outcome Unit :=
  diffCheck fpos newData base.2.data (fpos - base.1)
    (min newData.length (base.1 + base.2.data.length - fpos)) base.2.data (fpos - base.1)
    (enterAppend fpos newData base w)

@[simp] theorem checkBase_file : (checkBase fpos newData base w).world.file = w.file := diffCheck_file

theorem checkBase_throws (hdata : newData ≠ []) (hbase : base.1 ≤ fpos)
    (hc : w.file.config.compareForDiff = true) (htrip : BaseTrips fpos newData base) :
    ∃ m, (checkBase fpos newData base w).result = .error (.diff m) :=
  diffCheck_throws hc ((baseTrips_iff hdata hbase).mpr htrip)

theorem checkBase_returns (hdata : newData ≠ []) (hbase : base.1 ≤ fpos)
    (htrip : w.file.config.compareForDiff = true → ¬ BaseTrips fpos newData base) :
    (checkBase fpos newData base w).result = .ok () :=
  diffCheck_returns fun hc h => htrip hc ((baseTrips_iff hdata hbase).mp h)

theorem sound_checkBase (hdata : newData ≠ []) (hbase : base.1 ≤ fpos)
    (hstop : fpos ≤ base.1 + base.2.data.length) (hwithin : base.1 + base.2.data.length < 2 ^ 64)
    (hdiff : w.file.config.compareForDiff = true → ¬ BaseDiffers fpos newData base) :
    SoundLog w (checkBase fpos newData base w).world :=
  (sound_enterAppend hdata hbase hstop hwithin).trans
    (diffCheck_sound (by omega) fun hc => Bool.eq_false_iff.mpr (hdiff hc))

/-- `_write_append_new_to_old` on a block that reaches the file position: the
check against it, the walk from its end, the touch. A block that the data goes
past ends within the range. -/
theorem writeAppendNewToOld_eq (hbase : base.1 ≤ fpos)
    (hstop : fpos ≤ base.1 + base.2.data.length) (hsize : base.2.data.length < 2 ^ 64) (hfpos : fpos < 2 ^ 64)
    (hwithin : base.1 + base.2.data.length < fpos + newData.length → base.1 + base.2.data.length < 2 ^ 64) :
    writeAppendNewToOld fpos newData base rest w =
      (checkBase fpos newData base w).bind fun _ w =>
      (appendLoop base.1 rest (newData.drop (base.1 + base.2.data.length - fpos))
        (base.1 + base.2.data.length) w).bind fun left w =>
      .returned () ((w.touch base.1).emit (.assertion left.isEmpty)) := by
  have hindex : sizeSub fpos base.1 = fpos - base.1 := sizeSub_of_le hbase (by omega)
  have hlen : sizeSub base.2.data.length (fpos - base.1) = base.1 + base.2.data.length - fpos := by
    rw [sizeSub_of_le (by omega) (by omega)]
    omega
  unfold writeAppendNewToOld checkBase enterAppend
  dsimp only
  rw [hindex, hlen]
  congr 1
  funext _ w'
  congr 1
  -- Where the data ends in the base block, the walk is over wherever it starts.
  rcases Nat.lt_or_ge (base.1 + base.2.data.length) (fpos + newData.length) with hmore | hends
  · rw [show min newData.length (base.1 + base.2.data.length - fpos) =
      base.1 + base.2.data.length - fpos by omega, sizeAdd_of_lt (by have := hwithin hmore; omega),
      show fpos + (base.1 + base.2.data.length - fpos) = base.1 + base.2.data.length by omega]
  · rw [List.drop_of_length_le (by omega), List.drop_of_length_le (by omega), appendLoop_nil_data,
      appendLoop_nil_data]

end Base

end World
end Svfs
