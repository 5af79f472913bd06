import Svfs.File.Write

/-! What the steps of the write paths do.

Each step is described on a map cut at the block it works on. `Frame` says that
only the blocks and their byte count moved, `SoundLog` that everything logged on
the way was in order: no access outside a buffer, no difference below zero, no
assertion that would have failed. -/
namespace Svfs

/-- Nothing to complain about. -/
def Event.Sound : Event → Prop
  | .memcmp size offset len | .copy size offset len => offset + len ≤ size
  | .index size i => i < size
  | .subtract a b => b ≤ a
  | .assertion holds => holds = true
  | .discard _ _ => True

/-- What was logged since `w` is in order. -/
def SoundLog (w w' : World) : Prop := ∃ es, w'.log = es ++ w.log ∧ ∀ e ∈ es, e.Sound

theorem SoundLog.refl (w : World) : SoundLog w w := ⟨[], rfl, by simp⟩

theorem SoundLog.trans {a b c : World} (hab : SoundLog a b) (hbc : SoundLog b c) : SoundLog a c := by
  obtain ⟨es, hes, hsound⟩ := hab
  obtain ⟨fs, hfs, hsound'⟩ := hbc
  refine ⟨fs ++ es, by rw [hfs, hes, List.append_assoc], fun e he => ?_⟩
  rcases List.mem_append.mp he with he | he
  · exact hsound' e he
  · exact hsound e he

/-- A step that leaves the log alone. -/
theorem SoundLog.of_log_eq {w w' : World} (h : w'.log = w.log) : SoundLog w w' := ⟨[], h, by simp⟩

theorem SoundLog.emit {w w' : World} {e : Event} (h : SoundLog w w') (he : e.Sound) :
    SoundLog w (w'.emit e) := by
  refine h.trans ⟨[e], rfl, fun x hx => ?_⟩
  rw [List.mem_singleton.mp hx]
  exact he

theorem Event.Sound.inBuffer {e : Event} (h : e.Sound) : e.InBuffer := by
  cases e with
  | memcmp | copy | index => exact h
  | _ => trivial

section InBuffers
variable {w w' : World}

theorem World.logInBuffers_append_iff {es : List Event} (h : w'.log = es ++ w.log) :
    w'.LogInBuffers ↔ (∀ e ∈ es, e.InBuffer) ∧ w.LogInBuffers := by
  unfold World.LogInBuffers
  rw [h]
  exact List.forall_mem_append

theorem World.LogInBuffers.of_sound (h : w.LogInBuffers) (hlog : SoundLog w w') : w'.LogInBuffers := by
  obtain ⟨es, hes, hsound⟩ := hlog
  exact (World.logInBuffers_append_iff hes).mpr ⟨fun e he => (hsound e he).inBuffer, h⟩

theorem World.LogInBuffers.of_later (h : w'.LogInBuffers) (hlog : SoundLog w w') : w.LogInBuffers := by
  obtain ⟨es, hes, _⟩ := hlog
  exact ((World.logInBuffers_append_iff hes).mp h).2

theorem World.LogInBuffers.emit {e : Event} (h : w.LogInBuffers) (he : e.InBuffer) : (w.emit e).LogInBuffers :=
  List.forall_mem_cons.mpr ⟨he, h⟩

theorem World.LogInBuffers.assert (h : w.LogInBuffers) (holds : Bool) : (w.emit (.assertion holds)).LogInBuffers :=
  h.emit trivial

theorem World.LogInBuffers.subtract (h : w.LogInBuffers) (a b : Nat) : (w.emit (.subtract a b)).LogInBuffers :=
  h.emit trivial

theorem World.LogInBuffers.of_log_eq (h : w.LogInBuffers) (hlog : w'.log = w.log) : w'.LogInBuffers :=
  h.of_sound (SoundLog.of_log_eq hlog)

theorem World.logInBuffers_emit_iff {e : Event} : (w.emit e).LogInBuffers ↔ e.InBuffer ∧ w.LogInBuffers :=
  List.forall_mem_cons

end InBuffers

/-- Only the blocks and the count of their bytes may have moved. -/
def Frame (w w' : World) : Prop :=
  w'.file = {w.file with svf := w'.file.svf, bytesTotal := w'.file.bytesTotal}

theorem Frame.refl (w : World) : Frame w w := rfl

theorem Frame.trans {a b c : World} (hab : Frame a b) (hbc : Frame b c) : Frame a c := by
  unfold Frame at *
  rw [hbc, hab]

theorem Frame.of_file_eq {w w' : World} (h : w'.file = w.file) : Frame w w' := by
  unfold Frame
  rw [h]

theorem Frame.config {w w' : World} (h : Frame w w') : w'.file.config = w.file.config := by
  unfold Frame at h
  rw [h]

theorem Frame.blockTouch {w w' : World} (h : Frame w w') :
    w'.file.blockTouch = w.file.blockTouch := by
  unfold Frame at h
  rw [h]

@[simp] theorem Val.pushBack_nil (v : Val) : v.pushBack [] = v := by simp [Val.pushBack]

@[simp] theorem Val.pushBack_pushBack (v : Val) (a b : List Byte) :
    (v.pushBack a).pushBack b = v.pushBack (a ++ b) := by simp [Val.pushBack]

@[simp] theorem Val.pushBack_data (v : Val) (a : List Byte) : (v.pushBack a).data = v.data ++ a := rfl

namespace World
variable {w : World} {pre post : List (Nat × Val)} {k : Nat} {v : Val}

theorem frame_emit (w : World) (e : Event) : Frame w (w.emit e) := rfl

theorem frame_addBytes (w : World) (n : Nat) : Frame w (w.addBytes n) := rfl

@[simp] theorem addBytes_svf (w : World) (n : Nat) : (w.addBytes n).file.svf = w.file.svf := rfl

@[simp] theorem addBytes_bytesTotal (w : World) (n : Nat) :
    (w.addBytes n).file.bytesTotal = sizeAdd w.file.bytesTotal n := rfl

theorem pushBack_cut (h : w.file.svf.entries = pre ++ (k, v) :: post) (bytes : List Byte) :
    (w.pushBack k bytes).file.svf.entries = pre ++ (k, v.pushBack bytes) :: post :=
  OrderedMap.entries_modify h _

theorem blockData_cut (h : w.file.svf.entries = pre ++ (k, v) :: post) : w.blockData k = v.data := by
  unfold blockData
  rw [OrderedMap.find?_cut h]

theorem touch_cut (h : w.file.svf.entries = pre ++ (k, v) :: post) :
    (w.touch k).file.svf.entries = pre ++ (k, {v with blockTouch := w.file.blockTouch}) :: post :=
  OrderedMap.entries_modify h _

theorem eraseIter_cut (h : w.file.svf.entries = pre ++ (k, v) :: post) :
    (w.eraseIter k).file.svf.entries = pre ++ post :=
  OrderedMap.entries_erase h

theorem frame_swallow (w : World) (k : Nat) : Frame w (w.swallow k) := by
  unfold swallow
  split <;> rfl

@[simp] theorem swallow_bytesTotal (w : World) (k : Nat) :
    (w.swallow k).file.bytesTotal = w.file.bytesTotal := by
  unfold swallow
  split <;> rfl

theorem swallow_cut (h : w.file.svf.entries = pre ++ (k, v) :: post) :
    (w.swallow k).file.svf.entries = pre ++ post := by
  unfold swallow
  split
  · exact eraseIter_cut (OrderedMap.entries_modify h Val.overwrite)
  · exact eraseIter_cut h

theorem logInBuffers_swallow : (w.swallow k).LogInBuffers ↔ w.LogInBuffers := by
  unfold swallow
  split <;> exact (logInBuffers_emit_iff (e := .discard k _)).trans (and_iff_right trivial)

theorem sound_swallow (w : World) (k : Nat) : SoundLog w (w.swallow k) := by
  unfold swallow
  split <;> exact ⟨[_], rfl, by simp [Event.Sound]⟩

/-! ### The comparison -/

theorem memcmpDiffers_iff {buffer data : List Byte} {offset len : Nat} :
    memcmpDiffers buffer offset len data = true ↔ ∃ i, i < len ∧ buffer[offset + i]? ≠ data[i]? := by
  simp only [memcmpDiffers, bne_iff_ne, ne_eq]
  rw [← not_iff_not, not_not]
  push Not
  constructor
  · intro h i hi
    have := congrArg (fun l => l[i]?) h
    simpa [List.getElem?_take, hi, List.getElem?_drop] using this
  · intro h
    apply List.ext_getElem?
    intro i
    rw [List.getElem?_take, List.getElem?_take, List.getElem?_drop]
    split
    · rename_i hi
      exact h i hi
    · rfl

/-- A comparison that throws: the bytes compared differ, and so do the two that
`_throw_diff` looks at. -/
def Trips (data block : List Byte) (offset len : Nat) (probed : List Byte) (indexIter : Nat) : Prop :=
  memcmpDiffers block offset len data = true ∧
    ∃ given held, data.head? = some given ∧ probed[indexIter]? = some held ∧ given ≠ held

section DiffCheck
variable {fpos : Nat} {data block probed : List Byte} {offset len indexIter : Nat}

/-- How a comparison goes. -/
inductive Compared (fpos : Nat) (data block : List Byte) (offset len : Nat) (probed : List Byte) (indexIter : Nat)
    (w : World) : Prop where
  /-- No difference is looked for, -/
  | skipped (heq : diffCheck fpos data block offset len probed indexIter w = .returned () w)
  /-- there is none, -/
  | agrees (heq : diffCheck fpos data block offset len probed indexIter w =
      .returned () (w.emit (.memcmp block.length offset len)))
  /-- `_throw_diff` looks at two bytes that differ, -/
  | trips (m : String) (hc : w.file.config.compareForDiff = true)
    (htrips : Trips data block offset len probed indexIter)
    (heq : diffCheck fpos data block offset len probed indexIter w =
      .threw (.diff m) ((w.emit (.memcmp block.length offset len)).emit (.index probed.length indexIter)))
  /-- or at two that do not. -/
  | misses (hdiff : memcmpDiffers block offset len data = true)
    (heq : diffCheck fpos data block offset len probed indexIter w =
      .returned () (((w.emit (.memcmp block.length offset len)).emit (.index probed.length indexIter)).emit
        (.assertion false)))

theorem diffCheck_compared (fpos : Nat) (data block : List Byte) (offset len : Nat) (probed : List Byte)
    (indexIter : Nat) (w : World) : Compared fpos data block offset len probed indexIter w := by
  cases hc : w.file.config.compareForDiff with
  | false => exact .skipped (by simp [diffCheck, hc])
  | true =>
    cases hdiff : memcmpDiffers block offset len data with
    | false => exact .agrees (by simp [diffCheck, hc, hdiff])
    | true =>
      by_cases htrips : Trips data block offset len probed indexIter
      · obtain ⟨_, given, held, hgiven, hheld, hne⟩ := id htrips
        exact .trips (diffMessage fpos given held) hc htrips
          (by simp [diffCheck, hc, hdiff, throwDiff, hgiven, hheld, hne])
      · refine .misses hdiff ?_
        simp only [diffCheck, hc, hdiff, if_true, throwDiff]
        split
        · rename_i given held hgiven hheld
          rw [if_neg fun hne => htrips ⟨hdiff, given, held, hgiven, hheld, hne⟩]
        · rfl

@[simp] theorem diffCheck_file :
    (diffCheck fpos data block offset len probed indexIter w).world.file = w.file := by
  cases diffCheck_compared fpos data block offset len probed indexIter w with
  | skipped heq | agrees heq | trips _ _ _ heq | misses _ heq => rw [heq]; rfl

/-- Where both files look for differences or neither does, they compare with the same result and
log the same. -/
theorem diffCheck_alike {w' : World} (hcompare : w'.file.config.compareForDiff = w.file.config.compareForDiff)
    (fpos : Nat) (data block : List Byte) (offset len : Nat) (probed : List Byte) (indexIter : Nat) :
    (diffCheck fpos data block offset len probed indexIter w').result =
        (diffCheck fpos data block offset len probed indexIter w).result ∧
      ∃ es, (diffCheck fpos data block offset len probed indexIter w).world.log = es ++ w.log ∧
        (diffCheck fpos data block offset len probed indexIter w').world.log = es ++ w'.log := by
  unfold diffCheck
  rw [hcompare]
  split
  · dsimp only
    split
    · unfold throwDiff
      dsimp only
      split
      · split
        · exact ⟨rfl, [_, _], rfl, rfl⟩
        · exact ⟨rfl, [_, _, _], rfl, rfl⟩
      · exact ⟨rfl, [_, _, _], rfl, rfl⟩
    · exact ⟨rfl, [_], rfl, rfl⟩
  · exact ⟨rfl, [], rfl, rfl⟩

theorem diffCheck_throws (hc : w.file.config.compareForDiff = true)
    (h : Trips data block offset len probed indexIter) :
    ∃ m, (diffCheck fpos data block offset len probed indexIter w).result = .error (.diff m) := by
  obtain ⟨hdiff, given, held, hgiven, hheld, hne⟩ := h
  refine ⟨diffMessage fpos given held, ?_⟩
  simp [diffCheck, hc, hdiff, throwDiff, hgiven, hheld, hne]

theorem diffCheck_returns (h : w.file.config.compareForDiff = true →
      ¬ Trips data block offset len probed indexIter) :
    (diffCheck fpos data block offset len probed indexIter w).result = .ok () := by
  cases diffCheck_compared fpos data block offset len probed indexIter w with
  | trips _ hc htrips => exact absurd htrips (h hc)
  | skipped heq | agrees heq | misses _ heq => rw [heq]; rfl

/-- A comparison of equal bytes inside the block logs nothing to complain about. -/
theorem diffCheck_sound (hlen : offset + len ≤ block.length)
    (h : w.file.config.compareForDiff = true → memcmpDiffers block offset len data = false) :
    SoundLog w (diffCheck fpos data block offset len probed indexIter w).world := by
  unfold diffCheck
  split
  · rename_i hc
    dsimp only
    rw [h hc]
    exact (SoundLog.refl w).emit hlen
  · exact SoundLog.refl w

/-- All that a comparison may log. -/
theorem diffCheck_forall_log {Q : Event → Prop} (h : ∀ e ∈ w.log, Q e) (hcompared : Q (.memcmp block.length offset len))
    (hprobed : 0 < len → Q (.index probed.length indexIter)) (hmissed : Q (.assertion false)) :
    ∀ e ∈ (diffCheck fpos data block offset len probed indexIter w).world.log, Q e := by
  have hafter : ∀ e ∈ (w.emit (.memcmp block.length offset len)).log, Q e := List.forall_mem_cons.mpr ⟨hcompared, h⟩
  have hlooked (hdiff : memcmpDiffers block offset len data = true) :
      ∀ e ∈ ((w.emit (.memcmp block.length offset len)).emit (.index probed.length indexIter)).log, Q e := by
    obtain ⟨i, hi, _⟩ := memcmpDiffers_iff.mp hdiff
    exact List.forall_mem_cons.mpr ⟨hprobed (by omega), hafter⟩
  cases diffCheck_compared fpos data block offset len probed indexIter w with
  | skipped heq => rw [heq]; exact h
  | agrees heq => rw [heq]; exact hafter
  | trips _ _ htrips heq => rw [heq]; exact hlooked htrips.1
  | misses hdiff heq => rw [heq]; exact List.forall_mem_cons.mpr ⟨hmissed, hlooked hdiff⟩

/-- A comparison inside the block, whatever it finds. -/
theorem LogInBuffers.diffCheck (h : w.LogInBuffers) (hlen : offset + len ≤ block.length)
    (hindex : 0 < len → indexIter < probed.length) :
    (diffCheck fpos data block offset len probed indexIter w).world.LogInBuffers :=
  diffCheck_forall_log h hlen hindex trivial

end DiffCheck

/-- Where no block starts, one can be put in. -/
theorem insertNew_of_absent (caller : String) {fpos : Nat} (h : w.file.svf.find? fpos = none) :
    w.insertNew caller fpos v =
      .returned () {w with file := {w.file with svf := w.file.svf.insert fpos v}} :=
  if_neg (not_not.mpr ((OrderedMap.size_insert_eq_iff w.file.svf fpos v).mpr h))

/-- Inserting between the entries below the position and those above it. -/
theorem insertNew_cut (caller : String) {fpos : Nat} (h : w.file.svf.entries = pre ++ post)
    (hpre : ∀ e ∈ pre, e.1 < fpos) (hpost : ∀ e ∈ post, fpos < e.1) :
    (w.insertNew caller fpos v).result = .ok () ∧
      (w.insertNew caller fpos v).world.file.svf.entries = pre ++ (fpos, v) :: post ∧
      (w.insertNew caller fpos v).world.file.bytesTotal = w.file.bytesTotal ∧
      Frame w (w.insertNew caller fpos v).world ∧
      (w.insertNew caller fpos v).world.log = w.log := by
  rw [insertNew_of_absent caller (OrderedMap.find?_of_cut h hpre hpost)]
  exact ⟨rfl, OrderedMap.entries_insert h hpre hpost v, rfl, rfl, rfl⟩

end World
end Svfs
