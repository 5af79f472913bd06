import Svfs.Library.Stacked
import Svfs.Evict.Remove
import Svfs.Query.Range
import Svfs.Write.Effect

/-! What a write leaves, whatever becomes of it.

A write that throws in the middle leaves a file that is no longer well formed: blocks may touch,
and their bytes may be miscounted. What it leaves still lies in order, with nothing in the blocks
that may not stand there (`Orderly`), and that is all that the next call needs to stay within
the buffers it compares, indexes and copies. Each walk is described by one such statement that
holds at its end and at every throw (`prependLoop_fronts`, `appendLoop_grows`). -/
namespace Svfs

/-- An access inside the buffer it is made on, a difference that is not below zero. The
assertions, which the shipped build leaves out, may fail. -/
def Event.InBounds : Event → Prop
  | .assertion _ => True
  | e => e.Sound

theorem Event.Sound.inBounds {e : Event} (h : e.Sound) : e.InBounds := by
  cases e with
  | assertion holds => trivial
  | _ => exact h

namespace World

/-- All logged so far was within bounds. -/
def LogInBounds (w : World) : Prop := ∀ e ∈ w.log, e.InBounds

section Log
variable {w w' : World}

theorem LogInBounds.emit {e : Event} (h : w.LogInBounds) (he : e.InBounds) : (w.emit e).LogInBounds := by
  intro x hx
  rcases List.mem_cons.mp hx with rfl | hx
  · exact he
  · exact h x hx

theorem LogInBounds.assert (h : w.LogInBounds) (holds : Bool) : (w.emit (.assertion holds)).LogInBounds :=
  h.emit trivial

theorem LogInBounds.of_sound (h : w.LogInBounds) (hlog : SoundLog w w') : w'.LogInBounds := by
  obtain ⟨es, hes, hsound⟩ := hlog
  intro e he
  rw [hes] at he
  rcases List.mem_append.mp he with he | he
  · exact (hsound e he).inBounds
  · exact h e he

theorem LogInBounds.subtract (h : w.LogInBounds) {a b : Nat} (hle : b ≤ a) : (w.emit (.subtract a b)).LogInBounds :=
  h.emit hle

theorem LogInBounds.addBytes (h : w.LogInBounds) (n : Nat) : (w.addBytes n).LogInBounds := h

theorem LogInBounds.pushBack (h : w.LogInBounds) (k : Nat) (bytes : List Byte) : (w.pushBack k bytes).LogInBounds := h

theorem LogInBounds.swallow (h : w.LogInBounds) (k : Nat) : (w.swallow k).LogInBounds :=
  h.of_sound (sound_swallow w k)

theorem LogInBounds.eraseIter (h : w.LogInBounds) (k : Nat) : (w.eraseIter k).LogInBounds :=
  h.emit (w := w) (e := .discard k (w.blockData k)) trivial

/-- A comparison inside the block, whatever it finds. -/
theorem LogInBounds.diffCheck (h : w.LogInBounds) {fpos offset len indexIter : Nat}
    {data block probed : List Byte} (hlen : offset + len ≤ block.length)
    (hindex : 0 < len → indexIter < probed.length) :
    (diffCheck fpos data block offset len probed indexIter w).world.LogInBounds :=
  diffCheck_forall_log h hlen hindex trivial

end Log

/-! ### In front of the blocks -/

section Walks
variable {P : Nat → Byte → Prop} {w : World} {fpos start base : Nat} {data built newData : List Byte}
  {iters rest pre : List (Nat × Val)} {v : Val}

/-- A buffer that makes a block of its own at `start`, clear of the blocks at `entries`. -/
structure FitsBefore (P : Nat → Byte → Prop) (start : Nat) (newData : List Byte) (entries : List (Nat × Val)) :
    Prop where
  nonempty : newData ≠ []
  below : start + newData.length < 2 ^ 64
  bears : Segments.Bears P (start, newData)
  clear : ∀ e ∈ entries, start + newData.length ≤ e.1

/-- The walk in front of blocks ends, by throwing or not, with some of them passed and gone;
what it has built fits in before the others. -/
structure Fronts (P : Nat → Byte → Prop) (start : Nat) (iters : List (Nat × Val))
    (o : Outcome (List Byte × List Byte × Nat)) : Prop where
  log : o.world.LogInBounds
  suffix : o.world.file.svf.entries.IsSuffix iters
  built : ∀ b, o.result = .ok b → FitsBefore P start b.1 o.world.file.svf.entries

theorem Fronts.of_ok {left : List Byte} {fpos' : Nat} (hlog : w.LogInBounds) (hcut : w.file.svf.entries = rest)
    (hsuffix : rest.IsSuffix iters) (hfits : FitsBefore P start newData rest) :
    Fronts P start iters (.returned (newData, left, fpos') w) := by
  subst hcut
  refine ⟨hlog, hsuffix, fun b hb => ?_⟩
  obtain rfl := Except.ok.inj hb
  exact hfits

/-- The blocks after one of them begin at its end or past it. -/
theorem mem_after {iter : Nat × Val} (h : Segments.Stacked P (2 ^ 64) (segmentsOf (pre ++ iter :: rest))) :
    ∀ e ∈ rest, iter.1 + iter.2.data.length ≤ e.1 := by
  rw [segmentsOf_append, segmentsOf_cons] at h
  exact fun e he => h.around.2 _ (mem_segmentsOf.mpr ⟨e, he, rfl⟩)

theorem mem_rest {iter : Nat × Val} (h : Segments.Stacked P (2 ^ 64) (segmentsOf (iter :: rest))) :
    ∀ e ∈ rest, iter.1 + iter.2.data.length ≤ e.1 :=
  mem_after (show Segments.Stacked P (2 ^ 64) (segmentsOf ([] ++ iter :: rest)) from h)

section Front
variable {iter : Nat × Val}

theorem checkIter_inBounds (hlog : w.LogInBounds) (hne : iter.2.data ≠ []) :
    (checkIter fpos data iter w).world.LogInBounds :=
  (hlog.addBytes _).diffCheck (by omega) fun _ => List.length_pos_iff.mpr hne

/-- The block is gone once the walk has passed it. -/
theorem swallowIter_entries (hcut : w.file.svf.entries = iter :: rest) {w' : World}
    (hw' : w'.file = (checkIter fpos data iter w).world.file) : (w'.swallow iter.1).file.svf.entries = rest := by
  have hentries : w'.file.svf.entries = [] ++ iter :: rest := by
    rw [hw', checkIter_svf, hcut, List.nil_append]
  exact swallow_cut hentries

variable (hlog : w.LogInBounds) (hcut : w.file.svf.entries = iter :: rest)
  (hblocks : Segments.Stacked P (2 ^ 64) (segmentsOf (iter :: rest))) (hle : fpos ≤ iter.1)
  (hdata : Segments.Bears P (fpos, data)) (hbuilt : Segments.Bears P (start, built))
  (hat : start + built.length = fpos) (hcheck : (checkIter fpos data iter w).result = .ok ())
include hlog hcut hblocks hle hdata hbuilt hat hcheck

/-- The data ends inside the block, whose tail is kept. -/
theorem prependLoop_fronts_ends (hreach : iter.1 ≤ fpos + data.length)
    (hends : fpos + data.length < iter.1 + iter.2.data.length) :
    Fronts P start (iter :: rest) (prependLoop (fpos + data.length) (iter :: rest) data fpos built w) := by
  have hiter : (iter.1, iter.2.data) ∈ segmentsOf (iter :: rest) := by simp
  have hstop : iter.1 + iter.2.data.length < 2 ^ 64 := hblocks.below _ hiter
  have hlength : start + (built ++ data).length = fpos + data.length := by
    rw [List.length_append]
    omega
  have hstopped : start + (built ++ data ++ iter.2.data.drop (fpos + data.length - iter.1)).length =
      iter.1 + iter.2.data.length := by
    rw [List.length_append, ← Nat.add_assoc, hlength, List.length_drop]
    omega
  have htail := (hblocks.bears _ hiter).drop (fpos + data.length - iter.1)
  rw [Nat.add_sub_cancel' hreach] at htail
  have hcopy : (Event.copy iter.2.data.length (fpos + data.length - iter.1)
      (iter.2.data.length - (fpos + data.length - iter.1))).InBounds := by
    show _ + (_ - _) ≤ _
    omega
  have hchecked : (checkIter fpos data iter w).world.LogInBounds :=
    checkIter_inBounds hlog (hblocks.nonempty _ hiter)
  rw [prependLoop_ends hle hstop hreach hends hcheck, ← List.append_assoc]
  apply Fronts.of_ok (((hchecked.assert true).emit hcopy).swallow iter.1) (swallowIter_entries hcut rfl)
    (List.suffix_cons iter rest)
  constructor
  · exact List.ne_nil_of_length_pos (by omega)
  · rw [hstopped]
    exact hstop
  · rw [Segments.bears_append, hlength, Segments.bears_append, hat]
    exact ⟨⟨hbuilt, hdata⟩, htail⟩
  · rw [hstopped]
    exact mem_rest hblocks

/-- The data ends after the block, clear of the next one. -/
theorem prependLoop_fronts_done (hfit : fpos + data.length < 2 ^ 64)
    (hends : iter.1 + iter.2.data.length ≤ fpos + data.length)
    (hclear : ∀ next ∈ rest, fpos + data.length < next.1) :
    Fronts P start (iter :: rest) (prependLoop (fpos + data.length) (iter :: rest) data fpos built w) := by
  have hne := hblocks.nonempty (iter.1, iter.2.data) (by simp)
  have hpos : 0 < iter.2.data.length := List.length_pos_iff.mpr hne
  have hlength : start + (built ++ data).length = fpos + data.length := by
    rw [List.length_append]
    omega
  have hchecked : (checkIter fpos data iter w).world.LogInBounds := checkIter_inBounds hlog hne
  rw [prependLoop_done hle hfit hends hclear hcheck]
  apply Fronts.of_ok ((hchecked.swallow iter.1).addBytes _) (swallowIter_entries hcut rfl)
    (List.suffix_cons iter rest)
  constructor
  · exact List.ne_nil_of_length_pos (by omega)
  · rw [hlength]
    exact hfit
  · rw [Segments.bears_append, hat]
    exact ⟨hbuilt, hdata⟩
  · rw [hlength]
    exact fun e he => (hclear e he).le

end Front

theorem prependLoop_fronts (hlog : w.LogInBounds) (hcut : w.file.svf.entries = iters)
    (hblocks : Segments.Stacked P (2 ^ 64) (segmentsOf iters)) (hahead : ∀ e ∈ iters, fpos ≤ e.1)
    (hreach : ∃ iter ∈ iters.head?, iter.1 ≤ fpos + data.length) (hfit : fpos + data.length < 2 ^ 64)
    (hdata : Segments.Bears P (fpos, data)) (hbuilt : Segments.Bears P (start, built))
    (hat : start + built.length = fpos) :
    Fronts P start iters (prependLoop (fpos + data.length) iters data fpos built w) := by
  induction iters generalizing w data fpos built with
  | nil =>
    obtain ⟨_, hnone, _⟩ := hreach
    cases hnone
  | cons iter rest ih =>
    obtain ⟨_, hhead, hreach⟩ := hreach
    obtain rfl := Option.some.inj hhead
    have hle := hahead iter (List.mem_cons_self ..)
    have hlater := mem_rest hblocks
    have hrest := hblocks.sublist (List.sublist_cons_self ..)
    have hchecked : (checkIter fpos data iter w).world.LogInBounds :=
      checkIter_inBounds hlog (hblocks.nonempty (iter.1, iter.2.data) (by simp))
    cases hcheck : (checkIter fpos data iter w).result with
    | error e =>
      rw [prependLoop_reach hle (by omega) hreach, Outcome.bind_of_error hcheck]
      refine ⟨hchecked, ?_, nofun⟩
      rw [checkIter_svf, hcut]
    | ok _ =>
      rcases Nat.lt_or_ge (fpos + data.length) (iter.1 + iter.2.data.length) with hends | hends
      · exact prependLoop_fronts_ends hlog hcut hblocks hle hdata hbuilt hat hcheck hreach hends
      · by_cases hclear : ∀ next ∈ rest, fpos + data.length < next.1
        · exact prependLoop_fronts_done hlog hcut hblocks hle hdata hbuilt hat hcheck hfit hends hclear
        · cases rest with
          | nil => exact absurd (List.forall_mem_nil _) hclear
          | cons next rest =>
            -- If the data reaches any of them, it reaches the next one.
            have hnext : next.1 ≤ fpos + data.length := by
              by_contra hpast
              apply hclear
              intro e he
              rcases List.mem_cons.mp he with rfl | he
              · omega
              · have := mem_rest hrest e he
                omega
            have htaken : start + (built ++ data.take (iter.1 + iter.2.data.length - fpos)).length =
                iter.1 + iter.2.data.length := by
              rw [List.length_append, List.length_take]
              omega
            have hleft : iter.1 + iter.2.data.length + (data.drop (iter.1 + iter.2.data.length - fpos)).length =
                fpos + data.length := by
              rw [List.length_drop]
              omega
            have hdrop := hdata.drop (iter.1 + iter.2.data.length - fpos)
            rw [show fpos + (iter.1 + iter.2.data.length - fpos) = iter.1 + iter.2.data.length by omega] at hdrop
            have hbuilt' : Segments.Bears P (start, built ++ data.take (iter.1 + iter.2.data.length - fpos)) := by
              rw [Segments.bears_append, hat]
              exact ⟨hbuilt, hdata.take _⟩
            have hwalk := ih (hchecked.swallow iter.1) (swallowIter_entries hcut rfl) hrest hlater
              ⟨next, rfl, by rwa [hleft]⟩ (by rwa [hleft]) hdrop hbuilt' htaken
            rw [hleft] at hwalk
            rw [prependLoop_passes hle hfit hends hnext hcheck]
            exact ⟨hwalk.log, hwalk.suffix.trans (List.suffix_cons ..), hwalk.built⟩

/-! ### Over the blocks after it -/

/-- The walk over the blocks after the base block ends, by throwing or not, with that block
grown into the room it has and some of the others passed and gone. -/
structure Grows (P : Nat → Byte → Prop) (pre : List (Nat × Val)) (base : Nat) (o : Outcome (List Byte)) : Prop where
  log : o.world.LogInBounds
  blocks : ∃ v later, o.world.file.svf.entries = pre ++ (base, v) :: later ∧
    Segments.Stacked P (2 ^ 64) (segmentsOf (pre ++ (base, v) :: later))

/-- Bytes pushed onto a block that has room for them. -/
theorem stacked_pushBack {bytes : List Byte}
    (hblocks : Segments.Stacked P (2 ^ 64) (segmentsOf (pre ++ (base, v) :: rest)))
    (hend : base + v.data.length = fpos) (hbytes : Segments.Bears P (fpos, bytes))
    (hbelow : fpos + bytes.length < 2 ^ 64) (hclear : ∀ e ∈ rest, fpos + bytes.length ≤ e.1) :
    Segments.Stacked P (2 ^ 64) (segmentsOf (pre ++ (base, v.pushBack bytes) :: rest)) := by
  subst hend
  rw [segmentsOf_append, segmentsOf_cons] at hblocks ⊢
  apply hblocks.grow hbytes
  · rwa [List.length_append, ← Nat.add_assoc]
  · intro t ht
    obtain ⟨e, he, rfl⟩ := mem_segmentsOf.mp ht
    rw [List.length_append, ← Nat.add_assoc]
    exact hclear e he

section Grow
variable {next : Nat × Val}

theorem checkNext_inBounds (hlog : w.LogInBounds) (hcut : w.file.svf.entries = pre ++ (base, v) :: next :: rest)
    (hv : v.data ≠ []) (hstop : next.1 + next.2.data.length < 2 ^ 64) :
    (checkNext base fpos newData next w).world.LogInBounds := by
  have hupTo : (w.upTo base fpos newData next).LogInBounds := by
    apply ((hlog.pushBack base _).addBytes _).subtract
    rw [filePositionImmediatlyAfterBlock_of_lt hstop]
    exact Nat.le_add_right ..
  unfold checkNext
  dsimp only
  split
  · exact hupTo
  · apply hupTo.diffCheck
    · omega
    · intro _
      rw [blockData_cut (upTo_cut hcut), Val.pushBack_data, List.length_append]
      have := List.length_pos_iff.mpr hv
      omega

variable (hblocks : Segments.Stacked P (2 ^ 64) (segmentsOf (pre ++ (base, v) :: next :: rest)))
include hblocks

theorem stacked_skip : Segments.Stacked P (2 ^ 64) (segmentsOf (pre ++ (base, v) :: rest)) :=
  hblocks.sublist (((List.Sublist.refl pre).append ((List.sublist_cons_self next rest).cons_cons _)).map _)

theorem next_stop : next.1 + next.2.data.length < 2 ^ 64 := hblocks.below (next.1, next.2.data) (by simp)

theorem mem_after_next : ∀ e ∈ rest, next.1 + next.2.data.length ≤ e.1 := by
  rw [List.append_cons] at hblocks
  exact mem_after hblocks

theorem next_le : ∀ e ∈ next :: rest, next.1 ≤ e.1 := by
  intro e he
  rcases List.mem_cons.mp he with rfl | he
  · exact le_refl _
  · exact (Nat.le_add_right ..).trans (mem_after_next hblocks e he)

variable (hlog : w.LogInBounds) (hcut : w.file.svf.entries = pre ++ (base, v) :: next :: rest)
include hlog hcut

theorem checkNext_log : (checkNext base fpos newData next w).world.LogInBounds :=
  checkNext_inBounds hlog hcut (hblocks.nonempty (base, v.data) (by simp)) (next_stop hblocks)

theorem afterNext_log : (afterNext base fpos newData next w).LogInBounds :=
  (checkNext_log hblocks hlog hcut).of_sound sound_takeNext

variable (hend : base + v.data.length = fpos) (hdata : Segments.Bears P (fpos, newData))
include hend hdata

/-- A throw leaves the block up against the one the walk was stopped by. -/
theorem appendLoop_grows_throws (hne : newData ≠ []) (hreach : next.1 ≤ fpos + newData.length) {e : Exception}
    (hcheck : (checkNext base fpos newData next w).result = .error e) :
    Grows P pre base (appendLoop base (next :: rest) newData fpos w) := by
  have hroom : base + v.data.length ≤ next.1 := mem_after hblocks next (List.mem_cons_self ..)
  have hstop := next_stop hblocks
  have hupTo : fpos + (newData.take (next.1 - fpos)).length = next.1 := by
    rw [List.length_take]
    omega
  rw [appendLoop_reach hne (by omega) (by omega) (by omega) hreach, Outcome.bind_of_error hcheck]
  refine ⟨checkNext_log hblocks hlog hcut, _, _, checkNext_cut hcut, ?_⟩
  apply stacked_pushBack hblocks hend (hdata.take _)
  · omega
  · rw [hupTo]
    exact next_le hblocks

/-- The data ends in the next block, whose tail comes along. -/
theorem appendLoop_grows_ends (hne : newData ≠ []) (hreach : next.1 ≤ fpos + newData.length)
    (hends : fpos + newData.length ≤ next.1 + next.2.data.length)
    (hcheck : (checkNext base fpos newData next w).result = .ok ()) :
    Grows P pre base (appendLoop base (next :: rest) newData fpos w) := by
  have hroom : base + v.data.length ≤ next.1 := mem_after hblocks next (List.mem_cons_self ..)
  have hstop := next_stop hblocks
  have hended : fpos + (newData ++ next.2.data.drop (fpos + newData.length - next.1)).length =
      next.1 + next.2.data.length := by
    rw [List.length_append, List.length_drop]
    omega
  have hnext := hblocks.bears (next.1, next.2.data) (by simp)
  have htail := hnext.drop (fpos + newData.length - next.1)
  rw [Nat.add_sub_cancel' hreach] at htail
  rw [appendLoop_ends hne (by omega) (by omega) (by omega) hreach hends hcheck]
  refine ⟨afterNext_log hblocks hlog hcut, _, _, afterNext_ends hcut (by omega) hreach hends, ?_⟩
  apply stacked_pushBack (stacked_skip hblocks) hend (Segments.bears_append.mpr ⟨hdata, htail⟩)
  · rwa [hended]
  · rw [hended]
    exact mem_after_next hblocks

end Grow

theorem appendLoop_grows (hlog : w.LogInBounds) (hcut : w.file.svf.entries = pre ++ (base, v) :: rest)
    (hblocks : Segments.Stacked P (2 ^ 64) (segmentsOf (pre ++ (base, v) :: rest)))
    (hend : base + v.data.length = fpos) (hfit : fpos + newData.length < 2 ^ 64)
    (hdata : Segments.Bears P (fpos, newData)) : Grows P pre base (appendLoop base rest newData fpos w) := by
  rcases eq_or_ne newData [] with rfl | hne
  · rw [appendLoop_nil_data]
    exact ⟨hlog, v, rest, hcut, hblocks⟩
  · induction rest generalizing w v newData fpos with
    | nil =>
      rw [appendLoop_last hne]
      exact ⟨(hlog.pushBack base newData).addBytes _, _, [], pushBack_cut hcut newData,
        stacked_pushBack hblocks hend hdata hfit (List.forall_mem_nil _)⟩
    | cons next rest ih =>
      rcases Nat.lt_or_ge (fpos + newData.length) next.1 with hshort | hreach
      · rw [appendLoop_short hne hfit hshort]
        exact ⟨(hlog.pushBack base newData).addBytes _, _, _, pushBack_cut hcut newData,
          stacked_pushBack hblocks hend hdata hfit fun e he => hshort.le.trans (next_le hblocks e he)⟩
      · cases hcheck : (checkNext base fpos newData next w).result with
        | error e => exact appendLoop_grows_throws hblocks hlog hcut hend hdata hne hreach hcheck
        | ok _ =>
          rcases Nat.lt_or_ge (next.1 + next.2.data.length) (fpos + newData.length) with hpasses | hends
          · have hroom : base + v.data.length ≤ next.1 := mem_after hblocks next (List.mem_cons_self ..)
            have hpassed : fpos + (newData.take (next.1 + next.2.data.length - fpos)).length =
                next.1 + next.2.data.length := by
              rw [List.length_take]
              omega
            have hgrown := stacked_pushBack (stacked_skip hblocks) hend (hdata.take _)
              (by rw [hpassed]; exact next_stop hblocks) (by rw [hpassed]; exact mem_after_next hblocks)
            have hdrop := hdata.drop (next.1 + next.2.data.length - fpos)
            rw [show fpos + (next.1 + next.2.data.length - fpos) = next.1 + next.2.data.length by omega] at hdrop
            rw [appendLoop_passes (by omega) hfit hpasses hcheck]
            apply ih (afterNext_log hblocks hlog hcut) (afterNext_passes hcut (by omega) hpasses) hgrown
            · rw [Val.pushBack_data, List.length_append, ← Nat.add_assoc, hend, hpassed]
            · rw [List.length_drop]
              omega
            · exact hdrop
            · apply List.ne_nil_of_length_pos
              rw [List.length_drop]
              omega
          · exact appendLoop_grows_ends hblocks hlog hcut hend hdata hne hreach hends hcheck

end Walks

/-! ### The calls -/

/-- The blocks lie in order, and hold what `P` lets stand there; all that was logged was within
bounds. -/
structure Orderly (P : Nat → Byte → Prop) (w : World) : Prop where
  log : w.LogInBounds
  blocks : Segments.Stacked P (2 ^ 64) w.file.segments

section Calls
variable {P Q : Nat → Byte → Prop} {w : World} {fpos : Nat} {data : List Byte} {pre post : List (Nat × Val)}

theorem Orderly.mono (h : w.Orderly P) (hmono : ∀ p x, P p x → Q p x) : w.Orderly Q := ⟨h.log, h.blocks.mono hmono⟩

theorem Orderly.within (h : w.Orderly P) : ∀ iter ∈ w.file.svf.entries, iter.1 + iter.2.data.length < 2 ^ 64 :=
  fun iter hiter => h.blocks.below _ (mem_segmentsOf.mpr ⟨iter, hiter, rfl⟩)

theorem Orderly.shrunk {w' : World} (h : w.Orderly P) (hshrunk : Shrunk w w') : w'.Orderly P :=
  ⟨h.log.of_sound hshrunk.sound, h.blocks.sublist (hshrunk.blocks.map _)⟩

/-- A block of its own, put in where there is room for it. -/
theorem writeNewBlock_orderly (h : w.Orderly P) (hcut : w.file.svf.entries = pre ++ post) (hdata : data ≠ [])
    (hfit : fpos + data.length < 2 ^ 64) (hbears : Segments.Bears P (fpos, data))
    (hpre : ∀ e ∈ pre, e.1 + e.2.data.length ≤ fpos) (hpost : ∀ e ∈ post, fpos + data.length ≤ e.1) :
    (w.writeNewBlock fpos data).world.Orderly P := by
  have hlen := List.length_pos_iff.mpr hdata
  have hbefore : ∀ e ∈ pre, e.1 < fpos := by
    intro e he
    have hne := h.blocks.nonempty (e.1, e.2.data) (mem_segmentsOf.mpr ⟨e, by simp [hcut, he], rfl⟩)
    have := List.length_pos_iff.mpr hne
    have := hpre e he
    simp only at *
    omega
  have hafter : ∀ e ∈ post, fpos < e.1 := by
    intro e he
    have := hpost e he
    omega
  refine ⟨h.log.of_sound (writeNewBlock_written data hcut hbefore hafter).2, ?_⟩
  have hblocks := h.blocks
  rw [SparseVirtualFile.segments, hcut, segmentsOf_append] at hblocks
  rw [SparseVirtualFile.segments, writeNewBlock_entries data hcut hbefore hafter, segmentsOf_append, segmentsOf_cons]
  apply Segments.Stacked.insert (s := (fpos, data)) hblocks hdata hfit hbears
  · intro t ht
    obtain ⟨e, he, rfl⟩ := mem_segmentsOf.mp ht
    exact hpre e he
  · intro t ht
    obtain ⟨e, he, rfl⟩ := mem_segmentsOf.mp ht
    exact hpost e he

/-- Where a write puts a block of its own that does not run into the next one, there is room. -/
theorem newBlock_orderly (h : w.Orderly P) (hdata : data ≠ []) (hfit : fpos + data.length < 2 ^ 64)
    (hbears : Segments.Bears P (fpos, data)) (hrun : ¬ w.file.RunsIntoNext fpos data.length)
    (hcase : w.file.PutsNew fpos data.length) : (w.writeNewBlock fpos data).world.Orderly P := by
  have hblocks := h.blocks
  rw [SparseVirtualFile.segments] at hblocks
  -- Of the blocks up to one of them, that one ends last.
  have hupTo : ∀ {pre : List (Nat × Val)} {iter : Nat × Val} {rest : List (Nat × Val)},
      w.file.svf.entries = pre ++ iter :: rest → filePositionImmediatlyAfterBlock iter < fpos →
      ∀ e ∈ pre ++ [iter], e.1 + e.2.data.length < fpos := by
    intro pre iter rest hcut hpast e he
    rw [filePositionImmediatlyAfterBlock_of_lt (h.within iter (by simp [hcut]))] at hpast
    rw [hcut, segmentsOf_append, segmentsOf_cons] at hblocks
    rcases List.mem_append.mp he with he | he
    · have hle : e.1 + e.2.data.length ≤ iter.1 := hblocks.around.1 _ (mem_segmentsOf.mpr ⟨e, he, rfl⟩)
      omega
    · rwa [List.mem_singleton.mp he]
  cases hcase with
  | first hempty =>
    exact writeNewBlock_orderly h (hempty.trans (List.nil_append []).symm) hdata hfit hbears
      (List.forall_mem_nil _) (List.forall_mem_nil _)
  | last hpast =>
    apply writeNewBlock_orderly h (List.append_nil _).symm hdata hfit hbears _ (List.forall_mem_nil _)
    rcases List.eq_nil_or_concat' w.file.svf.entries with hempty | ⟨front, last, hcut⟩
    · rw [hempty]
      exact List.forall_mem_nil _
    · rw [SparseVirtualFile.end_of_concat hcut] at hpast
      rw [hcut]
      exact fun e he => (hupTo hcut hpast e he).le
  | before iter rest hcut hlt hshort =>
    rw [sizeAdd_of_lt hfit] at hshort
    apply writeNewBlock_orderly h (hcut.trans (List.nil_append _).symm) hdata hfit hbears (List.forall_mem_nil _)
    exact fun e he => (OrderedMap.lt_of_first hcut hshort e he).le
  | after pre iter rest hcut hle hrest hpast =>
    have hbefore := hupTo hcut hpast
    rw [List.append_cons] at hcut
    apply writeNewBlock_orderly h hcut hdata hfit hbears fun e he => (hbefore e he).le
    intro next hnext
    by_contra hreach
    apply hrun
    refine ⟨⟨_, SparseVirtualFile.mem_blocks.mpr ⟨iter, by simp [hcut], rfl⟩, hle⟩, ?_,
      _, SparseVirtualFile.mem_blocks.mpr ⟨next, by simp [hcut, hnext], rfl⟩, hrest next hnext, by dsimp only; omega⟩
    intro b hb hble
    obtain ⟨e, he, rfl⟩ := SparseVirtualFile.mem_blocks.mp hb
    rw [hcut] at he
    rcases List.mem_append.mp he with he | he
    · exact hbefore e he
    · have := hrest e he
      dsimp only at hble
      omega

theorem writeNewAppendOld_orderly {iter : Nat × Val} {rest : List (Nat × Val)} (h : w.Orderly P)
    (hcut : w.file.svf.entries = iter :: rest) (hlt : fpos < iter.1) (hreach : iter.1 ≤ fpos + data.length)
    (hfit : fpos + data.length < 2 ^ 64) (hbears : Segments.Bears P (fpos, data)) :
    (w.writeNewAppendOld fpos data (iter :: rest)).world.Orderly P := by
  have hblocks := h.blocks
  rw [SparseVirtualFile.segments, hcut] at hblocks
  have hahead : ∀ e ∈ iter :: rest, fpos ≤ e.1 := fun e he => (OrderedMap.lt_of_first hcut hlt e he).le
  have hentered : (enterPrepend fpos data (iter :: rest) w).LogInBounds := (h.log.assert _).assert _
  have hwalk : Fronts P fpos (iter :: rest) (prependLoop (fpos + data.length) (iter :: rest) data fpos []
      (enterPrepend fpos data (iter :: rest) w)) :=
    prependLoop_fronts hentered hcut hblocks hahead ⟨iter, rfl, hreach⟩ hfit hbears (Segments.bears_nil P fpos) rfl
  have hleft := hblocks.sublist (hwalk.suffix.sublist.map _)
  rw [writeNewAppendOld_eq hfit]
  cases hresult : (prependLoop (fpos + data.length) (iter :: rest) data fpos []
      (enterPrepend fpos data (iter :: rest) w)).result with
  | error e =>
    rw [Outcome.bind_of_error hresult]
    exact ⟨hwalk.log, hleft⟩
  | ok b =>
    have hbuilt := hwalk.built b hresult
    have hpos := List.length_pos_iff.mpr hbuilt.nonempty
    obtain ⟨hinsert, hentries, -, -, hlog⟩ := insertNew_cut "SparseVirtualFile::write():"
      (v := ⟨b.1, w.file.blockTouch⟩) (List.nil_append _).symm (List.forall_mem_nil _) fun e he =>
        (Nat.lt_add_of_pos_right hpos).trans_le (hbuilt.clear e he)
    have hlogged := (hwalk.log.of_sound (SoundLog.of_log_eq hlog)).assert b.2.1.isEmpty
    rw [Outcome.bind_of_ok hresult, Outcome.bind_of_ok hinsert]
    refine ⟨hlogged.assert (b.2.2 == fpos + data.length), ?_⟩
    show Segments.Stacked P (2 ^ 64) (segmentsOf _)
    rw [Outcome.returned_world, emit_file, emit_file, hentries]
    apply Segments.Stacked.insert (s := (fpos, b.1)) (a := []) hleft hbuilt.nonempty hbuilt.below hbuilt.bears
      (List.forall_mem_nil _)
    intro t ht
    obtain ⟨e, he, rfl⟩ := mem_segmentsOf.mp ht
    exact hbuilt.clear e he

theorem checkBase_inBounds {base : Nat × Val} (h : w.LogInBounds) (hle : base.1 ≤ fpos)
    (hstop : fpos ≤ base.1 + base.2.data.length) (hwithin : base.1 + base.2.data.length < 2 ^ 64) :
    (checkBase fpos data base w).world.LogInBounds := by
  have hindex : sizeSub fpos base.1 = fpos - base.1 := sizeSub_of_le hle (by omega)
  have hentered : (enterAppend fpos data base w).LogInBounds := by
    apply ((((h.assert _).assert _).assert _).subtract hle).subtract
    omega
  apply hentered.diffCheck
  · omega
  · omega

theorem writeAppendNewToOld_orderly {base : Nat × Val} {rest : List (Nat × Val)} (h : w.Orderly P)
    (hcut : w.file.svf.entries = pre ++ base :: rest) (hle : base.1 ≤ fpos)
    (hstop : fpos ≤ base.1 + base.2.data.length)
    (hfit : fpos + data.length < 2 ^ 64) (hbears : Segments.Bears P (fpos, data)) :
    (w.writeAppendNewToOld fpos data base rest).world.Orderly P := by
  have hwithin := h.within base (by simp [hcut])
  have hblocks := h.blocks
  rw [SparseVirtualFile.segments, hcut] at hblocks
  have hchecked : (checkBase fpos data base w).world.LogInBounds := checkBase_inBounds h.log hle hstop hwithin
  rw [writeAppendNewToOld_eq hle hstop (by omega) (by omega) fun _ => hwithin]
  cases hcheck : (checkBase fpos data base w).result with
  | error e =>
    rw [Outcome.bind_of_error hcheck]
    refine ⟨hchecked, ?_⟩
    rw [checkBase_file]
    exact h.blocks
  | ok _ =>
    have hdrop := hbears.drop (base.1 + base.2.data.length - fpos)
    rw [Nat.add_sub_cancel' hstop] at hdrop
    have hwalk : Grows P pre base.1 (appendLoop base.1 rest (data.drop (base.1 + base.2.data.length - fpos))
        (base.1 + base.2.data.length) (checkBase fpos data base w).world) := by
      apply appendLoop_grows hchecked _ hblocks rfl _ hdrop
      · rw [checkBase_file]
        exact hcut
      · rw [List.length_drop]
        omega
    obtain ⟨v, later, hentries, hgrown⟩ := hwalk.blocks
    rw [Outcome.bind_of_ok hcheck]
    cases hresult : (appendLoop base.1 rest (data.drop (base.1 + base.2.data.length - fpos))
        (base.1 + base.2.data.length) (checkBase fpos data base w).world).result with
    | error e =>
      rw [Outcome.bind_of_error hresult]
      refine ⟨hwalk.log, ?_⟩
      rwa [SparseVirtualFile.segments, hentries]
    | ok left =>
      have hlogged : ((appendLoop base.1 rest (data.drop (base.1 + base.2.data.length - fpos))
          (base.1 + base.2.data.length) (checkBase fpos data base w).world).world.touch base.1).LogInBounds :=
        hwalk.log
      rw [Outcome.bind_of_ok hresult]
      refine ⟨hlogged.assert left.isEmpty, ?_⟩
      rw [SparseVirtualFile.segments, Outcome.returned_world, emit_file, touch_cut hentries]
      simpa using hgrown

/-- Whatever a write is given, it leaves the blocks in order; what it gives may stand there. -/
theorem write_orderly (h : w.Orderly P) (now : Int) (hdata : data ≠ []) (hfit : fpos + data.length < 2 ^ 64)
    (hrun : ¬ w.file.RunsIntoNext fpos data.length) (hbears : Segments.Bears P (fpos, data)) :
    (w.write now fpos data).world.Orderly P := by
  have hwritten : (w.writeBlocks fpos data).world.Orderly P := by
    cases writeBlocks_cases fpos data w with
    | newBlock heq hcase =>
      rw [heq]
      exact newBlock_orderly h hdata hfit hbears hrun hcase
    | newAppendOld iter rest heq hcut hlt hreach _ =>
      rw [heq]
      rw [sizeAdd_of_lt hfit] at hreach
      exact writeNewAppendOld_orderly h hcut hlt hreach hfit hbears
    | appendNewToOld pre iter rest heq hcut hle _ hstop _ =>
      rw [heq]
      rw [filePositionImmediatlyAfterBlock_of_lt (h.within iter (by simp [hcut]))] at hstop
      exact writeAppendNewToOld_orderly h hcut hle hstop hfit hbears
  exact Outcome.bind_world hwritten fun _ w hw => ⟨hw.log, hw.blocks⟩

theorem clear_orderly (h : w.Orderly P) : w.clear.Orderly Q := by
  refine ⟨h.log.of_sound (sound_clear w), ?_⟩
  rw [clear_file]
  exact Segments.stacked_nil

theorem read_orderly (h : w.Orderly P) (now : Int) {len : Nat} (hfpos : fpos < 2 ^ 64) (hlen : len < 2 ^ 64)
    (hwraps : ¬ w.file.WrapsInto fpos len) : (w.read now fpos len).world.Orderly P := by
  refine ⟨h.log.of_sound (sound_read hfpos hlen hwraps), ?_⟩
  rw [(read_segments now fpos len w).1]
  exact h.blocks

end Calls
end World
end Svfs
