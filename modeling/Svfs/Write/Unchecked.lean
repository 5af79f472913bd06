import Svfs.Evict.Remove
import Svfs.Write.Fixed
import Svfs.Write.Insert

/-! Two files that differ in their configuration.

No path of the class asks `overwrite_on_exit` but to overwrite a buffer that is let go of, and
none asks `compare_for_diff` but to look for a difference to throw. Two files that are the
same but for their configuration (`SameBut`) end every call the same way and stay the same, as
long as the one that looks for differences throws none that the other does not look for
(`KeepsUp`). Overwriting does change what lies outside the buffers, so the runs compared look
there nowhere. -/
namespace Svfs

/-- The same file but for its configuration. Where `lax`, the second looks for no differences;
otherwise it does if the first does. It has looked outside no buffer if the first has not. -/
structure SameBut (lax : Prop) (w w' : World) : Prop where
  file : w'.file = {w.file with config := w'.file.config}
  off : lax → w'.file.config.compareForDiff = false
  agrees : ¬ lax → w'.file.config.compareForDiff = w.file.config.compareForDiff
  log : w.LogInBuffers → w'.LogInBuffers

/-- The second call ends as the first does, but where the first throws a difference that the
second does not look for. -/
structure KeepsUp (lax : Prop) {α : Type} (o o' : Outcome α) : Prop where
  same : (o'.result = o.result ∧ SameBut lax o.world o'.world) ∨ lax ∧ ∃ m, o.result = .error (.diff m)
  quiet : lax → ∀ m, o'.result ≠ .error (.diff m)
  off : lax → o'.file.config.compareForDiff = false

theorem SameBut.refl {lax : Prop} {w : World} (hoff : lax → w.file.config.compareForDiff = false) :
    SameBut lax w w := ⟨rfl, hoff, fun _ => rfl, id⟩

namespace SameBut
variable {lax : Prop} {w w' v v' : World} (h : SameBut lax w w')
include h

theorem svf : w'.file.svf = w.file.svf := by rw [h.file]
theorem bytesTotal : w'.file.bytesTotal = w.file.bytesTotal := by rw [h.file]
theorem blockTouch : w'.file.blockTouch = w.file.blockTouch := by rw [h.file]

/-- What a step does that does not ask for the configuration. -/
theorem map (f : SparseVirtualFile → SparseVirtualFile)
    (hf : ∀ s config, f {s with config := config} = {f s with config := config})
    (hv : v.file = f w.file) (hv' : v'.file = f w'.file) (hlog : v.LogInBuffers → v'.LogInBuffers) :
    SameBut lax v v' := by
  have hconfig : ∀ s, (f s).config = s.config := by
    intro s
    have heq := congrArg SparseVirtualFile.config (hf s s.config)
    exact heq
  refine ⟨?_, ?_, ?_, hlog⟩
  · rw [hv, hv', hconfig, ← hf, ← h.file]
  · rw [hv', hconfig]
    exact h.off
  · rw [hv, hv', hconfig, hconfig]
    exact h.agrees

/-- What leaves the files alone. -/
theorem of_file (hv : v.file = w.file) (hv' : v'.file = w'.file) (hlog : v.LogInBuffers → v'.LogInBuffers) :
    SameBut lax v v' := h.map id (fun _ _ => rfl) hv hv' hlog

theorem emit (e e' : Event) (he : e.InBuffer → e'.InBuffer) : SameBut lax (w.emit e) (w'.emit e') :=
  h.of_file rfl rfl fun hlog =>
    (h.log (List.forall_mem_cons.mp hlog).2).emit (he (List.forall_mem_cons.mp hlog).1)

theorem assert (holds holds' : Bool) : SameBut lax (w.emit (.assertion holds)) (w'.emit (.assertion holds')) :=
  h.emit _ _ fun _ => trivial

theorem addBytes (n : Nat) : SameBut lax (w.addBytes n) (w'.addBytes n) :=
  h.map (fun s => {s with bytesTotal := sizeAdd s.bytesTotal n}) (fun _ _ => rfl) rfl rfl h.log

theorem pushBack (k : Nat) (bytes : List Byte) : SameBut lax (w.pushBack k bytes) (w'.pushBack k bytes) :=
  h.map (fun s => {s with svf := s.svf.modify k (Val.pushBack bytes)}) (fun _ _ => rfl) rfl rfl h.log

theorem nextTouch : SameBut lax {w with file := {w.file with blockTouch := touchSucc w.file.blockTouch}}
    {w' with file := {w'.file with blockTouch := touchSucc w'.file.blockTouch}} :=
  h.map (fun s => {s with blockTouch := touchSucc s.blockTouch}) (fun _ _ => rfl) rfl rfl h.log

theorem touch (k : Nat) : SameBut lax (w.touch k) (w'.touch k) :=
  h.map (fun s => {s with
    svf := s.svf.modify k fun v => {v with blockTouch := s.blockTouch}
    blockTouch := touchSucc s.blockTouch}) (fun _ _ => rfl) rfl rfl h.log

theorem eraseIter (k : Nat) : SameBut lax (w.eraseIter k) (w'.eraseIter k) :=
  h.map (fun s => {s with svf := s.svf.erase k}) (fun _ _ => rfl) rfl rfl
    (h.emit (.discard k (w.blockData k)) (.discard k (w'.blockData k)) fun _ => trivial).log

/-- The bytes are gone, overwritten or not. -/
theorem swallow (k : Nat) : SameBut lax (w.swallow k) (w'.swallow k) := by
  have hfile : ∀ w : World, (w.swallow k).file = {w.file with svf := w.file.svf.erase k} := by
    intro w
    unfold World.swallow
    split
    · show {w.file with svf := (w.file.svf.modify k Val.overwrite).erase k} = _
      rw [OrderedMap.erase_modify]
    · rfl
  exact h.map (fun s => {s with svf := s.svf.erase k}) (fun _ _ => rfl) (hfile w) (hfile w') fun hlog =>
    World.logInBuffers_swallow.mpr (h.log (World.logInBuffers_swallow.mp hlog))

theorem blockData (k : Nat) : w'.blockData k = w.blockData k := by rw [World.blockData, World.blockData, h.svf]

end SameBut

namespace KeepsUp
variable {lax : Prop} {α β : Type}

theorem returned {w w' : World} (h : SameBut lax w w') (a : α) : KeepsUp lax (.returned a w) (.returned a w') :=
  ⟨.inl ⟨rfl, h⟩, nofun, h.off⟩

theorem threw {w w' : World} (h : SameBut lax w w') {e : Exception} (he : ∀ m, e ≠ .diff m) :
    KeepsUp lax (.threw e w : Outcome α) (.threw e w') :=
  ⟨.inl ⟨rfl, h⟩, fun _ m heq => he m (Except.error.inj heq), h.off⟩

/-- What comes after such a call. -/
theorem bind {o o' : Outcome α} {f f' : α → World → Outcome β} (h : KeepsUp lax o o')
    (hf : ∀ a v v', SameBut lax v v' → KeepsUp lax (f a v) (f' a v')) : KeepsUp lax (o.bind f) (o'.bind f') := by
  -- The second goes on after a difference as it would from a file that is the same.
  have hgoes : ∀ a, KeepsUp lax (f a o'.world) (f' a o'.world) := fun a => hf a _ _ (.refl h.off)
  refine ⟨?_, fun hlax => ?_, fun hlax => ?_⟩
  · rcases h.same with ⟨hresult, hworld⟩ | ⟨hlax, m, hm⟩
    · cases hr : o.result with
      | ok a =>
        rw [Outcome.bind_of_ok hr, Outcome.bind_of_ok (hresult.trans hr)]
        exact (hf a _ _ hworld).same
      | error e =>
        rw [Outcome.bind_of_error hr, Outcome.bind_of_error (hresult.trans hr)]
        exact .inl ⟨rfl, hworld⟩
    · rw [Outcome.bind_of_error hm]
      exact .inr ⟨hlax, m, rfl⟩
  · cases hr : o'.result with
    | ok a =>
      rw [Outcome.bind_of_ok hr]
      exact (hgoes a).quiet hlax
    | error e =>
      rw [Outcome.bind_of_error hr]
      intro m hm
      exact h.quiet hlax m (by rw [hr, Except.error.inj hm])
  · cases hr : o'.result with
    | ok a =>
      rw [Outcome.bind_of_ok hr]
      exact (hgoes a).off hlax
    | error e =>
      rw [Outcome.bind_of_error hr]
      exact h.off hlax

end KeepsUp

namespace World
variable {lax : Prop} {w w' : World} (h : SameBut lax w w')
include h

/-! ### Writing -/

theorem keepsUp_insertNew (caller : String) (fpos : Nat) {v v' : Val} (hv : v' = v) :
    KeepsUp lax (w.insertNew caller fpos v) (w'.insertNew caller fpos v') := by
  subst hv
  have hmap : SameBut lax {w with file := {w.file with svf := w.file.svf.insert fpos v'}}
      {w' with file := {w'.file with svf := w'.file.svf.insert fpos v'}} :=
    h.map (fun s => {s with svf := s.svf.insert fpos v'}) (fun _ _ => rfl) rfl rfl h.log
  unfold insertNew
  rw [h.svf] at hmap ⊢
  dsimp only
  split
  · exact .threw hmap nofun
  · exact .returned hmap ()

theorem diffCheck_log {fpos : Nat} {data block : List Byte} {offset len : Nat} {probed : List Byte} {indexIter : Nat}
    (hlog : (w.diffCheck fpos data block offset len probed indexIter).world.LogInBuffers) :
    (w'.diffCheck fpos data block offset len probed indexIter).world.LogInBuffers := by
  by_cases hlax : lax
  · obtain ⟨_, es, hes, _⟩ := diffCheck_alike (Eq.refl w.file.config.compareForDiff) fpos data block offset len probed
      indexIter
    rw [diffCheck, h.off hlax]
    exact h.log ((logInBuffers_append_iff hes).mp hlog).2
  · obtain ⟨_, es, hes, hes'⟩ := diffCheck_alike (h.agrees hlax) fpos data block offset len probed indexIter
    have hsplit := (logInBuffers_append_iff hes).mp hlog
    exact (logInBuffers_append_iff hes').mpr ⟨hsplit.1, h.log hsplit.2⟩

/-- A file that does not look goes on where one that looks may throw. -/
theorem keepsUp_diffCheck (fpos : Nat) (data block : List Byte) (offset len : Nat) (probed : List Byte)
    (indexIter : Nat) : KeepsUp lax (w.diffCheck fpos data block offset len probed indexIter)
      (w'.diffCheck fpos data block offset len probed indexIter) := by
  have hworld : SameBut lax (w.diffCheck fpos data block offset len probed indexIter).world
      (w'.diffCheck fpos data block offset len probed indexIter).world :=
    h.of_file diffCheck_file diffCheck_file (diffCheck_log h)
  refine ⟨?_, fun hlax => ?_, fun hlax => ?_⟩
  · by_cases hlax : lax
    · cases diffCheck_compared fpos data block offset len probed indexIter w with
      | trips m _ _ heq => exact .inr ⟨hlax, m, by rw [heq]; rfl⟩
      | skipped heq | agrees heq | misses _ heq =>
        refine .inl ⟨?_, hworld⟩
        rw [heq, diffCheck, h.off hlax]
        rfl
    · exact .inl ⟨(diffCheck_alike (h.agrees hlax) ..).1, hworld⟩
  · rw [diffCheck, h.off hlax]
    simp
  · rw [Outcome.file, diffCheck_file]
    exact h.off hlax

theorem keepsUp_prependLoop (iters : List (Nat × Val)) (fposEnd : Nat) (data : List Byte) (fpos : Nat)
    (built : List Byte) :
    KeepsUp lax (prependLoop fposEnd iters data fpos built w) (prependLoop fposEnd iters data fpos built w') := by
  induction iters generalizing data fpos built w w' with
  | nil => exact .returned h _
  | cons iter rest ih =>
    unfold prependLoop
    dsimp only
    refine KeepsUp.bind (keepsUp_diffCheck (h.addBytes _) ..) fun _ v v' hv => ?_
    split
    · exact .returned (((hv.assert _ _).emit _ _ id).swallow _) _
    · split
      · exact .returned ((hv.swallow _).addBytes _) _
      · exact ih (hv.swallow _) ..

theorem keepsUp_appendLoop (rest : List (Nat × Val)) (base : Nat) (newData : List Byte) (fpos : Nat) :
    KeepsUp lax (appendLoop base rest newData fpos w) (appendLoop base rest newData fpos w') := by
  induction rest generalizing newData fpos w w' with
  | nil =>
    unfold appendLoop
    split
    · exact .returned h _
    · exact .returned ((h.pushBack base newData).addBytes _) _
  | cons next rest ih =>
    have hpush := fun bytes : List Byte => (h.pushBack base bytes).addBytes bytes.length
    unfold appendLoop
    dsimp only
    split
    · exact .returned h _
    · split
      · exact .returned (hpush _) _
      · refine KeepsUp.bind ?_ fun _ v v' hv => ih (SameBut.swallow ?_ _) ..
        · split
          · exact .returned ((hpush _).emit _ _ id) _
          · rw [((hpush _).emit _ _ id).blockData]
            exact keepsUp_diffCheck ((hpush _).emit _ _ id) ..
        · split
          · exact ((hv.pushBack base _).emit _ _ id).pushBack base _
          · exact hv.pushBack base _

theorem keepsUp_writeNewBlock (fpos : Nat) (data : List Byte) :
    KeepsUp lax (w.writeNewBlock fpos data) (w'.writeNewBlock fpos data) := by
  unfold writeNewBlock
  exact keepsUp_insertNew ((h.assert _ _).nextTouch.addBytes data.length) _ _ (congrArg (Val.mk data) h.blockTouch)

theorem keepsUp_writeNewAppendOld (fpos : Nat) (data : List Byte) (iters : List (Nat × Val)) :
    KeepsUp lax (w.writeNewAppendOld fpos data iters) (w'.writeNewAppendOld fpos data iters) := by
  unfold writeNewAppendOld
  refine KeepsUp.bind (keepsUp_prependLoop ((h.assert _ _).assert _ _).nextTouch ..) fun built v v' hv => ?_
  refine KeepsUp.bind (keepsUp_insertNew hv _ _ (congrArg (Val.mk _) h.blockTouch)) fun _ v v' hv => ?_
  exact .returned ((hv.assert _ _).assert _ _) ()

theorem keepsUp_writeAppendNewToOld (fpos : Nat) (data : List Byte) (base : Nat × Val) (rest : List (Nat × Val)) :
    KeepsUp lax (w.writeAppendNewToOld fpos data base rest) (w'.writeAppendNewToOld fpos data base rest) := by
  have hstart := ((((h.assert (0 < data.length) (0 < data.length)).assert (base.1 ≤ fpos) (base.1 ≤ fpos)).assert
    (fpos ≤ filePositionImmediatlyAfterBlock base) (fpos ≤ filePositionImmediatlyAfterBlock base)).emit
    (.subtract fpos base.1) (.subtract fpos base.1) id).emit (.subtract base.2.data.length (sizeSub fpos base.1))
    (.subtract base.2.data.length (sizeSub fpos base.1)) id
  unfold writeAppendNewToOld
  refine KeepsUp.bind (keepsUp_diffCheck hstart ..) fun _ v v' hv => ?_
  refine KeepsUp.bind (keepsUp_appendLoop hv ..) fun left v v' hv => ?_
  exact .returned ((hv.touch _).assert _ _) ()

theorem keepsUp_writeBlocks (fpos : Nat) (data : List Byte) :
    KeepsUp lax (w.writeBlocks fpos data) (w'.writeBlocks fpos data) := by
  have hend : w'.file.filePositionImmediatlyAfterEnd = w.file.filePositionImmediatlyAfterEnd := by
    rw [h.file]
    rfl
  unfold writeBlocks
  rw [h.svf, hend]
  split
  · exact keepsUp_writeNewBlock h fpos data
  · split
    · exact .returned h ()
    · split
      · split
        · exact keepsUp_writeNewAppendOld h ..
        · exact keepsUp_writeNewBlock h fpos data
      · split
        · exact keepsUp_writeNewBlock h fpos data
        · exact keepsUp_writeAppendNewToOld h ..

theorem keepsUp_write (now : Int) (fpos : Nat) (data : List Byte) :
    KeepsUp lax (w.write now fpos data) (w'.write now fpos data) := by
  refine KeepsUp.bind (keepsUp_writeBlocks h fpos data) fun _ v v' hv => .returned ?_ ()
  exact hv.map (fun s => {s with
    countWrite := sizeAdd s.countWrite 1
    bytesWrite := sizeAdd s.bytesWrite data.length
    timeWrite := now}) (fun _ _ => rfl) rfl rfl hv.log

/-! ### Reading and removing -/

theorem keepsUp_read (now : Int) (fpos len : Nat) : KeepsUp lax (w.read now fpos len) (w'.read now fpos len) := by
  have hfrom : ∀ (iter : Nat × Val) (offset : Nat),
      KeepsUp lax (w.readFrom now fpos len iter offset) (w'.readFrom now fpos len iter offset) := by
    intro iter offset
    unfold readFrom
    split
    · exact .threw h nofun
    · refine .returned ?_ _
      exact h.map (fun s => {s with
        svf := s.svf.modify iter.1 fun v => {v with blockTouch := s.blockTouch}
        blockTouch := touchSucc s.blockTouch
        bytesRead := sizeAdd s.bytesRead len
        countRead := sizeAdd s.countRead 1
        timeRead := now}) (fun _ _ => rfl) rfl rfl
        (h.emit (.copy iter.2.data.length offset len) (.copy iter.2.data.length offset len) id).log
  unfold read
  rw [h.svf]
  split
  · exact .threw h nofun
  · dsimp only
    split
    · exact .threw h nofun
    · split
      · exact .threw h nofun
      · exact hfrom ..

theorem keepsUp_erase (fpos : Nat) : KeepsUp lax (w.erase fpos) (w'.erase fpos) := by
  unfold erase
  rw [h.svf]
  split
  · exact .threw h nofun
  · rename_i v _
    refine .returned ?_ _
    exact h.map (fun s => {s with
      svf := s.svf.erase fpos
      bytesTotal := sizeSub s.bytesTotal v.data.length
      blocksErased := sizeAdd s.blocksErased 1
      bytesErased := sizeAdd s.bytesErased v.data.length}) (fun _ _ => rfl) rfl rfl
      (h.emit (.discard fpos _) (.discard fpos _) fun _ => trivial).log

theorem sameBut_clear : SameBut lax w.clear w'.clear := by
  refine h.map (fun s => SparseVirtualFile.new s.id s.fileModTime s.config) (fun _ _ => rfl) ?_ ?_ fun hlog => ?_
  · exact clear_file w
  · exact clear_file w'
  · exact (h.log (LogInBuffers.of_later hlog (sound_clear w))).of_sound (sound_clear w')

theorem keepsUp_lruPuntLoop (bound : Nat) (touches : List (Nat × Nat)) (ret : Nat) :
    KeepsUp lax (lruPuntLoop bound touches ret w) (lruPuntLoop bound touches ret w') := by
  induction touches generalizing ret w w' with
  | nil => exact .returned h ret
  | cons iter rest ih =>
    have hmust : w'.mustPunt bound = w.mustPunt bound := by rw [mustPunt, mustPunt, h.svf, h.bytesTotal]
    simp only [lruPuntLoop, hmust]
    split
    · refine KeepsUp.bind (keepsUp_erase h _) fun n v v' hv => ih ?_ _
      exact hv.map (fun s => {s with blocksPunted := sizeAdd s.blocksPunted 1}) (fun _ _ => rfl) rfl rfl hv.log
    · exact .returned h ret

theorem keepsUp_lruPunt (bound : Nat) : KeepsUp lax (w.lruPunt bound) (w'.lruPunt bound) := by
  have hmust : w'.mustPunt bound = w.mustPunt bound := by rw [mustPunt, mustPunt, h.svf, h.bytesTotal]
  have htouches : w'.file.blockTouches = w.file.blockTouches := by
    rw [h.file]
    rfl
  unfold lruPunt
  rw [hmust, htouches]
  refine KeepsUp.bind ?_ fun ret v v' hv => .returned ?_ ret
  · split
    · exact keepsUp_lruPuntLoop h ..
    · exact .returned h 0
  · exact hv.map (fun s => {s with bytesPunted := sizeAdd s.bytesPunted ret}) (fun _ _ => rfl) rfl rfl hv.log

theorem keepsUp_exec (c : Command) : KeepsUp lax (c.exec w) (c.exec w') := by
  cases c with
  | write now fpos data => exact KeepsUp.bind (keepsUp_write h now fpos data) fun _ v v' hv => .returned hv _
  | read now fpos len => exact KeepsUp.bind (keepsUp_read h now fpos len) fun data v v' hv => .returned hv _
  | erase fpos => exact KeepsUp.bind (keepsUp_erase h fpos) fun n v v' hv => .returned hv _
  | clear => exact .returned (sameBut_clear h) _
  | lruPunt bound => exact KeepsUp.bind (keepsUp_lruPunt h bound) fun n v v' hv => .returned hv _

end World

/-! ### Runs -/

/-- How a call ends. -/
def Command.answer (c : Command) (w : World) : Except Exception Reply := (c.exec w).result

/-- The call throws a difference. -/
def Command.Differs (c : Command) (w : World) : Prop := ∃ m, c.answer w = .error (.diff m)

section Runs
variable {lax : Prop} {w w' : World} (id : List Byte) (modTime : Float)

/-- The call is answered the same way, and leaves the same file, -/
theorem step_sameBut (h : SameBut lax w w') {c : Command} (hc : lax → ¬ c.Differs w) :
    c.answer w' = c.answer w ∧ SameBut lax (c.step w) (c.step w') := by
  rcases (World.keepsUp_exec h c).same with hsame | ⟨hlax, hdiffers⟩
  · exact hsame
  · exact absurd hdiffers (hc hlax)

/-- just if it throws no difference. -/
theorem answer_eq_iff (h : SameBut lax w w') (c : Command) :
    c.answer w' = c.answer w ↔ (lax → ¬ c.Differs w) := by
  refine ⟨fun heq hlax ⟨m, hm⟩ => ?_, fun hc => (step_sameBut h hc).1⟩
  exact (World.keepsUp_exec h c).quiet hlax m (heq.trans hm)

/-- A call that looks outside no buffer does not where the file is the same, either. -/
theorem inBuffers_sameBut (h : SameBut lax w w') {c : Command} (hc : lax → ¬ c.Differs w) (hbuffers : c.InBuffers w) :
    c.InBuffers w' := by
  have hunlogged : SameBut lax ⟨w.file, []⟩ ⟨w'.file, []⟩ := ⟨h.file, h.off, h.agrees, id⟩
  -- What was logged before is nothing to a call.
  have hbefore : SameBut False w ⟨w.file, []⟩ := ⟨rfl, False.elim, fun _ => rfl, fun _ => List.forall_mem_nil _⟩
  have hanswer : c.answer ⟨w.file, []⟩ = c.answer w := (step_sameBut hbefore False.elim).1
  have hquiet : lax → ¬ c.Differs ⟨w.file, []⟩ := by
    unfold Command.Differs at hc ⊢
    rwa [hanswer]
  exact (step_sameBut hunlogged hquiet).2.log hbuffers

/-- The run ends the same way, and looks outside no buffer. -/
structure RunsAlike (cs : List Command) (w w' : World) : Prop where
  answers : Run.answers Command.step Command.answer w' cs = Run.answers Command.step Command.answer w cs
  file : (Run.run Command.step w' cs).file = {(Run.run Command.step w cs).file with config := w'.file.config}
  buffers : Run.Along Command.step Command.InBuffers w' cs

theorem runsAlike_iff (h : SameBut lax w w') {cs : List Command}
    (hbuffers : Run.Along Command.step Command.InBuffers w cs) :
    RunsAlike cs w w' ↔ Run.Along Command.step (fun c w => lax → ¬ c.Differs w) w cs := by
  have hgo : ∀ (c : Command) (w w' : World), SameBut lax w w' → (lax → ¬ c.Differs w) →
      SameBut lax (c.step w) (c.step w') := fun c w w' h hc => (step_sameBut h hc).2
  have hanswers : Run.answers Command.step Command.answer w' cs = Run.answers Command.step Command.answer w cs ↔ _ :=
    Run.lockstep_answers_iff hgo (fun c w w' h => answer_eq_iff h c) h
  refine ⟨fun hrun => hanswers.mp hrun.answers, fun hrun => ⟨hanswers.mpr hrun, ?_, ?_⟩⟩
  · have hend := Run.lockstep_run hgo h hrun
    rw [hend.file, (run_fixed cs w').config]
  · exact Run.lockstep_along hgo (fun c w w' h hc => inBuffers_sameBut h hc) h hrun hbuffers

/-- A block grown over the next one, read, written over with another byte, and erased. -/
def grownRun : List Command :=
  [.write 0 0 [1, 2], .write 0 4 [5, 6], .write 0 1 [2, 3, 4, 5], .read 1 0 3, .write 2 0 [9], .erase 0]

/-- **`overwrite_on_exit` is not seen**: a run that looks outside no buffer is answered the same
way and leaves the same file. -/
theorem run_overwrite_unseen (compare overwrite overwrite' : Bool) (cs : List Command)
    (hbuffers : Run.Along Command.step Command.InBuffers (World.new id modTime ⟨overwrite, compare⟩) cs) :
    RunsAlike cs (World.new id modTime ⟨overwrite, compare⟩) (World.new id modTime ⟨overwrite', compare⟩) := by
  have hnew : SameBut False (World.new id modTime ⟨overwrite, compare⟩) (World.new id modTime ⟨overwrite', compare⟩) :=
    ⟨rfl, False.elim, fun _ => rfl, fun _ => List.forall_mem_nil _⟩
  exact (runsAlike_iff hnew hbuffers).mpr (Run.along_iff.mpr fun _ _ _ _ => False.elim)

/-- The block that goes is overwritten in the second file. -/
theorem run_overwrite_unseen_grownRun :
    RunsAlike grownRun (World.new [] 0 ⟨false, true⟩) (World.new [] 0 ⟨true, true⟩) :=
  run_overwrite_unseen [] 0 true false true grownRun (by decide)

/-- **`compare_for_diff` only throws**: without it a run is answered the same way and leaves the
same file just if it throws no difference with it. -/
theorem run_unchecked_iff (overwrite overwrite' : Bool) (cs : List Command)
    (hbuffers : Run.Along Command.step Command.InBuffers (World.new id modTime ⟨overwrite, true⟩) cs) :
    RunsAlike cs (World.new id modTime ⟨overwrite, true⟩) (World.new id modTime ⟨overwrite', false⟩) ↔
      Run.Along Command.step (fun c w => ¬ c.Differs w) (World.new id modTime ⟨overwrite, true⟩) cs := by
  have hnew : SameBut True (World.new id modTime ⟨overwrite, true⟩) (World.new id modTime ⟨overwrite', false⟩) :=
    ⟨rfl, fun _ => rfl, fun hlax => absurd trivial hlax, fun _ => List.forall_mem_nil _⟩
  rw [runsAlike_iff hnew hbuffers]
  simp only [true_implies]

/-- The byte written over another one is thrown out only where differences are looked for. -/
theorem run_unchecked_iff_grownRun :
    RunsAlike grownRun (World.new [] 0 ⟨false, true⟩) (World.new [] 0 ⟨false, false⟩) ↔
      Run.Along Command.step (fun c w => ¬ c.Differs w) (World.new [] 0 ⟨false, true⟩) grownRun :=
  run_unchecked_iff [] 0 false false grownRun (by decide)

end Runs
end Svfs
