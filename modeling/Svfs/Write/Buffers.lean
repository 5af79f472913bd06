import Svfs.Evict.Remove
import Svfs.Query.Range
import Svfs.Write.Effect

/-! Which calls stay within the buffers.

What a call goes by that looks outside the buffer of a block is whatever lies there. In a
file with separated blocks no write looks there, wherever it ends and whether or not it
throws, and of the reads only one whose end comes round to the block it begins in
(`inBuffers_of_separated`). -/
namespace Svfs
namespace World

section Walks
variable {w : World} {fpos : Nat} {data : List Byte} {rest : List (Nat × Val)} {base : Nat × Val}

theorem prependLoop_inBuffers {iters : List (Nat × Val)} (hne : ∀ iter ∈ iters, iter.2.data ≠ []) (fposEnd : Nat)
    (data : List Byte) (fpos : Nat) (built : List Byte) (hlog : w.LogInBuffers) :
    (prependLoop fposEnd iters data fpos built w).world.LogInBuffers := by
  induction iters generalizing data fpos built w with
  | nil => exact hlog
  | cons iter rest ih =>
    have hpos := List.length_pos_iff.mpr (hne iter (List.mem_cons_self ..))
    unfold prependLoop
    dsimp only
    refine Outcome.bind_world (LogInBuffers.diffCheck (hlog.of_log_eq rfl) (by omega) fun _ => hpos) fun _ w' hw' => ?_
    split
    · refine ((hw'.assert _).emit ?_).of_sound (sound_swallow ..)
      show _ + (_ - _) ≤ _
      omega
    · split
      · exact (hw'.of_sound (sound_swallow ..)).of_log_eq rfl
      · exact ih (fun t ht => hne t (List.mem_cons_of_mem _ ht)) _ _ _ (hw'.of_sound (sound_swallow ..))

theorem insertNew_log (caller : String) (fpos : Nat) (v : Val) : (w.insertNew caller fpos v).world.log = w.log := by
  unfold insertNew
  dsimp only
  split <;> rfl

theorem writeNewBlock_inBuffers (fpos : Nat) (data : List Byte) (hlog : w.LogInBuffers) :
    (w.writeNewBlock fpos data).world.LogInBuffers := by
  rw [writeNewBlock_eq]
  exact LogInBuffers.of_log_eq (hlog.assert _) (insertNew_log ..)

theorem writeNewAppendOld_inBuffers {iters : List (Nat × Val)} (hne : ∀ iter ∈ iters, iter.2.data ≠ [])
    (hlog : w.LogInBuffers) : (w.writeNewAppendOld fpos data iters).world.LogInBuffers := by
  have hentered : (enterPrepend fpos data iters w).LogInBuffers :=
    (hlog.assert _).assert _
  rw [writeNewAppendOld_bind]
  refine Outcome.bind_world (prependLoop_inBuffers hne _ _ _ _ hentered) fun b w' hw' => ?_
  refine Outcome.bind_world (hw'.of_log_eq (insertNew_log ..)) fun _ w' hw' => ?_
  exact (hw'.assert _).assert _

/-- Onto a block that bears bytes. The blocks after it matter where the data goes past it. -/
theorem writeAppendNewToOld_inBuffers (hne : base.2.data ≠ []) (hbase : base.1 ≤ fpos)
    (hstop : fpos ≤ base.1 + base.2.data.length) (hwithin : base.1 + base.2.data.length < 2 ^ 64)
    (hmore : base.1 + base.2.data.length < fpos + data.length →
      (∃ pre, w.file.svf.entries = pre ++ base :: rest) ∧ Ahead (base.1 + base.2.data.length) rest)
    (hlog : w.LogInBuffers) : (w.writeAppendNewToOld fpos data base rest).world.LogInBuffers := by
  have hentered : (enterAppend fpos data base w).LogInBuffers :=
    ((((hlog.assert _).assert _).assert _).subtract _ _).subtract _ _
  have hchecked : (checkBase fpos data base w).world.LogInBuffers :=
    hentered.diffCheck (by omega) fun _ => by omega
  rw [writeAppendNewToOld_eq hbase hstop (by omega) (by omega) fun _ => hwithin]
  cases hcheck : (checkBase fpos data base w).result with
  | error _ =>
    rw [Outcome.bind_of_error hcheck]
    exact hchecked
  | ok _ =>
    rw [Outcome.bind_of_ok hcheck]
    refine Outcome.bind_world (P := LogInBuffers) ?_ fun left w' hw' => (hw'.of_log_eq rfl).assert _
    rcases Nat.lt_or_ge (base.1 + base.2.data.length) (fpos + data.length) with hpast | hends
    · obtain ⟨⟨pre, hcut⟩, hahead⟩ := hmore hpast
      exact appendLoop_inBuffers (by rw [checkBase_file]; exact hcut) hne hahead hchecked
    · rw [List.drop_of_length_le (by omega), appendLoop_nil_data]
      exact hchecked

theorem writeBlocks_inBuffers (hsep : Segments.Separated w.file.segments) (hs : Representable w.file)
    (hfpos : fpos < 2 ^ 64) (hlog : w.LogInBuffers) : (w.writeBlocks fpos data).world.LogInBuffers := by
  have hne : ∀ iter ∈ w.file.svf.entries, iter.2.data ≠ [] := fun iter hiter =>
    hsep.nonempty _ (SparseVirtualFile.mem_segments hiter)
  cases writeBlocks_cases fpos data w with
  | newBlock heq _ =>
    rw [heq]
    exact writeNewBlock_inBuffers fpos data hlog
  | newAppendOld iter rest heq hcut _ _ _ =>
    rw [heq]
    exact writeNewAppendOld_inBuffers (hcut ▸ hne) hlog
  | appendNewToOld pre base rest heq hcut hle _ hstop _ =>
    have hmem : base ∈ w.file.svf.entries := by simp [hcut]
    obtain ⟨hwithin, hstop⟩ := within_of_reached (hs.size base hmem) hle hfpos hstop
    rw [heq]
    exact writeAppendNewToOld_inBuffers (hne base hmem) hle hstop hwithin (fun _ => ⟨⟨pre, hcut⟩,
      hs.ahead hsep (by rw [hcut, List.append_cons]) (lt_of_separated hsep hcut).2⟩) hlog

end Walks
end World

/-! ### The calls -/

section Calls
variable {w : World} {now : Int} {fpos len : Nat} {data : List Byte}

theorem logInBuffers_nil (s : SparseVirtualFile) : (⟨s, []⟩ : World).LogInBuffers := List.forall_mem_nil _

/-- A write looks outside no buffer if what it does to the blocks does not. -/
theorem write_inBuffers (now : Int)
    (h : ((⟨w.file, []⟩ : World).writeBlocks fpos data).world.LogInBuffers) :
    (Command.write now fpos data).InBuffers w := by
  rw [Command.InBuffers, step_write, World.write]
  exact Outcome.bind_world h fun _ w' hw' => hw'.of_log_eq rfl

/-- A read whose end does not come round copies from inside its block. -/
theorem read_inBuffers (now : Int) (hfpos : fpos < 2 ^ 64) (hlen : len < 2 ^ 64) (h : ¬ w.file.WrapsInto fpos len) :
    (Command.read now fpos len).InBuffers w := by
  rw [Command.InBuffers, step_read]
  exact (logInBuffers_nil w.file).of_sound (World.sound_read hfpos hlen h)

/-- **In a file with separated blocks** only a read looks outside a buffer, one that wraps into
a block. -/
theorem inBuffers_of_separated {c : Command} (hsep : Segments.Separated w.file.segments) (hs : Representable w.file)
    (hwrite : ∀ now fpos data, c = .write now fpos data → fpos < 2 ^ 64)
    (hread : ∀ now fpos len, c = .read now fpos len →
      fpos < 2 ^ 64 ∧ len < 2 ^ 64 ∧ ¬ w.file.WrapsInto fpos len) : c.InBuffers w := by
  have hlog := logInBuffers_nil w.file
  cases c with
  | write now fpos data =>
    exact write_inBuffers now (World.writeBlocks_inBuffers hsep hs (hwrite now fpos data rfl) hlog)
  | read now fpos len =>
    obtain ⟨hfpos, hlen, hwraps⟩ := hread now fpos len rfl
    exact read_inBuffers now hfpos hlen hwraps
  | erase fpos =>
    rw [Command.InBuffers, step_erase]
    exact hlog.of_sound (World.erase_shrunk fpos _).sound
  | clear =>
    rw [Command.InBuffers, step_clear]
    exact hlog.of_sound (World.sound_clear _)
  | lruPunt bound =>
    rw [Command.InBuffers, step_lruPunt]
    exact hlog.of_sound (World.lruPunt_shrunk bound _).sound

end Calls
end Svfs
