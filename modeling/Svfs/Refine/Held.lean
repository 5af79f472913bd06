import Svfs.Evict.Remove
import Svfs.File.Command
import Svfs.Query.Read
import Svfs.Write.Effect

/-! A sparse virtual file is a set of held positions of a file.

The abstract state is the set of positions written and not removed since; beside
it the bytes are those of one file `F`. `Represents` is the invariant that ties a
world to it: `step_represents` is one call, and `run_shows_held` the statement
over runs — a run shows its held positions in every state, and no write of it
throws, exactly when no write runs into the next block. -/
namespace Svfs

/-- A write that hands over bytes of `F`, at least one, within the `size_t` range. -/
def Command.From (F : Nat → Byte) : Command → Prop
  | .write _ fpos data => data ≠ [] ∧ fpos + data.length < 2 ^ 64 ∧
      ∀ i < data.length, data[i]? = some (F (fpos + i))
  | _ => True

/-- A write that lies apart from the block before it and reaches the one after. -/
def Command.RunsIntoNext : Command → World → Prop
  | .write _ fpos data, w => w.file.RunsIntoNext fpos data.length
  | _, _ => False

instance : (c : Command) → (w : World) → Decidable (c.RunsIntoNext w)
  | .write _ fpos data, w => inferInstanceAs (Decidable (w.file.RunsIntoNext fpos data.length))
  | .read _ _ _, _ | .erase _, _ | .clear, _ | .lruPunt _, _ => inferInstanceAs (Decidable False)

/-- The call does not throw, if it is a write. -/
def Command.WriteReturns (c : Command) (w : World) : Prop :=
  match c with
  | .write _ _ _ => (c.exec w).Returns
  | _ => True

/-- The held positions after a call that led from `w` to `w'`. An erase takes the
run that begins just there, and a punt the blocks that went. -/
def Command.heldAfter (c : Command) (w w' : World) (H : Set Nat) : Set Nat :=
  match c with
  | .write _ fpos data => H ∪ Set.Ico fpos (fpos + data.length)
  | .read _ _ _ => H
  | .erase fpos => H \ {p | ∃ hi, Segments.IsRun H fpos hi ∧ fpos ≤ p ∧ p < hi}
  | .clear => ∅
  | .lruPunt _ => H \ {p | ∃ b ∈ w.file.blocks, b ∉ w'.file.blocks ∧ b.1 ≤ p ∧ p < b.1 + b.2}

/-- A call, with the held positions beside the world. -/
def ghostStep (c : Command) (g : World × Set Nat) : World × Set Nat :=
  (c.step g.1, c.heldAfter g.1 (c.step g.1) g.2)

/-- What a client sees of the held positions: the blocks are their maximal runs,
with the bytes of `F`, `num_bytes` is their number, and `integrity` finds no fault. -/
structure Shows (F : Nat → Byte) (s : SparseVirtualFile) (H : Set Nat) : Prop where
  runs : ∀ lo hi, (∃ b ∈ s.blocks, b.1 = lo ∧ b.1 + b.2 = hi) ↔ Segments.IsRun H lo hi
  bytes : ∀ iter ∈ s.svf.entries, ∀ i < iter.2.data.length, iter.2.data[i]? = some (F (iter.1 + i))
  finite : H.Finite
  numBytes : s.numBytes = H.ncard
  integrity : s.integrity = .none

/-- The invariant: a tidy file that holds the bytes of `F` just at `H`. -/
structure Represents (F : Nat → Byte) (w : World) (H : Set Nat) : Prop where
  tidy : Tidy w.file
  support : Segments.support w.file.segments = H
  bytes : ∀ p b, w.file.held p = some b → b = F p

theorem represents_new (F : Nat → Byte) (id : List Byte) (modTime : Float)
    (config : SparseVirtualFileConfig) : Represents F (World.new id modTime config) ∅ where
  tidy := tidy_new id modTime config
  support := Segments.support_nil
  bytes := by
    intro p b h
    cases h

section Step
variable {F : Nat → Byte} {w : World} {H : Set Nat}

theorem Represents.shows (h : Represents F w H) : Shows F w.file H := by
  refine ⟨fun lo hi => ?_, fun iter hiter i hi => ?_, ?_, ?_, h.tidy.integrity⟩
  · rw [← h.support, h.tidy.separated.isRun_iff]
    constructor
    · rintro ⟨b, hb, hlo, hhi⟩
      obtain ⟨iter, hiter, rfl⟩ := SparseVirtualFile.mem_blocks.mp hb
      exact ⟨_, SparseVirtualFile.mem_segments hiter, hlo, hhi⟩
    · rintro ⟨seg, hseg, hlo, hhi⟩
      obtain ⟨iter, hiter, rfl⟩ := mem_segmentsOf.mp hseg
      exact ⟨_, SparseVirtualFile.mem_blocks.mpr ⟨iter, hiter, rfl⟩, hlo, hhi⟩
  · have hheld := SparseVirtualFile.held_of_mem h.tidy.separated hiter (p := iter.1 + i) (by omega)
    rw [Nat.add_sub_cancel_left, List.getElem?_eq_getElem hi] at hheld
    rw [List.getElem?_eq_getElem hi, h.bytes _ _ hheld]
  · rw [← h.support]
    exact Segments.support_finite _
  · rw [← h.support, ← h.tidy.separated.total_eq]
    exact h.tidy.bytesTotal

/-- Bytes of `F` never conflict with bytes of `F`. -/
theorem Represents.not_conflict (h : Represents F w H) {fpos : Nat} {data : List Byte}
    (hdata : ∀ i < data.length, data[i]? = some (F (fpos + i))) : ¬ w.file.Conflict fpos data := by
  rintro ⟨p, b, hle, hlt, hheld, hne⟩
  rw [hdata (p - fpos) (by omega), show fpos + (p - fpos) = p by omega, ← h.bytes p b hheld] at hne
  exact hne rfl

/-- A write of bytes of `F` that does not run into the next block. -/
theorem write_represents (h : Represents F w H) {now : Int} {fpos : Nat} {data : List Byte}
    (hdata : data ≠ []) (hfit : fpos + data.length < 2 ^ 64)
    (hfrom : ∀ i < data.length, data[i]? = some (F (fpos + i)))
    (hrun : ¬ w.file.RunsIntoNext fpos data.length) :
    (w.write now fpos data).Returns ∧
      Represents F (w.write now fpos data).world (H ∪ Set.Ico fpos (fpos + data.length)) ∧
      SoundLog w (w.write now fpos data).world := by
  have heffect := World.writeBlocks_effect h.tidy hdata hfit hrun (h.not_conflict hfrom)
  have htidy := heffect.tidy h.tidy hfit
  rw [World.write_eq now fpos data heffect.written.result]
  refine ⟨⟨(), rfl⟩, ⟨⟨⟨htidy.separated, htidy.bytesTotal⟩, htidy.within⟩, ?_, fun p b hb => ?_⟩,
    heffect.sound.trans (SoundLog.of_log_eq rfl)⟩
  · rw [← h.support]
    exact Segments.support_overlay heffect.held
  · have hb : Segments.overlay w.file.held fpos data p = some b := (heffect.held p).symm.trans hb
    by_cases hp : fpos ≤ p ∧ p < fpos + data.length
    · rw [Segments.overlay_of_mem hp, hfrom (p - fpos) (by omega),
        show fpos + (p - fpos) = p by omega] at hb
      exact (Option.some.inj hb).symm
    · rw [Segments.overlay_of_not_mem hp] at hb
      exact h.bytes p b hb

/-- Taking blocks away takes away the positions under them. -/
theorem Represents.shrunk (h : Represents F w H) {w' : World} (hshrunk : World.Shrunk w w') :
    Represents F w'
      (H \ {p | ∃ b ∈ w.file.blocks, b ∉ w'.file.blocks ∧ b.1 ≤ p ∧ p < b.1 + b.2}) := by
  have hsub : w'.file.segments.Sublist w.file.segments := hshrunk.blocks.map _
  refine ⟨hshrunk.tidy h.tidy, ?_, fun p b hb =>
    h.bytes p b (h.tidy.separated.lookup_sublist hsub hb)⟩
  rw [h.tidy.separated.support_sublist hsub, h.support]
  congr 1
  ext p
  constructor
  · rintro ⟨seg, hseg, hnot, hp⟩
    obtain ⟨iter, hiter, rfl⟩ := mem_segmentsOf.mp hseg
    refine ⟨_, SparseVirtualFile.mem_blocks.mpr ⟨iter, hiter, rfl⟩, fun hb => hnot ?_, hp⟩
    -- A block that is still there under this start is the same block.
    obtain ⟨iter', hiter', heq⟩ := SparseVirtualFile.mem_blocks.mp hb
    have hkey : iter'.1 = iter.1 := (Prod.mk.inj heq).1
    have hsame : iter'.2 = iter.2 := Option.some.inj
      ((OrderedMap.find?_of_mem (hshrunk.blocks.subset hiter')).symm.trans
        (by rw [hkey]; exact OrderedMap.find?_of_mem hiter))
    rw [← Prod.ext hkey hsame]
    exact SparseVirtualFile.mem_segments hiter'
  · rintro ⟨b, hb, hnot, hp⟩
    obtain ⟨iter, hiter, rfl⟩ := SparseVirtualFile.mem_blocks.mp hb
    refine ⟨_, SparseVirtualFile.mem_segments hiter, fun hseg => hnot ?_, hp⟩
    obtain ⟨iter', hiter', heq⟩ := mem_segmentsOf.mp hseg
    obtain ⟨hkey, hdata⟩ := Prod.mk.inj heq
    exact SparseVirtualFile.mem_blocks.mpr ⟨iter', hiter', by rw [hkey, hdata]⟩

/-- A run of the held positions begins where a block does. -/
theorem Represents.isRun_iff (h : Represents F w H) {lo hi : Nat} :
    Segments.IsRun H lo hi ↔ ∃ iter ∈ w.file.svf.entries, iter.1 = lo ∧ lo + iter.2.data.length = hi := by
  rw [← h.support, h.tidy.separated.isRun_iff]
  constructor
  · rintro ⟨seg, hseg, hlo, hhi⟩
    obtain ⟨iter, hiter, rfl⟩ := mem_segmentsOf.mp hseg
    exact ⟨iter, hiter, hlo, hlo ▸ hhi⟩
  · rintro ⟨iter, hiter, hlo, hhi⟩
    exact ⟨_, SparseVirtualFile.mem_segments hiter, hlo, by rw [Segments.stop_mk, hlo, hhi]⟩

/-- An erase takes the run that begins at its position, if one does. -/
theorem erase_represents (h : Represents F w H) (fpos : Nat) :
    Represents F (w.erase fpos).world
      (H \ {p | ∃ hi, Segments.IsRun H fpos hi ∧ fpos ≤ p ∧ p < hi}) := by
  rcases World.erase_cases fpos w with ⟨hnone, heq⟩ | ⟨pre, v, post, hcut, _, hentries, _, _⟩
  · have hempty : {p | ∃ hi, Segments.IsRun H fpos hi ∧ fpos ≤ p ∧ p < hi} = ∅ := by
      apply Set.eq_empty_iff_forall_notMem.mpr
      rintro p ⟨hi, hrun, _⟩
      obtain ⟨iter, hiter, hkey, _⟩ := h.isRun_iff.mp hrun
      exact OrderedMap.find?_eq_none_iff.mp hnone iter hiter hkey
    rw [heq, hempty, Set.sdiff_empty]
    exact h
  · have hgone : {p | ∃ b ∈ w.file.blocks, b ∉ (w.erase fpos).world.file.blocks ∧ b.1 ≤ p ∧
        p < b.1 + b.2} = {p | ∃ hi, Segments.IsRun H fpos hi ∧ fpos ≤ p ∧ p < hi} := by
      ext p
      constructor
      · rintro ⟨b, hb, hnot, hp⟩
        obtain ⟨iter, hiter, rfl⟩ := SparseVirtualFile.mem_blocks.mp hb
        have hkey : iter.1 = fpos := by
          by_contra hne
          refine hnot (SparseVirtualFile.mem_blocks.mpr ⟨iter, ?_, rfl⟩)
          rw [hcut] at hiter
          rw [hentries]
          simp only [List.mem_append, List.mem_cons] at hiter ⊢
          rcases hiter with hiter | rfl | hiter
          · exact .inl hiter
          · exact absurd rfl hne
          · exact .inr hiter
        exact ⟨_, h.isRun_iff.mpr ⟨iter, hiter, hkey, rfl⟩, by simp only at hp; omega⟩
      · rintro ⟨hi, hrun, hp⟩
        obtain ⟨iter, hiter, hkey, hhi⟩ := h.isRun_iff.mp hrun
        refine ⟨_, SparseVirtualFile.mem_blocks.mpr ⟨iter, hiter, rfl⟩, fun hb => ?_, by simp only; omega⟩
        obtain ⟨iter', hiter', heq⟩ := SparseVirtualFile.mem_blocks.mp hb
        have hkey' : iter'.1 = fpos := (Prod.mk.inj heq).1.trans hkey
        obtain ⟨hpre, hpost⟩ := OrderedMap.cut_key_ne w.file.svf.sorted hcut
        rw [hentries] at hiter'
        rcases List.mem_append.mp hiter' with hmem | hmem
        · exact hpre iter' hmem hkey'
        · exact hpost iter' hmem hkey'
    rw [← hgone]
    exact h.shrunk (World.erase_shrunk fpos w)

/-- A read leaves what is held alone. -/
theorem read_represents (h : Represents F w H) (now : Int) (fpos len : Nat) :
    Represents F (w.read now fpos len).world H := by
  obtain ⟨hsegments, hbytes, _⟩ := World.read_segments now fpos len w
  refine ⟨h.tidy.of_segments hsegments hbytes, by rw [hsegments]; exact h.support, fun p b hb =>
    h.bytes p b ?_⟩
  rwa [SparseVirtualFile.held, hsegments] at hb

/-- **One call** keeps the invariant, and a write returns. -/
theorem step_represents (h : Represents F w H) {c : Command} (hfrom : c.From F)
    (hrun : ¬ c.RunsIntoNext w) :
    c.WriteReturns w ∧ Represents F (c.step w) (c.heldAfter w (c.step w) H) := by
  cases c with
  | write now fpos data =>
    obtain ⟨hdata, hfit, hbytes⟩ := hfrom
    obtain ⟨⟨a, hreturns⟩, hrepresents, _⟩ := write_represents h hdata hfit hbytes hrun
    rw [step_write]
    refine ⟨⟨.none, ?_⟩, hrepresents⟩
    show ((w.write now fpos data).bind _).result = _
    rw [Outcome.bind_of_ok hreturns]
    rfl
  | read now fpos len =>
    rw [step_read]
    exact ⟨trivial, read_represents h now fpos len⟩
  | erase fpos =>
    rw [step_erase]
    exact ⟨trivial, erase_represents h fpos⟩
  | clear =>
    refine ⟨trivial, ?_⟩
    have hnew := represents_new F w.file.id w.file.fileModTime w.file.config
    refine ⟨?_, ?_, ?_⟩
    · rw [step_clear, World.clear_file]
      exact hnew.tidy
    · rw [step_clear, World.clear_file]
      exact hnew.support
    · rw [step_clear, World.clear_file]
      exact hnew.bytes
  | lruPunt bound =>
    rw [step_lruPunt]
    exact ⟨trivial, h.shrunk (World.lruPunt_shrunk bound w)⟩

end Step

/-! ### Runs -/

section Runs
variable {F : Nat → Byte}

/-- The first component of a run with held positions is the run. -/
theorem run_ghostStep (cs : List Command) (g : World × Set Nat) :
    (Run.run ghostStep g cs).1 = Run.run Command.step g.1 cs := by
  induction cs generalizing g with
  | nil => rfl
  | cons c rest ih => exact ih _

/-- Along a run that never runs into the next block every state is represented, and
no write throws. -/
theorem run_represents {cs : List Command} {w : World} {H : Set Nat} (h : Represents F w H)
    (hfrom : ∀ c ∈ cs, c.From F)
    (hrun : Run.Along Command.step (fun c w => ¬ c.RunsIntoNext w) w cs) :
    Run.Along Command.step Command.WriteReturns w cs ∧
      ∀ g ∈ Run.states ghostStep (w, H) cs, Represents F g.1 g.2 := by
  induction cs generalizing w H with
  | nil =>
    refine ⟨trivial, fun g hg => ?_⟩
    rw [List.mem_singleton.mp hg]
    exact h
  | cons c rest ih =>
    obtain ⟨hreturns, hstep⟩ := step_represents h (hfrom c (List.mem_cons_self ..)) hrun.1
    obtain ⟨hrest, hstates⟩ := ih hstep (fun d hd => hfrom d (List.mem_cons_of_mem _ hd)) hrun.2
    refine ⟨⟨hreturns, hrest⟩, fun g hg => ?_⟩
    rcases List.mem_cons.mp hg with rfl | hg
    · exact h
    · exact hstates g hg

/-- A run that finds no fault anywhere never ran into the next block. -/
theorem along_of_integrity {cs : List Command} {w : World} {H : Set Nat} (h : Represents F w H)
    (hfrom : ∀ c ∈ cs, c.From F)
    (hstates : ∀ w' ∈ Run.states Command.step w cs, w'.file.integrity = .none) :
    Run.Along Command.step (fun c w => ¬ c.RunsIntoNext w) w cs := by
  induction cs generalizing w H with
  | nil => trivial
  | cons c rest ih =>
    have hc := hfrom c (List.mem_cons_self ..)
    have hgood : ¬ c.RunsIntoNext w := by
      intro hbad
      cases c with
      | write now fpos data =>
        have hnext := hstates ((Command.write now fpos data).step w)
          (List.mem_cons_of_mem _ (by cases rest <;> exact List.mem_cons_self ..))
        rw [step_write] at hnext
        exact World.runsIntoNext_breaks h.tidy hc.2.1 hbad hnext
      | _ => exact hbad
    exact ⟨hgood, ih (step_represents h hc hgood).2 (fun d hd => hfrom d (List.mem_cons_of_mem _ hd))
      fun w' hw' => hstates w' (List.mem_cons_of_mem _ hw')⟩

/-- **The refinement.** A run over the bytes of one file shows its held positions in
every state, with no write throwing, exactly when none of its writes runs into the
next block. -/
theorem run_shows_held (F : Nat → Byte) (id : List Byte) (modTime : Float)
    (config : SparseVirtualFileConfig) (cs : List Command) (hfrom : ∀ c ∈ cs, c.From F) :
    (Run.Along Command.step Command.WriteReturns (World.new id modTime config) cs ∧
      ∀ g ∈ Run.states ghostStep (World.new id modTime config, ∅) cs, Shows F g.1.file g.2) ↔
      Run.Along Command.step (fun c w => ¬ c.RunsIntoNext w) (World.new id modTime config) cs := by
  have hnew := represents_new F id modTime config
  constructor
  · rintro ⟨_, hstates⟩
    apply along_of_integrity hnew hfrom
    intro w' hw'
    obtain ⟨done, rest, rfl, rfl⟩ := Run.mem_states_iff.mp hw'
    rw [← run_ghostStep done (World.new id modTime config, ∅)]
    exact (hstates _ (Run.mem_states_iff.mpr ⟨done, rest, rfl, rfl⟩)).integrity
  · intro hrun
    obtain ⟨hreturns, hstates⟩ := run_represents hnew hfrom hrun
    exact ⟨hreturns, fun g hg => (hstates g hg).shows⟩

/-- Each byte of this file is its position. -/
def countingFile (p : Nat) : Byte := UInt8.ofNat p

/-- A write of some bytes of a file. -/
def Command.writeFrom (F : Nat → Byte) (fpos len : Nat) : Command :=
  .write 0 fpos ((List.range len).map fun i => F (fpos + i))

theorem from_writeFrom {F : Nat → Byte} {fpos len : Nat} (hlen : 0 < len)
    (hfit : fpos + len < 2 ^ 64) : (Command.writeFrom F fpos len).From F := by
  refine ⟨?_, by simpa using hfit, fun i hi => ?_⟩
  · rw [← List.length_pos_iff]
    simpa using hlen
  · simp only [List.length_map, List.length_range] at hi
    simp [hi]

/-- Two blocks, a write that reaches from the first over the gap into the second,
and what a client takes away again. -/
def meetingRun : List Command :=
  [.writeFrom countingFile 0 4, .writeFrom countingFile 8 4, .writeFrom countingFile 3 6, .read 0 2 7,
    .writeFrom countingFile 20 1, .erase 20, .lruPunt 1, .clear]

theorem from_meetingRun : ∀ c ∈ meetingRun, c.From countingFile := by
  simp only [meetingRun, List.forall_mem_cons]
  exact ⟨from_writeFrom (by decide) (by decide), from_writeFrom (by decide) (by decide),
    from_writeFrom (by decide) (by decide), trivial, from_writeFrom (by decide) (by decide), trivial,
    trivial, trivial, by simp⟩

theorem run_shows_held_meeting :
    Run.Along Command.step Command.WriteReturns (World.new [] 0) meetingRun ∧
      ∀ g ∈ Run.states ghostStep (World.new [] 0, ∅) meetingRun, Shows countingFile g.1.file g.2 :=
  (run_shows_held countingFile [] 0 {} meetingRun from_meetingRun).mpr (by decide)

/-- Apart from the first block, up to the second, which it leaves touching. -/
def gapRun : List Command :=
  [.writeFrom countingFile 0 1, .writeFrom countingFile 10 2, .writeFrom countingFile 5 5]

theorem from_gapRun : ∀ c ∈ gapRun, c.From countingFile := by
  simp only [gapRun, List.forall_mem_cons]
  exact ⟨from_writeFrom (by decide) (by decide), from_writeFrom (by decide) (by decide),
    from_writeFrom (by decide) (by decide), by simp⟩

/-- Not every run shows its held positions. -/
theorem not_run_shows_held : ¬ ∀ (F : Nat → Byte) (id : List Byte) (modTime : Float)
    (config : SparseVirtualFileConfig) (cs : List Command), (∀ c ∈ cs, c.From F) →
    Run.Along Command.step Command.WriteReturns (World.new id modTime config) cs ∧
      ∀ g ∈ Run.states ghostStep (World.new id modTime config, ∅) cs, Shows F g.1.file g.2 := by
  intro h
  have hshows := (h countingFile [] 0 {} gapRun from_gapRun).2 _ Run.run_mem_states
  have hnone := hshows.integrity
  rw [run_ghostStep] at hnone
  have hadjacent : (Run.run Command.step (World.new [] 0) gapRun).file.integrity = .adjacentBlocks := by
    decide
  rw [hadjacent] at hnone
  cases hnone

end Runs

end Svfs
