import Mathlib.Data.Nat.Count
import Svfs.Evict.Counters
import Svfs.Refine.Ask

/-! The counters of a file are a tally of its calls.

Beside the file stands what a client can add up on its own: of each call that returned, how
much it was asked for or answered, since the last `clear`. In every state of any run, whatever
is written and whichever calls throw, the ten counters are this tally (`run_tallies`). As long
as the writes hand over bytes of one file and none runs into the next block, the tally balances
as well: what was written is what is held, what was erased or punted, and what was written over
(`run_balances`). -/
namespace Svfs

/-- What the calls that returned add up to since the last `clear`. -/
structure Tally where
  /-- The length of each write, and -/
  written : List Nat := []
  /-- how many of its positions the file had by then. -/
  rewritten : List Nat := []
  timeWrite : Option Int := none
  /-- The length of each read. -/
  read : List Nat := []
  timeRead : Option Int := none
  /-- The bytes each erase answered. -/
  erased : List Nat := []
  /-- The blocks that went in each punt, and the bytes it answered. -/
  punted : List (Nat × Nat) := []
deriving DecidableEq

/-- How many of the `len` positions from `fpos` on the file has. -/
def SparseVirtualFile.overlap (s : SparseVirtualFile) (fpos len : Nat) : Nat :=
  (List.range len).countP fun i => s.has (fpos + i) 1

namespace Tally

/-- The tally after a call that led from `s` to `s'`. -/
def next (c : Command) (result : Except Exception Reply) (s s' : SparseVirtualFile) (t : Tally) : Tally :=
  match c, result with
  | .write now fpos data, .ok _ => {t with
      written := data.length :: t.written
      rewritten := s.overlap fpos data.length :: t.rewritten
      timeWrite := some now}
  | .read now _ len, .ok _ => {t with read := len :: t.read, timeRead := some now}
  | .erase _, .ok (.size n) => {t with erased := n :: t.erased}
  | .clear, .ok _ => {}
  | .lruPunt _, .ok (.size n) => {t with punted := (s.numBlocks - s'.numBlocks, n) :: t.punted}
  | _, _ => t

/-- All bytes that were erased or punted. -/
def gone (t : Tally) : Nat := t.erased.sum + (t.punted.map Prod.snd).sum

/-- The counters that this tally makes. -/
def counters (t : Tally) : Counters where
  countWrite := t.written.length % 2 ^ 64
  bytesWrite := t.written.sum % 2 ^ 64
  timeWrite := t.timeWrite.getD timePointMin
  countRead := t.read.length % 2 ^ 64
  bytesRead := t.read.sum % 2 ^ 64
  timeRead := t.timeRead.getD timePointMin
  blocksErased := (t.erased.length + (t.punted.map Prod.fst).sum) % 2 ^ 64
  bytesErased := t.gone % 2 ^ 64
  blocksPunted := (t.punted.map Prod.fst).sum % 2 ^ 64
  bytesPunted := (t.punted.map Prod.snd).sum % 2 ^ 64

end Tally

/-- A call, with the tally beside the world. -/
def tallyStep (c : Command) (g : World × Tally) : World × Tally :=
  (c.step g.1, g.2.next c (c.exec g.1).result g.1.file (c.step g.1).file)

/-! ### The counters -/

/-- The counters of the file are what the tally makes. -/
def Tallied (g : World × Tally) : Prop := g.1.file.counters = g.2.counters

section Counters
variable {w : World} {t : Tally}

/-- Counting up from what fits a `size_t`. -/
theorem sizeAdd_mod (a b : Nat) : sizeAdd (a % 2 ^ 64) b = (b + a) % 2 ^ 64 := by
  show (a % 2 ^ 64 + b) % 2 ^ 64 = _
  omega

theorem Tallied.counted (h : Tallied (w, t)) : Counted w.file := by
  have hblocks : w.file.blocksErased = _ % 2 ^ 64 := congrArg Counters.blocksErased h
  have hbytes : w.file.bytesErased = _ % 2 ^ 64 := congrArg Counters.bytesErased h
  have hpunted : w.file.blocksPunted = _ % 2 ^ 64 := congrArg Counters.blocksPunted h
  have hbytesPunted : w.file.bytesPunted = _ % 2 ^ 64 := congrArg Counters.bytesPunted h
  exact ⟨by omega, by omega, by omega, by omega⟩

/-- **One call** keeps the tally. -/
theorem Tallied.step (h : Tallied (w, t)) (c : Command) : Tallied (tallyStep c (w, t)) := by
  have hcounters : w.file.counters = t.counters := h
  unfold Tallied tallyStep
  cases c with
  | write now fpos data =>
    simp only [step_write, Command.exec]
    rcases World.write_counts now fpos data w with ⟨hresult, hcounts⟩ | ⟨e, hresult, hcounts⟩
    · rw [Outcome.bind_of_ok hresult, hcounts, hcounters]
      simp only [Tally.next, Tally.counters, Counters.write, Outcome.returned_result, sizeAdd_mod, List.length_cons,
        List.sum_cons, Nat.add_comm 1, Option.getD_some]
      rfl
    · rw [Outcome.bind_of_error hresult, hcounts]
      exact hcounters
  | read now fpos len =>
    simp only [step_read, Command.exec]
    rcases World.read_counts now fpos len w with ⟨data, hresult, hcounts⟩ | ⟨e, heq⟩
    · rw [Outcome.bind_of_ok hresult, hcounts, hcounters]
      simp only [Tally.next, Tally.counters, Counters.read, Outcome.returned_result, sizeAdd_mod, List.length_cons,
        List.sum_cons, Nat.add_comm 1, Option.getD_some]
      rfl
    · rw [heq]
      exact hcounters
  | erase fpos =>
    simp only [step_erase, Command.exec]
    rcases World.erase_counts fpos w with ⟨n, hresult, hcounts⟩ | ⟨e, heq⟩
    · rw [Outcome.bind_of_ok hresult, hcounts, hcounters]
      simp only [Tally.next, Tally.counters, Tally.gone, Counters.erase, Outcome.returned_result, sizeAdd_mod,
        List.length_cons, List.length_nil, List.sum_cons, List.sum_nil, Nat.zero_add, Nat.add_zero,
        Nat.add_comm 1, Nat.add_assoc]
    · rw [heq]
      exact hcounters
  | clear =>
    rw [step_clear, World.clear_file]
    rfl
  | lruPunt bound =>
    obtain ⟨sizes, w', hgone, heq⟩ := World.lruPunt_gone bound w
    have hwent : w.file.numBlocks - w'.file.numBlocks = sizes.length := by
      have := hgone.numBlocks
      omega
    have hcounts : w'.file.counters = t.counters.punt sizes := by rw [hgone.counters h.counted, hcounters]
    simp only [step_lruPunt, Command.exec, heq, Outcome.bind_returned, Outcome.returned_result, Outcome.returned_world,
      Tally.next]
    show {w'.file.counters with bytesPunted := sizeAdd w'.file.counters.bytesPunted (sizeAdd 0 sizes.sum)} =
      ({t with punted := (w.file.numBlocks - w'.file.numBlocks, sizeAdd 0 sizes.sum) :: t.punted} : Tally).counters
    have hanswer : sizeAdd 0 sizes.sum = sizes.sum % 2 ^ 64 := by rw [sizeAdd, Wrap.add, Nat.zero_add]
    rw [hcounts, hwent, hanswer]
    simp only [Tally.counters, Tally.gone, Counters.punt, Counters.erase, sizeAdd_mod, List.map_cons, List.sum_cons]
    congr 1 <;> omega

/-- **The counters are a tally** in every state of any run. -/
theorem run_tallies (id : List Byte) (modTime : Float) (config : SparseVirtualFileConfig) (cs : List Command) :
    Run.Always tallyStep Tallied (World.new id modTime config, {}) cs := by
  intro g hg
  have hnew : Tallied (World.new id modTime config, {}) := rfl
  have hany : Run.Along tallyStep (fun _ _ => True) (World.new id modTime config, {}) cs :=
    Run.along_of_forall fun _ _ => trivial
  exact Run.invariant_states (P := Tallied) (fun c _ _ h => h.step c) hnew hany g hg

end Counters

/-! ### The balance -/

/-- What is held, gone and written over is what was written. -/
def Balanced (g : World × Tally) : Prop := g.1.file.numBytes + g.2.gone + g.2.rewritten.sum = g.2.written.sum

section Balance
variable {F : Nat → Byte} {w : World} {H : Set Nat} {t : Tally}

/-- What a write finds held already. -/
theorem Represents.overlap_eq (h : Represents F w H) {fpos len : Nat} (hfit : fpos + len < 2 ^ 64) :
    w.file.overlap fpos len = (H ∩ Set.Ico fpos (fpos + len)).ncard := by
  classical
  have hhas : ∀ i ∈ List.range len, w.file.has (fpos + i) 1 = true ↔ decide (fpos + i ∈ H) = true := by
    intro i hi
    have hi : i < len := List.mem_range.mp hi
    rw [h.has_iff Nat.one_pos (by omega), decide_eq_true_iff]
    refine ⟨fun hhit => hhit ⟨le_rfl, Nat.lt_succ_self _⟩, fun hmem p hp => ?_⟩
    rwa [show p = fpos + i from le_antisymm (Nat.lt_succ_iff.mp hp.2) hp.1]
  have himage : H ∩ Set.Ico fpos (fpos + len) = (fun i => fpos + i) '' {i | i < len ∧ fpos + i ∈ H} := by
    ext p
    constructor
    · rintro ⟨hp, hle, hlt⟩
      have hsum : fpos + (p - fpos) = p := by omega
      exact ⟨p - fpos, ⟨by omega, by rwa [hsum]⟩, hsum⟩
    · rintro ⟨i, ⟨hi, hp⟩, rfl⟩
      exact ⟨hp, by simp, by simpa using hi⟩
  rw [SparseVirtualFile.overlap, List.countP_congr hhas, himage,
    Set.ncard_image_of_injective _ (add_right_injective fpos)]
  have hset : {i | i < len ∧ fpos + i ∈ H} = ((Finset.range len).filter fun i => fpos + i ∈ H : Finset Nat) := by
    ext i
    simp
  rw [hset, Set.ncard_coe_finset, ← Nat.count_eq_card_filter_range]
  rfl

/-- **One call** keeps the balance. -/
theorem Balanced.step (hb : Balanced (w, t)) (h : Represents F w H) {c : Command} (hfrom : c.From F)
    (hrun : ¬ c.RunsIntoNext w) : Balanced (tallyStep c (w, t)) := by
  have hbalance : w.file.numBytes + t.gone + t.rewritten.sum = t.written.sum := hb
  obtain ⟨hreturns, hafter⟩ := step_represents h hfrom hrun
  unfold Balanced tallyStep
  cases c with
  | write now fpos data =>
    obtain ⟨_, hfit, _⟩ := hfrom
    obtain ⟨r, hresult⟩ := hreturns
    have hunion := Set.ncard_union_add_ncard_inter H (Set.Ico fpos (fpos + data.length)) h.shows.finite
      (Set.finite_Ico ..)
    have hnow : ((Command.write now fpos data).step w).file.numBytes = (H ∪ Set.Ico fpos (fpos + data.length)).ncard :=
      hafter.shows.numBytes
    have hlen : (Set.Ico fpos (fpos + data.length)).ncard = data.length := by
      rw [← Finset.coe_Ico, Set.ncard_coe_finset, Nat.card_Ico]
      omega
    simp only [hresult, Tally.next, hnow, Tally.gone, List.sum_cons, h.overlap_eq hfit]
    rw [h.shows.numBytes, Tally.gone] at hbalance
    omega
  | read now fpos len =>
    have hbytes : ((Command.read now fpos len).step w).file.numBytes = w.file.numBytes := by
      rw [step_read]
      exact (World.read_segments now fpos len w).2.1
    cases hresult : ((Command.read now fpos len).exec w).result with
    | ok reply =>
      simp only [Tally.next, hbytes]
      exact hbalance
    | error e =>
      simp only [Tally.next, hbytes]
      exact hbalance
  | erase fpos =>
    rcases World.erase_cases fpos w with ⟨_, heq⟩ | ⟨pre, v, post, hcut, hresult, hentries, hfile, _⟩
    · rw [step_erase, Command.exec, heq]
      exact hbalance
    · have hcount : w.file.bytesTotal = Segments.total w.file.segments := h.tidy.bytesTotal
      have hheld : v.data.length ≤ w.file.bytesTotal := by
        rw [hcount, SparseVirtualFile.segments, hcut]
        simp only [segmentsOf_append, segmentsOf_cons, Segments.total_append, Segments.total_cons]
        omega
      have hbytes : ((Command.erase fpos).step w).file.numBytes = w.file.numBytes - v.data.length := by
        rw [step_erase, hfile]
        exact sizeSub_of_le hheld h.tidy.representable.bytesTotal
      have hanswer : ((Command.erase fpos).exec w).result = .ok (.size v.data.length) := by
        rw [Command.exec, Outcome.bind_of_ok hresult]
        rfl
      simp only [hanswer, Tally.next, hbytes, Tally.gone, List.sum_cons]
      have hnum : w.file.numBytes = w.file.bytesTotal := rfl
      rw [Tally.gone] at hbalance
      omega
  | clear =>
    rw [step_clear, World.clear_file]
    rfl
  | lruPunt bound =>
    obtain ⟨sizes, w', hgone, heq⟩ := World.lruPunt_gone bound w
    have htotal := hgone.total
    have hbefore := h.tidy.bytesTotal
    have hbytes := hafter.tidy.bytesTotal
    have hfits := h.tidy.representable.bytesTotal
    simp only [step_lruPunt, Command.exec, heq, Outcome.bind_returned, Outcome.returned_result, Outcome.returned_world,
      Tally.next] at hbytes ⊢
    have hnum : w.file.numBytes = w.file.bytesTotal := rfl
    have hsame : Segments.total w'.file.segments = w'.file.bytesTotal := hbytes.symm
    have hanswer : sizeAdd 0 sizes.sum = sizes.sum := by
      rw [sizeAdd_of_lt (by omega), Nat.zero_add]
    show w'.file.bytesTotal + Tally.gone {t with punted := _} + t.rewritten.sum = t.written.sum
    rw [Tally.gone] at hbalance
    simp only [Tally.gone, List.map_cons, List.sum_cons, hanswer]
    omega

/-- **The tally balances** in every state of a run over the bytes of one file. -/
theorem run_balances (F : Nat → Byte) (id : List Byte) (modTime : Float) (config : SparseVirtualFileConfig)
    (cs : List Command) (hfrom : ∀ c ∈ cs, c.From F)
    (hrun : Run.Along Command.step (fun c w => ¬ c.RunsIntoNext w) (World.new id modTime config) cs) :
    Run.Always tallyStep Balanced (World.new id modTime config, {}) cs := by
  have hstates : ∀ (cs : List Command) (w : World) (H : Set Nat) (t : Tally), Represents F w H → Balanced (w, t) →
      (∀ c ∈ cs, c.From F) → Run.Along Command.step (fun c w => ¬ c.RunsIntoNext w) w cs →
      Run.Always tallyStep Balanced (w, t) cs := by
    intro cs
    induction cs with
    | nil =>
      intro w H t _ hb _ _ g hg
      rw [List.mem_singleton.mp hg]
      exact hb
    | cons c rest ih =>
      intro w H t h hb hfrom hrun g hg
      have hc := hfrom c (List.mem_cons_self ..)
      rcases List.mem_cons.mp hg with rfl | hg
      · exact hb
      · exact ih _ _ _ (step_represents h hc hrun.1).2 (hb.step h hc hrun.1)
          (fun d hd => hfrom d (List.mem_cons_of_mem _ hd)) hrun.2 g hg
  exact hstates cs _ _ _ (represents_new F id modTime config) rfl hfrom hrun

/-- Bytes written over, a punt and an erase of a block that is there no more. -/
def talliedRun : List Command :=
  [.writeFrom countingFile 0 4, .writeFrom countingFile 2 4, .writeFrom countingFile 9 3, .read 7 1 3, .lruPunt 4,
    .erase 9, .writeFrom countingFile 20 5, .erase 20]

theorem run_balances_punted : Run.Always tallyStep Balanced (World.new [] 0, {}) talliedRun := by
  refine run_balances countingFile [] 0 {} talliedRun ?_ (by decide)
  simp only [talliedRun, List.forall_mem_cons]
  exact ⟨from_writeFrom (by decide) (by decide), from_writeFrom (by decide) (by decide),
    from_writeFrom (by decide) (by decide), trivial, trivial, trivial, from_writeFrom (by decide) (by decide),
    trivial, by simp⟩

end Balance
end Svfs
