import Svfs.Evict.Remove
import Svfs.Touch.Punt
import Svfs.Touch.Recency

/-! A punt spares what was used last.

`lru_punt` erases the blocks by their touches, the oldest first, for as long as there is more
than one. So the block with the latest touch is never erased, whatever the bound
(`lruPunt_spares`), and while the touches record recency that is the block the last write or
read was on: what was just read can be read again after any punt (`run_spares_latest`). What
lies outside a buffer may change with the punt, so nothing is said of calls that look there. -/
namespace Svfs

/-- The block at `k` was touched after every other. -/
structure SparseVirtualFile.Latest (s : SparseVirtualFile) (k t : Nat) : Prop where
  mem : (k, t) ∈ s.marks
  le : ∀ m ∈ s.marks, m.2 ≤ t

/-- In a map by touch it comes last. -/
theorem SparseVirtualFile.Latest.blockTouches {s : SparseVirtualFile} {k t : Nat} (h : s.Latest k t)
    (hdistinct : s.Distinct) : ∃ front, s.blockTouches.entries = front ++ [(t, k)] := by
  obtain ⟨iter, hiter, heq⟩ := SparseVirtualFile.mem_marks.mp h.mem
  obtain ⟨rfl, rfl⟩ := Prod.mk.inj heq
  have hmem := OrderedMap.mem_of_find? (hdistinct.blockTouches_find? hiter)
  obtain ⟨front, rest, hcut⟩ := List.append_of_mem hmem
  cases rest with
  | nil => exact ⟨front, hcut⟩
  | cons e rest =>
    have hlt := (OrderedMap.cut_lt s.blockTouches.sorted hcut).2 e (List.mem_cons_self ..)
    have hle := h.le (e.2, e.1) (SparseVirtualFile.mem_blockTouches (by simp [hcut]))
    exact absurd hlt (not_lt.mpr hle)

namespace World
variable {w : World} {bound k t : Nat}

theorem find?_erase_of_ne {fpos : Nat} (hne : k ≠ fpos) :
    (w.erase fpos).world.file.svf.find? k = w.file.svf.find? k := by
  unfold erase
  split
  · rfl
  · exact OrderedMap.find?_erase_of_ne hne

/-- The loop stops before it gets to the last block. -/
theorem lruPuntLoop_spares {front : List (Nat × Nat)} (h : Listed (front ++ [(t, k)]) w) (ret : Nat) :
    (lruPuntLoop bound (front ++ [(t, k)]) ret w).world.file.svf.find? k = w.file.svf.find? k := by
  induction front generalizing w ret with
  | nil =>
    have hkeys : ∀ e ∈ w.file.svf.entries, e.1 = k := by
      intro e he
      have hfound : w.file.svf.find? e.1 ≠ none := by simp [OrderedMap.find?_of_mem he]
      simpa using (h.starts e.1).mpr hfound
    have hsize : w.file.svf.size ≤ 1 := by
      rcases hentries : w.file.svf.entries with _ | ⟨a, _ | ⟨b, rest⟩⟩
      · simp [OrderedMap.size, hentries]
      · simp [OrderedMap.size, hentries]
      · have hsorted := w.file.svf.sorted
        rw [hentries] at hsorted hkeys
        have hlt := (List.pairwise_cons.mp hsorted).1 b (List.mem_cons_self ..)
        rw [hkeys a (by simp), hkeys b (by simp)] at hlt
        exact absurd hlt (lt_irrefl k)
    have hstop : w.mustPunt bound = false := by
      simp only [mustPunt, Bool.and_eq_false_iff, decide_eq_false_iff_not]
      exact .inl (by omega)
    simp only [List.nil_append, lruPuntLoop, hstop]
    rfl
  | cons iter rest ih =>
    rw [List.cons_append] at h ⊢
    simp only [lruPuntLoop]
    split
    · obtain ⟨⟨n, hn⟩, hrest⟩ := h.erase
      have hne : k ≠ iter.2 := by
        rintro rfl
        exact (List.nodup_cons.mp h.once).1 (by simp)
      rw [Outcome.bind_of_ok hn]
      refine Eq.trans (ih (w := _) ?_ _) (find?_erase_of_ne hne)
      exact ⟨hrest.once, hrest.starts⟩
    · rfl

/-- **A punt spares** the block touched last, whatever the bound. -/
theorem lruPunt_spares (hlatest : w.file.Latest k t) (hdistinct : w.file.Distinct) (bound : Nat) :
    (w.lruPunt bound).world.file.svf.find? k = w.file.svf.find? k := by
  obtain ⟨front, hfront⟩ := hlatest.blockTouches hdistinct
  unfold lruPunt
  split
  · have hlisted := listed_blockTouches hdistinct
    rw [hfront] at hlisted ⊢
    obtain ⟨n, hn⟩ : (lruPuntLoop bound _ 0 w).Returns := (lruPuntLoop_stops hlisted 0).1
    rw [Outcome.bind_of_ok hn]
    exact lruPuntLoop_spares hlisted 0
  · rfl

/-- A read that returns copies from inside its block just if it looks outside no buffer. -/
theorem read_inBuffers_iff {now : Int} {fpos len : Nat} {iter : Nat × Val} (hlast : w.file.svf.LastAt fpos iter)
    (hfits : sizeAdd (if iter.1 = fpos then 0 else sizeSub fpos iter.1) len ≤ iter.2.data.length) :
    (Command.read now fpos len).InBuffers w ↔
      (if iter.1 = fpos then 0 else sizeSub fpos iter.1) + len ≤ iter.2.data.length := by
  rw [Command.InBuffers, step_read, read_at_last (w := ⟨w.file, []⟩) hlast, readFrom_returns hfits]
  exact (logInBuffers_emit_iff (w := ⟨w.file, []⟩)).trans (and_iff_left (List.forall_mem_nil _))

/-- What a read hands out it hands out again, as long as the block stays and none came. -/
theorem read_again {now now' : Int} {fpos len : Nat} {data : List Byte} {w' : World}
    (hread : (w.read now fpos len).result = .ok data) (hbuffers : (Command.read now fpos len).InBuffers w)
    (hblocks : ∀ e ∈ w'.file.svf.entries, ∃ e' ∈ w.file.svf.entries, e'.1 = e.1)
    (hspared : ∀ iter, w.file.svf.LastAt fpos iter → ∃ v, w'.file.svf.find? iter.1 = some v ∧ v.data = iter.2.data) :
    (w'.read now' fpos len).result = .ok data ∧ (Command.read now' fpos len).InBuffers w' := by
  rcases read_cases now fpos len w with ⟨_, m, h⟩ | ⟨pre, iter, rest, hcut, hle, hrest, h⟩
  · rw [h] at hread
    cases hread
  · have hlast := OrderedMap.lastAt_of_cut hcut hle hrest
    obtain ⟨v, hv, hdata⟩ := hspared iter hlast
    have hlast' : w'.file.svf.LastAt fpos (iter.1, v) := by
      refine ⟨OrderedMap.mem_of_find? hv, hle, fun e he hle' => ?_⟩
      obtain ⟨e', he', hkey⟩ := hblocks e he
      rw [← hkey]
      exact hlast.last e' he' (hkey ▸ hle')
    rw [h] at hread
    rcases Nat.lt_or_ge iter.2.data.length
      (sizeAdd (if iter.1 = fpos then 0 else sizeSub fpos iter.1) len) with hover | hfits
    · rw [readFrom_throws hover] at hread
      cases hread
    · rw [readFrom_returns hfits] at hread
      rw [read_inBuffers_iff hlast hfits] at hbuffers
      rw [read_at_last hlast', readFrom_returns (by rw [hdata]; exact hfits), hdata,
        read_inBuffers_iff hlast' (by rw [hdata]; exact hfits), hdata]
      exact ⟨hread, hbuffers⟩

end World

/-- What a punt that follows a call spares: the block the call hit, and with it what was just
read. -/
structure SparesLatest (c : Command) (w : World) : Prop where
  block : ∀ k, c.hit w = some k → ∃ v, (c.step w).file.svf.find? k = some v ∧
    ∀ bound, ((c.step w).lruPunt bound).world.file.svf.find? k = some v
  reread : ∀ now fpos len data, c = .read now fpos len → (w.read now fpos len).result = .ok data →
    ∀ bound now', (((w.read now fpos len).world.lruPunt bound).world.read now' fpos len).result = .ok data ∧
      (Command.read now' fpos len).InBuffers ((w.read now fpos len).world.lruPunt bound).world

/-- A read leaves every block where it is, with its bytes. -/
theorem World.read_mem {w : World} {now : Int} {fpos len : Nat} {iter : Nat × Val} :
    (∃ e ∈ (w.read now fpos len).world.file.svf.entries, e.1 = iter.1 ∧ e.2.data = iter.2.data) ↔
      ∃ e ∈ w.file.svf.entries, e.1 = iter.1 ∧ e.2.data = iter.2.data := by
  have hsegments : segmentsOf (w.read now fpos len).world.file.svf.entries = segmentsOf w.file.svf.entries :=
    (World.read_segments now fpos len w).1
  have hmem : ∀ l : List (Nat × Val), (∃ e ∈ l, e.1 = iter.1 ∧ e.2.data = iter.2.data) ↔
      (iter.1, iter.2.data) ∈ segmentsOf l := by
    intro l
    simp [mem_segmentsOf]
  rw [hmem, hmem, hsegments]

/-- The block just hit was touched last. -/
theorem Recent.latest {c : Command} {w : World} {r : Recency} {k : Nat} (h : Recent w.file r)
    (hhit : Hit k w.file (c.step w).file) : (c.step w).file.Latest k w.file.blockTouch := by
  refine ⟨hhit.present, fun m hm => ?_⟩
  by_cases hk : m.1 = k
  · rw [SparseVirtualFile.marks_inj hm hhit.present hk]
  · rw [h.counter]
    exact (h.below m (hhit.others m hm hk)).le

/-- One call, while the touches record recency. -/
theorem sparesLatest_step {c : Command} {w : World} {r : Recency} (h : Recent w.file r)
    (hnext : Recent (c.step w).file (r.next c w)) (hbuffers : c.InBuffers w) : SparesLatest c w := by
  have hblock : ∀ k, c.hit w = some k → ∃ v, (c.step w).file.svf.find? k = some v ∧
      ∀ bound, ((c.step w).lruPunt bound).world.file.svf.find? k = some v := by
    intro k hk
    have hhit : Hit k w.file (c.step w).file := by
      rcases step_marked c w with ⟨j, hj, hhit⟩ | ⟨hnone, _⟩ | ⟨hnone, _⟩
      · obtain rfl := Option.some.inj (hk.symm.trans hj)
        exact hhit
      · rw [hnone] at hk
        cases hk
      · rw [hnone] at hk
        cases hk
    obtain ⟨iter, hiter, heq⟩ := SparseVirtualFile.mem_marks.mp hhit.present
    have hkey : iter.1 = k := congrArg Prod.fst heq
    have hfind : (c.step w).file.svf.find? k = some iter.2 := hkey ▸ OrderedMap.find?_of_mem hiter
    exact ⟨iter.2, hfind, fun bound =>
      (World.lruPunt_spares (h.latest hhit) hnext.distinct bound).trans hfind⟩
  refine ⟨hblock, ?_⟩
  rintro now fpos len data rfl hread bound now'
  rw [step_read] at hblock
  -- A block after the punt was there before the read.
  have hback : ∀ e ∈ (w.read now fpos len).world.file.svf.entries, ∃ e' ∈ w.file.svf.entries,
      e'.1 = e.1 ∧ e'.2.data = e.2.data := fun e he => World.read_mem.mp ⟨e, he, rfl, rfl⟩
  refine World.read_again hread hbuffers (fun e he => ?_) fun iter hlast => ?_
  · obtain ⟨e', he', hkey, _⟩ := hback e ((World.lruPunt_shrunk bound _).blocks.subset he)
    exact ⟨e', he', hkey⟩
  · obtain ⟨e, he, hkey, hdata⟩ := World.read_mem.mpr ⟨iter, hlast.mem, rfl, rfl⟩
    have hat : (w.read now fpos len).world.file.blockAt fpos = some iter.1 := by
      refine SparseVirtualFile.blockAt_eq_some ⟨_, hkey ▸ SparseVirtualFile.mem_marks_of he⟩ hlast.le fun m hm hle => ?_
      obtain ⟨a, ha, rfl⟩ := SparseVirtualFile.mem_marks.mp hm
      obtain ⟨a', ha', hkey', _⟩ := hback a ha
      simp only at hle ⊢
      rw [← hkey'] at hle ⊢
      exact hlast.last a' ha' hle
    have hhit : (Command.read now fpos len).hit w = some iter.1 := by
      have hresult : ((Command.read now fpos len).exec w).result = .ok (.bytes data) := by
        rw [Command.exec, Outcome.bind_of_ok hread]
        rfl
      rw [Command.hit, hresult, step_read]
      exact hat
    obtain ⟨v, hv, hpunted⟩ := hblock iter.1 hhit
    refine ⟨v, hpunted bound, ?_⟩
    rw [← hkey, OrderedMap.find?_of_mem he] at hv
    rw [← Option.some.inj hv, hdata]

/-- **What was used last stays.** In a run that looks outside no buffer and issues fewer than
`2 ^ 32` touches from its start, or from one `clear` to the next, a punt to any bound that follows
a write or a read leaves the block it was on in place, and what was read can be read again. -/
theorem run_spares_latest (id : List Byte) (modTime : Float) (config : SparseVirtualFileConfig)
    (cs : List Command)
    (hbuffers : Run.Along Command.step Command.InBuffers (World.new id modTime config) cs)
    (hfew : ∀ g ∈ Run.states recencyStep (World.new id modTime config, Recency.start) cs,
      g.2.issued < 2 ^ 32) :
    Run.Along Command.step SparesLatest (World.new id modTime config) cs := by
  have hrecent := Run.invariant_states (P := fun g : World × Recency => Recent g.1.file g.2)
    (fun _ g hc h => recent_step (w := g.1) (r := g.2) h hc.1 hc.2) (recent_new id modTime config 0 fun _ => 0)
    (Run.along_of_states hfew)
  have hspares : Run.Along recencyStep (fun c g => c.InBuffers g.1 → SparesLatest c g.1)
      (World.new id modTime config, Recency.start) cs :=
    Run.along_mono (fun c g h => sparesLatest_step (r := g.2) h.1 h.2) (Run.along_of_states hrecent)
  have halong : Run.Along Command.step (fun c w => c.InBuffers w → SparesLatest c w)
      (World.new id modTime config) cs :=
    Run.along_map (A := fun c w => c.InBuffers w → SparesLatest c w) Prod.fst (fun _ _ => rfl) hspares
  exact Run.along_mono (fun _ _ h => h.1 h.2) (Run.along_and.mpr ⟨halong, hbuffers⟩)

/-- A block is read that is not the latest written, and everything else has to go. -/
theorem run_spares_latest_reread : Run.Along Command.step SparesLatest (World.new [] 0) rereadRun :=
  run_spares_latest [] 0 {} rereadRun (by decide) (by decide)

end Svfs
