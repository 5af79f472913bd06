import Svfs.Touch.Marks
import Svfs.Write.Fixed

/-! Discarded bytes are overwritten first, unless they are erased.

With `overwrite_on_exit` the walks of a write and `clear`, and with it the destructor,
overwrite a block before it leaves the map. `_erase_no_lock` does not, nor does `lru_punt`,
which erases by it. So everything a run discards was overwritten exactly where the blocks
that its erases and punts take held nothing else before (`run_scrubs_iff`). -/
namespace Svfs

/-- Nothing but `OVERWRITE_CHAR`. -/
def Blank (data : List Byte) : Prop := ∀ b ∈ data, b = overwriteChar

/-- A block leaves the map with all its bytes overwritten. -/
def Event.Scrubbed : Event → Prop
  | .discard _ data => Blank data
  | _ => True

/-- So did every block there ever was and is no more. -/
def World.Scrubbed (w : World) : Prop := ∀ e ∈ w.log, e.Scrubbed

instance (data : List Byte) : Decidable (Blank data) := inferInstanceAs (Decidable (∀ b ∈ data, _))

instance : (e : Event) → Decidable e.Scrubbed
  | .discard _ data => inferInstanceAs (Decidable (Blank data))
  | .memcmp .. | .index .. | .copy .. | .subtract .. | .assertion _ => inferInstanceAs (Decidable True)

instance (w : World) : Decidable w.Scrubbed := inferInstanceAs (Decidable (∀ e ∈ w.log, _))

/-- The blocks of `ks` that a punt takes, by position: one after the other, while more than
one is left and the bytes left are not below the bound. -/
def SparseVirtualFile.punteesFrom (s : SparseVirtualFile) (bound : Nat) : List Nat → Nat → Nat → List Nat
  | [], _, _ => []
  | k :: ks, blocks, bytes =>
    if 1 < blocks ∧ bound ≤ bytes then
      k :: s.punteesFrom bound ks (blocks - 1)
        (sizeSub bytes (((s.svf.find? k).map fun v => v.data.length).getD 0))
    else []

/-- The blocks that a punt takes: those with the oldest touches. -/
def SparseVirtualFile.puntees (s : SparseVirtualFile) (bound : Nat) : List Nat :=
  s.punteesFrom bound (s.blockTouches.entries.map Prod.snd) s.svf.size s.bytesTotal

/-- The blocks a call erases hold nothing that would need to be overwritten. -/
def Command.ErasesBlank : Command → World → Prop
  | .erase fpos, w => ∀ v ∈ w.file.svf.find? fpos, Blank v.data
  | .lruPunt bound, w => ∀ k ∈ w.file.puntees bound, ∀ v ∈ w.file.svf.find? k, Blank v.data
  | _, _ => True

instance : (c : Command) → (w : World) → Decidable (c.ErasesBlank w)
  | .erase fpos, w => inferInstanceAs (Decidable (∀ v ∈ w.file.svf.find? fpos, Blank v.data))
  | .lruPunt bound, w => inferInstanceAs (Decidable (∀ k ∈ w.file.puntees bound,
      ∀ v ∈ w.file.svf.find? k, Blank v.data))
  | .write .., _ | .read .., _ | .clear, _ => inferInstanceAs (Decidable True)

namespace World

/-! ### What overwrites -/

/-- With `overwrite_on_exit` nothing went that was not overwritten. -/
structure Scrubs (w w' : World) : Prop where
  config : w'.file.config = w.file.config
  scrubbed : w.file.config.overwriteOnExit = true → (w'.Scrubbed ↔ w.Scrubbed)

theorem Scrubs.refl (w : World) : Scrubs w w := ⟨rfl, fun _ => .rfl⟩

theorem Scrubs.trans {a b c : World} (hab : Scrubs a b) (hbc : Scrubs b c) : Scrubs a c :=
  ⟨hbc.config.trans hab.config, fun h => (hbc.scrubbed (hab.config ▸ h)).trans (hab.scrubbed h)⟩

theorem Scrubs.of_log {w w' : World} (hconfig : w'.file.config = w.file.config) (hlog : w'.log = w.log) :
    Scrubs w w' := ⟨hconfig, fun _ => by unfold Scrubbed; rw [hlog]⟩

theorem scrubbed_cons {w w' : World} {e : Event} (h : w'.log = e :: w.log) :
    w'.Scrubbed ↔ e.Scrubbed ∧ w.Scrubbed := by
  unfold Scrubbed
  rw [h]
  exact List.forall_mem_cons

theorem scrubs_emit (w : World) {e : Event} (he : e.Stays) : Scrubs w (w.emit e) := by
  refine ⟨rfl, fun _ => (scrubbed_cons (emit_log w e)).trans (and_iff_right ?_)⟩
  cases e with
  | discard => exact he.elim
  | _ => trivial

theorem blank_overwrite (v : Val) : Blank v.overwrite.data := fun _ hb => List.eq_of_mem_replicate hb

/-- An overwritten block has nothing else in its buffer. -/
theorem blockData_overwrite (w : World) (k : Nat) : Blank ((w.overwrite k).blockData k) := by
  unfold blockData
  split
  · rename_i v hv
    rcases OrderedMap.mem_modify.mp (OrderedMap.mem_of_find? hv) with ⟨_, old, _, rfl⟩ | ⟨hne, _⟩
    · exact blank_overwrite old
    · exact absurd rfl hne
  · exact fun _ hb => absurd hb List.not_mem_nil

/-- A block swallowed is overwritten first. -/
theorem scrubs_swallow (w : World) (k : Nat) : Scrubs w (w.swallow k) := by
  refine ⟨(frame_swallow w k).config, fun h => ?_⟩
  have hlog : (w.swallow k).log = .discard k ((w.overwrite k).blockData k) :: w.log := by
    simp [swallow, h, eraseIter, overwrite]
  exact (scrubbed_cons hlog).trans (and_iff_right (blockData_overwrite w k))

/-- No write lets bytes go as they are. -/
theorem scrubs_keptByWrite : KeptByWrite Scrubs where
  walk _ := ⟨.refl, .trans, fun w _ he => scrubs_emit w he, fun _ _ => .of_log rfl rfl,
    fun _ _ _ => .of_log rfl rfl, fun w k _ => scrubs_swallow w k⟩
  bump _ := .of_log rfl rfl
  insertNew caller fpos v w := by
    unfold insertNew
    dsimp only
    split <;> exact .of_log rfl rfl
  touch _ _ := .of_log rfl rfl
  countWrite _ _ _ := .of_log rfl rfl

theorem scrubs_readFrom (now : Int) (fpos len : Nat) (iter : Nat × Val) (offset : Nat) (w : World) :
    Scrubs w (w.readFrom now fpos len iter offset).world := by
  have hcopy := scrubs_emit w (e := .copy iter.2.data.length offset len) trivial
  unfold readFrom
  split
  · exact .refl w
  · exact hcopy.trans (.of_log rfl rfl)

theorem scrubs_read (now : Int) (fpos len : Nat) (w : World) : Scrubs w (w.read now fpos len).world := by
  rcases read_cases now fpos len w with ⟨_, m, heq⟩ | ⟨pre, iter, rest, _, _, _, heq⟩
  · rw [heq]
    exact .refl w
  · rw [heq]
    exact scrubs_readFrom ..

/-- Where all blocks were overwritten they may go. -/
theorem scrubs_discardAll {w : World} (h : ∀ iter ∈ w.file.svf.entries, Blank iter.2.data) :
    Scrubs w w.discardAll := by
  have hall : ∀ (l : List (Nat × Val)) (w : World), (∀ iter ∈ w.file.svf.entries, Blank iter.2.data) →
      Scrubs w (l.foldl (fun w iter => w.eraseIter iter.1) w) := by
    intro l
    induction l with
    | nil => exact fun w _ => .refl w
    | cons iter rest ih =>
      intro w h
      have hdata : Blank (w.blockData iter.1) := by
        unfold blockData
        split
        · rename_i v hv
          exact h _ (OrderedMap.mem_of_find? hv)
        · exact fun _ hb => absurd hb List.not_mem_nil
      have hlog : (w.eraseIter iter.1).log = .discard iter.1 (w.blockData iter.1) :: w.log := rfl
      have herase : Scrubs w (w.eraseIter iter.1) :=
        ⟨rfl, fun _ => (scrubbed_cons hlog).trans (and_iff_right hdata)⟩
      exact herase.trans (ih _ fun t ht => h t (OrderedMap.mem_erase.mp ht).1)
  exact hall _ w h

/-- Overwriting every block leaves none as it was. -/
theorem blank_of_overwriteAll (w : World) :
    ∀ iter ∈ (w.file.svf.entries.foldl (fun w iter => w.overwrite iter.1) w).file.svf.entries,
      Blank iter.2.data := by
  have hall : ∀ (l : List (Nat × Val)) (w : World),
      (∀ iter ∈ w.file.svf.entries, iter.1 ∈ l.map Prod.fst ∨ Blank iter.2.data) →
      ∀ iter ∈ (l.foldl (fun w iter => w.overwrite iter.1) w).file.svf.entries, Blank iter.2.data := by
    intro l
    induction l with
    | nil => exact fun w h iter hiter => (h iter hiter).resolve_left List.not_mem_nil
    | cons next rest ih =>
      intro w h
      refine ih _ fun iter hiter => ?_
      rcases OrderedMap.mem_modify.mp hiter with ⟨_, old, _, heq⟩ | ⟨hne, hmem⟩
      · exact .inr (heq ▸ blank_overwrite old)
      · exact (h iter hmem).imp_left fun hkey => (List.mem_cons.mp hkey).resolve_left hne
  exact hall _ w fun iter hiter => .inl (List.mem_map_of_mem hiter)

theorem scrubs_clear (w : World) : Scrubs w w.clear := by
  have hlog : ∀ (l : List (Nat × Val)) (w : World),
      Scrubs w (l.foldl (fun w iter => w.overwrite iter.1) w) := by
    intro l
    induction l with
    | nil => exact fun w => .refl w
    | cons next rest ih =>
      intro w
      have hnext : Scrubs w (w.overwrite next.1) := .of_log rfl rfl
      exact hnext.trans (ih _)
  refine ⟨by rw [clear_file]; rfl, fun h => ?_⟩
  have hscrubs := (hlog w.file.svf.entries w).trans (scrubs_discardAll (blank_of_overwriteAll w))
  have hsame : w.clear.log =
      (w.file.svf.entries.foldl (fun w iter => w.overwrite iter.1) w).discardAll.log := by
    simp [clear, h]
  rw [← hscrubs.scrubbed h]
  unfold Scrubbed
  rw [hsame]

/-! ### What does not -/

/-- A block that is erased goes as it is. -/
theorem scrubbed_erase (fpos : Nat) (w : World) : (w.erase fpos).world.Scrubbed ↔
    w.Scrubbed ∧ ∀ v ∈ w.file.svf.find? fpos, Blank v.data := by
  rcases erase_cases fpos w with ⟨hnone, heq⟩ | ⟨pre, v, post, hcut, _, _, _, hlog⟩
  · rw [heq, hnone]
    simp
  · rw [scrubbed_cons hlog, OrderedMap.find?_cut hcut, and_comm]
    simp [Event.Scrubbed]

theorem erase_of_find? {w : World} {fpos : Nat} {v : Val} (h : w.file.svf.find? fpos = some v) :
    (w.erase fpos).result = .ok v.data.length ∧
      (w.erase fpos).world.file.svf = w.file.svf.erase fpos ∧
      (w.erase fpos).world.file.bytesTotal = sizeSub w.file.bytesTotal v.data.length := by
  simp [erase, h, eraseIter]

/-- The loop takes the blocks named, as far as they are still too many. -/
theorem scrubbed_lruPuntLoop {s : SparseVirtualFile} (bound : Nat) (touches : List (Nat × Nat))
    (honce : (touches.map Prod.snd).Nodup) (w : World)
    (hthere : ∀ k ∈ touches.map Prod.snd, s.svf.find? k ≠ none ∧ w.file.svf.find? k = s.svf.find? k)
    (ret : Nat) : (lruPuntLoop bound touches ret w).world.Scrubbed ↔ w.Scrubbed ∧
      ∀ k ∈ s.punteesFrom bound (touches.map Prod.snd) w.file.svf.size w.file.bytesTotal,
        ∀ v ∈ s.svf.find? k, Blank v.data := by
  induction touches generalizing ret w with
  | nil => simp [lruPuntLoop, SparseVirtualFile.punteesFrom]
  | cons iter rest ih =>
    obtain ⟨hnot, honce⟩ := List.nodup_cons.mp honce
    obtain ⟨hfound, hsame⟩ := hthere iter.2 (List.mem_cons_self ..)
    obtain ⟨v, hv⟩ := Option.ne_none_iff_exists'.mp hfound
    rw [hv] at hsame
    rw [lruPuntLoop, List.map_cons, SparseVirtualFile.punteesFrom]
    by_cases hmust : w.mustPunt bound = true
    · obtain ⟨hresult, hsvf, hbytes⟩ := erase_of_find? hsame
      have hmore : 1 < w.file.svf.size ∧ bound ≤ w.file.bytesTotal := by simpa [mustPunt] using hmust
      have hrest := ih honce {(w.erase iter.2).world with file := {(w.erase iter.2).world.file with
        blocksPunted := sizeAdd (w.erase iter.2).world.file.blocksPunted 1}} (fun k hk => ?_)
        (sizeAdd ret v.data.length)
      · have hscrubbed := scrubbed_erase iter.2 w
        rw [hsame] at hscrubbed
        rw [if_pos hmust, if_pos hmore, Outcome.bind_of_ok hresult, hrest, hv]
        show (w.erase iter.2).world.Scrubbed ∧ _ ↔ _
        rw [hscrubbed, hsvf, hbytes, OrderedMap.size_erase_of_find? hsame]
        simp only [List.forall_mem_cons, hv, Option.map_some, Option.getD_some, and_assoc]
      · obtain ⟨hfound', hsame'⟩ := hthere k (List.mem_cons_of_mem _ hk)
        refine ⟨hfound', ?_⟩
        rw [hsvf, OrderedMap.find?_erase_of_ne, hsame']
        rintro rfl
        exact hnot hk
    · have hdone : ¬ (1 < w.file.svf.size ∧ bound ≤ w.file.bytesTotal) := by simpa [mustPunt] using hmust
      rw [if_neg hmust, if_neg hdone]
      simp

/-- What a punt logs is what its loop does. -/
theorem lruPunt_log (bound : Nat) (w : World) : (w.lruPunt bound).world.log =
    (lruPuntLoop bound w.file.blockTouches.entries 0 w).world.log := by
  have hloop : (if w.mustPunt bound then lruPuntLoop bound w.file.blockTouches.entries 0 w
      else .returned 0 w) = lruPuntLoop bound w.file.blockTouches.entries 0 w := by
    split
    · rfl
    · rename_i hmust
      cases w.file.blockTouches.entries with
      | nil => rfl
      | cons iter rest => rw [lruPuntLoop, if_neg hmust]
  unfold lruPunt
  rw [hloop]
  cases hr : (lruPuntLoop bound w.file.blockTouches.entries 0 w).result with
  | ok n => rw [Outcome.bind_of_ok hr]; rfl
  | error e => rw [Outcome.bind_of_error hr]

/-- A punt lets go of the blocks it takes as they are. -/
theorem scrubbed_lruPunt (bound : Nat) (w : World) : (w.lruPunt bound).world.Scrubbed ↔
    w.Scrubbed ∧ ∀ k ∈ w.file.puntees bound, ∀ v ∈ w.file.svf.find? k, Blank v.data := by
  have hthere : ∀ k ∈ w.file.blockTouches.entries.map Prod.snd,
      w.file.svf.find? k ≠ none ∧ w.file.svf.find? k = w.file.svf.find? k := by
    intro k hk
    obtain ⟨⟨t, j⟩, hj, rfl⟩ := List.mem_map.mp hk
    exact ⟨SparseVirtualFile.find?_ne_none_of_blockTouches hj, rfl⟩
  have hloop := scrubbed_lruPuntLoop bound w.file.blockTouches.entries
    w.file.nodup_blockTouches w hthere 0
  rw [Scrubbed, lruPunt_log]
  exact hloop

end World

/-! ### Runs -/

/-- One call keeps the promise exactly if what it erases was blank. -/
theorem step_scrubbed (c : Command) (w : World) (h : w.file.config.overwriteOnExit = true) :
    (c.step w).Scrubbed ↔ w.Scrubbed ∧ c.ErasesBlank w := by
  cases c with
  | write now fpos data =>
    rw [step_write, (World.scrubs_keptByWrite.write now fpos data w).scrubbed h]
    exact (and_iff_left trivial).symm
  | read now fpos len =>
    rw [step_read, (World.scrubs_read now fpos len w).scrubbed h]
    exact (and_iff_left trivial).symm
  | erase fpos =>
    rw [step_erase]
    exact World.scrubbed_erase fpos w
  | clear =>
    rw [step_clear, (World.scrubs_clear w).scrubbed h]
    exact (and_iff_left trivial).symm
  | lruPunt bound =>
    rw [step_lruPunt]
    exact World.scrubbed_lruPunt bound w

theorem run_scrubbed (cs : List Command) (w : World) (h : w.file.config.overwriteOnExit = true) :
    (Run.run Command.step w cs).Scrubbed ↔
      w.Scrubbed ∧ Run.Along Command.step Command.ErasesBlank w cs := by
  induction cs generalizing w with
  | nil => exact (and_iff_left trivial).symm
  | cons c rest ih =>
    have hconfig : (c.step w).file.config.overwriteOnExit = true := by rw [(step_fixed c w).config, h]
    rw [Run.run, ih _ hconfig, step_scrubbed c w h, Run.Along, and_assoc]

/-- **Discarded data is overwritten** in a run that ends in destruction exactly if all that
its erases and punts take is blank already. -/
theorem run_scrubs_iff (id : List Byte) (modTime : Float) (config : SparseVirtualFileConfig)
    (cs : List Command) (h : config.overwriteOnExit = true) :
    (Run.run Command.step (World.new id modTime config) cs).destroy.Scrubbed ↔
      Run.Along Command.step Command.ErasesBlank (World.new id modTime config) cs := by
  have hconfig : (Run.run Command.step (World.new id modTime config) cs).file.config.overwriteOnExit = true := by
    rw [(run_fixed cs _).config]
    exact h
  rw [World.destroy, (World.scrubs_clear _).scrubbed hconfig, run_scrubbed cs _ h]
  exact and_iff_right (by simp [World.Scrubbed, World.new])

/-- Three blocks become one, which is destroyed. -/
theorem run_scrubs_iff_swallow :
    (Run.run Command.step (World.new [] 0 {overwriteOnExit := true})
      [.write 0 0 [1, 2], .write 0 4 [5, 6], .write 0 1 [2, 3, 4, 5]]).destroy.Scrubbed ↔
    Run.Along Command.step Command.ErasesBlank (World.new [] 0 {overwriteOnExit := true})
      [.write 0 0 [1, 2], .write 0 4 [5, 6], .write 0 1 [2, 3, 4, 5]] :=
  run_scrubs_iff [] 0 {overwriteOnExit := true} [.write 0 0 [1, 2], .write 0 4 [5, 6], .write 0 1 [2, 3, 4, 5]]
    rfl

/-- An erased block leaves with its bytes. -/
theorem not_run_scrubs : ¬ ∀ (id : List Byte) (modTime : Float) (config : SparseVirtualFileConfig)
    (cs : List Command), config.overwriteOnExit = true →
    (Run.run Command.step (World.new id modTime config) cs).destroy.Scrubbed := by
  intro h
  have hscrubbed := h [] 0 {overwriteOnExit := true} [.write 0 0 [1, 2], .erase 0] rfl
  have hdiscard : Event.discard 0 [1, 2] ∈ (Run.run Command.step (World.new [] 0 {overwriteOnExit := true})
      [.write 0 0 [1, 2], .erase 0]).destroy.log := by decide
  exact absurd (hscrubbed _ hdiscard) (by decide)

end Svfs
