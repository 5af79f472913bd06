import Svfs.File.Evict
import Svfs.File.WellFormed
import Svfs.Write.Steps

/-! What removing blocks leaves.

`erase` and `lru_punt` only ever take blocks away, with their bytes from the count
(`Shrunk`), so that a tidy file stays tidy; `clear` leaves none. -/
namespace Svfs
namespace World

/-- Some blocks went, and their bytes with them. -/
structure Shrunk (w w' : World) : Prop where
  blocks : w'.file.svf.entries.Sublist w.file.svf.entries
  tidy : Tidy w.file → Tidy w'.file
  config : w'.file.config = w.file.config
  blockTouch : w'.file.blockTouch = w.file.blockTouch
  sound : SoundLog w w'

theorem Shrunk.refl (w : World) : Shrunk w w := ⟨.refl _, id, rfl, rfl, .refl w⟩

theorem Shrunk.trans {a b c : World} (hab : Shrunk a b) (hbc : Shrunk b c) : Shrunk a c :=
  ⟨hbc.blocks.trans hab.blocks, hbc.tidy ∘ hab.tidy, hbc.config.trans hab.config,
    hbc.blockTouch.trans hab.blockTouch, hab.sound.trans hbc.sound⟩

/-- The blocks, their bytes and the counters of a file are what matters to it. -/
theorem Shrunk.of_file {w w' w'' : World} (h : Shrunk w w') (hsvf : w''.file.svf = w'.file.svf)
    (hbytes : w''.file.bytesTotal = w'.file.bytesTotal) (hconfig : w''.file.config = w'.file.config)
    (htouch : w''.file.blockTouch = w'.file.blockTouch) (hlog : w''.log = w'.log) : Shrunk w w'' := by
  refine ⟨by rw [hsvf]; exact h.blocks, fun ht => ?_, hconfig.trans h.config,
    htouch.trans h.blockTouch, h.sound.trans (SoundLog.of_log_eq hlog)⟩
  obtain ⟨⟨hsep, htotal⟩, hwithin⟩ := h.tidy ht
  refine ⟨⟨?_, ?_⟩, ?_⟩
  · rwa [SparseVirtualFile.segments, hsvf]
  · rwa [SparseVirtualFile.segments, hsvf, hbytes]
  · rwa [hsvf]

/-! ### erase -/

/-- A block goes if it begins just there; otherwise nothing happens but the throw. -/
theorem erase_cases (fpos : Nat) (w : World) :
    (w.file.svf.find? fpos = none ∧ w.erase fpos = .threw (.erase (eraseMessage fpos)) w) ∨
    ∃ pre v post, w.file.svf.entries = pre ++ (fpos, v) :: post ∧
      (w.erase fpos).result = .ok v.data.length ∧
      (w.erase fpos).world.file.svf.entries = pre ++ post ∧
      (w.erase fpos).world.file = {w.file with
        svf := (w.erase fpos).world.file.svf
        bytesTotal := sizeSub w.file.bytesTotal v.data.length
        blocksErased := sizeAdd w.file.blocksErased 1
        bytesErased := sizeAdd w.file.bytesErased v.data.length} ∧
      (w.erase fpos).world.log = .discard fpos v.data :: w.log := by
  cases hfind : w.file.svf.find? fpos with
  | none => exact .inl ⟨rfl, by simp [erase, hfind]⟩
  | some v =>
    right
    obtain ⟨pre, post, h⟩ := OrderedMap.cut_of_find? hfind
    have hdata : w.blockData fpos = v.data := blockData_cut h
    refine ⟨pre, v, post, h, ?_, ?_, ?_, ?_⟩
    · simp [erase, hfind]
    · simp only [erase, hfind]
      exact OrderedMap.entries_erase h
    · simp [erase, hfind, eraseIter]
    · simp only [erase, hfind, Outcome.returned_world, eraseIter]
      exact congrArg (fun d => Event.discard fpos d :: w.log) hdata

theorem erase_shrunk (fpos : Nat) (w : World) : Shrunk w (w.erase fpos).world := by
  rcases erase_cases fpos w with ⟨_, h⟩ | ⟨pre, v, post, hcut, _, hentries, hfile, hlog⟩
  · rw [h]
    exact .refl w
  · have hsub : (w.erase fpos).world.file.svf.entries.Sublist w.file.svf.entries := by
      rw [hentries, hcut]
      exact (List.Sublist.refl pre).append (List.sublist_cons_self _ _)
    refine ⟨hsub, fun ht => ?_, by rw [hfile], by rw [hfile],
      ⟨[_], hlog, fun e he => by rw [List.mem_singleton.mp he]; trivial⟩⟩
    have htotal : Segments.total w.file.segments = v.data.length +
        Segments.total (w.erase fpos).world.file.segments := by
      simp only [SparseVirtualFile.segments, hcut, hentries, segmentsOf_append, segmentsOf_cons,
        Segments.total_append, Segments.total_cons]
      omega
    have hcount := ht.bytesTotal
    refine ⟨⟨ht.separated.sublist (hsub.map _), ?_⟩, fun iter hiter => ht.within iter (hsub.subset hiter)⟩
    rw [hfile]
    show sizeSub _ _ = Segments.total (segmentsOf (w.erase fpos).world.file.svf.entries)
    rw [sizeSub_of_le (by omega) ht.representable.bytesTotal, hcount, htotal]
    exact Nat.add_sub_cancel_left ..

/-! ### lru_punt -/

theorem lruPuntLoop_shrunk (bound : Nat) (touches : List (Nat × Nat)) (ret : Nat) (w : World) :
    Shrunk w (lruPuntLoop bound touches ret w).world := by
  induction touches generalizing ret w with
  | nil => exact .refl w
  | cons iter rest ih =>
    simp only [lruPuntLoop]
    split
    · have herase := erase_shrunk iter.2 w
      cases h : (w.erase iter.2).result with
      | error e =>
        rw [Outcome.bind_of_error h]
        exact herase
      | ok n =>
        rw [Outcome.bind_of_ok h]
        refine Shrunk.trans ?_ (ih _ _)
        exact herase.of_file rfl rfl rfl rfl rfl
    · exact .refl w

theorem lruPunt_shrunk (bound : Nat) (w : World) : Shrunk w (w.lruPunt bound).world := by
  have hloop : Shrunk w (if w.mustPunt bound then
      lruPuntLoop bound w.file.blockTouches.entries 0 w else .returned 0 w).world := by
    split
    · exact lruPuntLoop_shrunk ..
    · exact .refl w
  unfold lruPunt
  cases h : (if w.mustPunt bound then
      lruPuntLoop bound w.file.blockTouches.entries 0 w else .returned 0 w).result with
  | error e =>
    rw [Outcome.bind_of_error h]
    exact hloop
  | ok n =>
    rw [Outcome.bind_of_ok h]
    exact hloop.of_file rfl rfl rfl rfl rfl

/-! ### clear -/

/-- Overwriting blocks and erasing them changes nothing else of the file. -/
theorem foldl_svf {α : Type} (f : World → α → World) (l : List α)
    (hf : ∀ w a, (f w a).file = {w.file with svf := (f w a).file.svf}) (w : World) :
    (l.foldl f w).file = {w.file with svf := (l.foldl f w).file.svf} := by
  induction l generalizing w with
  | nil => rfl
  | cons a rest ih =>
    rw [List.foldl_cons, ih, hf]

theorem discardAll_entries (w : World) : w.discardAll.file.svf.entries = [] := by
  have hall : ∀ l (w : World), w.file.svf.entries = l →
      (l.foldl (fun w iter => w.eraseIter iter.1) w).file.svf.entries = [] := by
    intro l
    induction l with
    | nil => exact fun w h => h
    | cons iter rest ih => exact fun w h => ih _ (eraseIter_cut (show _ = [] ++ _ from h))
  exact hall _ w rfl

/-- Nothing is left but the id, the modification time and the configuration. -/
theorem clear_file (w : World) :
    w.clear.file = SparseVirtualFile.new w.file.id w.file.fileModTime w.file.config := by
  have hempty : ∀ w' : World, w'.discardAll.file.svf = OrderedMap.empty := fun w' =>
    OrderedMap.ext (discardAll_entries w')
  have hkeep : ∀ w' : World, w'.discardAll.file =
      {w'.file with svf := w'.discardAll.file.svf} := fun w' =>
    foldl_svf (fun (w : World) (iter : Nat × Val) => w.eraseIter iter.1) _ (fun _ _ => rfl) w'
  have hscrub := foldl_svf (fun w iter => w.overwrite iter.1) w.file.svf.entries (fun _ _ => rfl) w
  unfold clear
  split
  · dsimp only
    rw [hkeep, hempty, hscrub]
    rfl
  · dsimp only
    rw [hkeep, hempty]
    rfl

/-- All that clearing logs is what the blocks held. -/
theorem sound_clear (w : World) : SoundLog w w.clear := by
  have herase : ∀ w' : World, SoundLog w w' → SoundLog w w'.discardAll := fun w' h =>
    List.foldlRecOn _ _ h fun _ hw iter _ => hw.emit (e := .discard iter.1 _) trivial
  unfold clear
  split
  · refine herase _ (List.foldlRecOn _ _ (.refl w) fun _ hw iter _ => ?_)
    exact hw.trans (.of_log_eq rfl)
  · exact herase w (.refl w)

end World
end Svfs
