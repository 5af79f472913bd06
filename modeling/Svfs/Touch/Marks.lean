import Svfs.Evict.Remove
import Svfs.File.Command
import Svfs.Query.Read
import Svfs.Write.Dispatch
import Svfs.Write.Walk

/-! Who touches what.

A mark is a block's start and its touch. On any map at all, however its blocks lie,
a call that hits a block gives it the counter's value and moves the counter on
(`Hit`); any other call leaves the marks of the blocks that stay as they are
(`Kept`). `step_marked` says which it is. -/
namespace Svfs

/-- The starts of the blocks with their touches. -/
def SparseVirtualFile.marks (s : SparseVirtualFile) : List (Nat × Nat) :=
  s.svf.entries.map fun iter => (iter.1, iter.2.blockTouch)

/-- The start of the last block to begin at or before a position. -/
def SparseVirtualFile.blockAt (s : SparseVirtualFile) (fpos : Nat) : Option Nat :=
  (s.svf.upperBound fpos).before.getLast?.map Prod.fst

namespace SparseVirtualFile
variable {s : SparseVirtualFile}

theorem mem_marks {m : Nat × Nat} :
    m ∈ s.marks ↔ ∃ iter ∈ s.svf.entries, (iter.1, iter.2.blockTouch) = m := List.mem_map

theorem mem_marks_of {iter : Nat × Val} (h : iter ∈ s.svf.entries) :
    (iter.1, iter.2.blockTouch) ∈ s.marks := List.mem_map_of_mem h

/-- One more block in the map is one more mark. -/
theorem mem_marks_insert {s s' : SparseVirtualFile} {k : Nat} {v : Val}
    (h : ∀ iter, iter ∈ s'.svf.entries ↔ iter = (k, v) ∨ iter ∈ s.svf.entries) (m : Nat × Nat) :
    m ∈ s'.marks ↔ m = (k, v.blockTouch) ∨ m ∈ s.marks := by
  simp only [mem_marks, h]
  constructor
  · rintro ⟨iter, rfl | hiter, rfl⟩
    · exact .inl rfl
    · exact .inr ⟨iter, hiter, rfl⟩
  · rintro (rfl | ⟨iter, hiter, rfl⟩)
    · exact ⟨_, .inl rfl, rfl⟩
    · exact ⟨iter, .inr hiter, rfl⟩

/-- One block, one mark. -/
theorem marks_inj {m m' : Nat × Nat} (h : m ∈ s.marks) (h' : m' ∈ s.marks) (heq : m.1 = m'.1) :
    m = m' := by
  obtain ⟨iter, hiter, rfl⟩ := mem_marks.mp h
  obtain ⟨iter', hiter', rfl⟩ := mem_marks.mp h'
  have hval : iter.2 = iter'.2 := Option.some.inj ((OrderedMap.find?_of_mem hiter).symm.trans
    (by rw [show iter.1 = iter'.1 from heq]; exact OrderedMap.find?_of_mem hiter'))
  rw [show iter.1 = iter'.1 from heq, hval]

theorem blockAt_eq_some {fpos k : Nat} (hmem : ∃ t, (k, t) ∈ s.marks) (hle : k ≤ fpos)
    (hlast : ∀ m ∈ s.marks, m.1 ≤ fpos → m.1 ≤ k) : s.blockAt fpos = some k := by
  obtain ⟨t, ht⟩ := hmem
  obtain ⟨iter, hiter, heq⟩ := mem_marks.mp ht
  obtain ⟨pre, rest, hcut⟩ := List.append_of_mem hiter
  have hkey : iter.1 = k := congrArg Prod.fst heq
  have hsorted := OrderedMap.cut_lt s.svf.sorted hcut
  have hcut' : s.svf.entries = (pre ++ [iter]) ++ rest := by
    rw [hcut, List.append_assoc, List.singleton_append]
  have hupper := OrderedMap.upperBound_cut (k := fpos) hcut' (by
      intro e he
      rcases List.mem_append.mp he with he | he
      · have := hsorted.1 e he
        omega
      · rw [List.mem_singleton.mp he, hkey]
        exact hle) (by
      intro e he
      by_contra hcon
      have hmem : e ∈ s.svf.entries := by simp [hcut, he]
      have := hlast _ (mem_marks_of hmem) (by simpa using hcon)
      have := hsorted.2 e he
      simp only at *
      omega)
  simp [blockAt, hupper, hkey]

/-- No two blocks bear one touch. -/
def Distinct (s : SparseVirtualFile) : Prop :=
  ∀ m ∈ s.marks, ∀ m' ∈ s.marks, m.2 = m'.2 → m.1 = m'.1

theorem Distinct.pairwise (h : s.Distinct) :
    s.svf.entries.Pairwise fun a b => a.2.blockTouch ≠ b.2.blockTouch := by
  refine s.svf.sorted.imp_of_mem fun {a b} ha hb hlt heq => ?_
  exact hlt.ne (h _ (mem_marks_of ha) _ (mem_marks_of hb) heq)

/-- `block_touches` has an entry for each block, and no other. -/
theorem Distinct.blockTouches_find? (h : s.Distinct) {iter : Nat × Val} (hiter : iter ∈ s.svf.entries) :
    s.blockTouches.find? iter.2.blockTouch = some iter.1 :=
  OrderedMap.find?_foldl_assign h.pairwise hiter _

theorem Distinct.blockTouches_size (h : s.Distinct) : s.blockTouches.size = s.numBlocks :=
  OrderedMap.size_foldl_assign h.pairwise fun _ _ => rfl

theorem mem_blockTouches {t k : Nat} (h : (t, k) ∈ s.blockTouches.entries) : (k, t) ∈ s.marks := by
  rcases OrderedMap.mem_foldl_assign h with hmem | ⟨iter, hiter, heq⟩
  · cases hmem
  · obtain ⟨rfl, rfl⟩ := Prod.mk.inj heq
    exact mem_marks_of hiter

/-- `block_touches` names blocks that are there. -/
theorem find?_ne_none_of_blockTouches {t k : Nat} (h : (t, k) ∈ s.blockTouches.entries) :
    s.svf.find? k ≠ none := by
  obtain ⟨iter, hiter, heq⟩ := mem_marks.mp (mem_blockTouches h)
  rw [← show iter.1 = k from congrArg Prod.fst heq, OrderedMap.find?_of_mem hiter]
  simp

/-- and none twice. -/
theorem nodup_blockTouches (s : SparseVirtualFile) : (s.blockTouches.entries.map Prod.snd).Nodup := by
  rw [List.Nodup, List.pairwise_map]
  refine s.blockTouches.sorted.imp_of_mem fun {a b} ha hb hlt heq => ?_
  exact hlt.ne (congrArg Prod.snd (marks_inj (mem_blockTouches ha) (mem_blockTouches hb) heq))

/-- The marks at or before `fpos` are those up to the last block to begin there. -/
theorem marks_le_of_cut {pre rest : List (Nat × Val)} {iter : Nat × Val} {fpos : Nat}
    (hcut : s.svf.entries = pre ++ iter :: rest) (hrest : ∀ next ∈ rest, fpos < next.1) :
    ∀ m ∈ s.marks, m.1 ≤ fpos → m.1 ≤ iter.1 := by
  intro m hm hmle
  obtain ⟨e, he, rfl⟩ := mem_marks.mp hm
  rw [hcut, List.append_cons] at he
  rcases List.mem_append.mp he with he | he
  · rcases List.mem_append.mp he with he | he
    · exact ((OrderedMap.cut_lt s.svf.sorted hcut).1 e he).le
    · rw [List.mem_singleton.mp he]
  · exact absurd (hrest e he) (not_lt.mpr hmle)

end SparseVirtualFile

/-- The block at `k` was touched; no other block changed its mark, came or went. -/
structure Touched (k : Nat) (s s' : SparseVirtualFile) : Prop where
  counter : s'.blockTouch = touchSucc s.blockTouch
  present : (k, s.blockTouch) ∈ s'.marks
  others : ∀ m, m.1 ≠ k → (m ∈ s'.marks ↔ m ∈ s.marks)

/-- The block at `k` was touched; no other block changed its mark or came. -/
structure Hit (k : Nat) (s s' : SparseVirtualFile) : Prop where
  counter : s'.blockTouch = touchSucc s.blockTouch
  present : (k, s.blockTouch) ∈ s'.marks
  others : ∀ m ∈ s'.marks, m.1 ≠ k → m ∈ s.marks

/-- No block was touched and none came; the counter may have moved. -/
structure Kept (s s' : SparseVirtualFile) : Prop where
  counter : s'.blockTouch = s.blockTouch ∨ s'.blockTouch = touchSucc s.blockTouch
  marks : ∀ m ∈ s'.marks, m ∈ s.marks

theorem Touched.hit {k : Nat} {s s' : SparseVirtualFile} (h : Touched k s s') : Hit k s s' :=
  ⟨h.counter, h.present, fun m hm hne => (h.others m hne).mp hm⟩

/-- The block hit is the last one to begin at or before `fpos`, if it was so before. -/
theorem Hit.blockAt {k fpos : Nat} {s s' : SparseVirtualFile} (h : Hit k s s') (hle : k ≤ fpos)
    (hlast : ∀ m ∈ s.marks, m.1 ≤ fpos → m.1 ≤ k) : s'.blockAt fpos = some k := by
  refine SparseVirtualFile.blockAt_eq_some ⟨_, h.present⟩ hle fun m hm hmle => ?_
  by_cases hk : m.1 = k
  · exact hk.le
  · exact hlast m (h.others m hm hk) hmle

/-- How a call at `fpos` leaves the marks: it hits the block there if it returns, and
none if it throws. -/
def Marked {α : Type} (w : World) (fpos : Nat) (o : Outcome α) : Prop :=
  match o.result with
  | .ok _ => ∃ k, o.world.file.blockAt fpos = some k ∧ Hit k w.file o.world.file
  | .error _ => Kept w.file o.world.file

theorem Marked.of_ok {α : Type} {w : World} {k fpos : Nat} {o : Outcome α} {a : α} (hresult : o.result = .ok a)
    (hat : o.world.file.blockAt fpos = some k) (hhit : Hit k w.file o.world.file) : Marked w fpos o := by
  unfold Marked
  rw [hresult]
  exact ⟨k, hat, hhit⟩

theorem Marked.of_error {α : Type} {w : World} {fpos : Nat} {o : Outcome α} {e : Exception}
    (hresult : o.result = .error e) (hkept : Kept w.file o.world.file) : Marked w fpos o := by
  unfold Marked
  rw [hresult]
  exact hkept

theorem Marked.map {α β : Type} {w : World} {fpos : Nat} {o : Outcome α} (h : Marked w fpos o)
    (f : α → β) : Marked w fpos (o.bind fun a w => .returned (f a) w) := by
  unfold Marked at h
  cases ho : o.result with
  | error e =>
    rw [ho] at h
    rw [Outcome.bind_of_error ho]
    exact .of_error rfl h
  | ok a =>
    rw [ho] at h
    rw [Outcome.bind_of_ok ho]
    obtain ⟨k, hat, hhit⟩ := h
    exact .of_ok rfl hat hhit

namespace World

/-- Blocks starting at `gone` may have left the map; no touch moved. -/
structure Thinned (gone : List Nat) (w w' : World) : Prop where
  marks : ∀ m ∈ w'.file.marks, m ∈ w.file.marks
  stays : ∀ m ∈ w.file.marks, m.1 ∉ gone → m ∈ w'.file.marks
  blockTouch : w'.file.blockTouch = w.file.blockTouch

section Thinned
variable {w w' : World} {gone : List Nat}

theorem Thinned.refl (gone : List Nat) (w : World) : Thinned gone w w :=
  ⟨fun _ h => h, fun _ h _ => h, rfl⟩

theorem Thinned.trans {a b c : World} (hab : Thinned gone a b) (hbc : Thinned gone b c) :
    Thinned gone a c :=
  ⟨fun m hm => hab.marks m (hbc.marks m hm), fun m hm hnot => hbc.stays m (hab.stays m hm hnot) hnot,
    hbc.blockTouch.trans hab.blockTouch⟩

theorem Thinned.mono {more : List Nat} (h : Thinned gone w w') (hsub : ∀ k ∈ gone, k ∈ more) :
    Thinned more w w' :=
  ⟨h.marks, fun m hm hnot => h.stays m hm fun hmem => hnot (hsub _ hmem), h.blockTouch⟩

theorem Thinned.of_marks (hmarks : w'.file.marks = w.file.marks)
    (htouch : w'.file.blockTouch = w.file.blockTouch) : Thinned gone w w' :=
  ⟨fun _ h => hmarks ▸ h, fun _ h _ => hmarks ▸ h, htouch⟩

theorem Thinned.of_file (h : w'.file = w.file) : Thinned gone w w' :=
  .of_marks (by rw [h]) (by rw [h])

/-- What happens to the bytes of a block does not show in its mark. -/
theorem marks_modify (s : SparseVirtualFile) (k : Nat) {f : Val → Val}
    (hf : ∀ v, (f v).blockTouch = v.blockTouch) :
    ({s with svf := s.svf.modify k f} : SparseVirtualFile).marks = s.marks := by
  simp only [SparseVirtualFile.marks, OrderedMap.modify, List.map_map]
  apply List.map_congr_left
  intro e _
  simp only [Function.comp]
  split
  · rw [hf]
  · rfl

theorem thinned_pushBack (w : World) (k : Nat) (bytes : List Byte) :
    Thinned gone w (w.pushBack k bytes) :=
  .of_marks (marks_modify w.file k fun _ => rfl) rfl

theorem thinned_swallow (w : World) (k : Nat) : Thinned [k] w (w.swallow k) := by
  have herase : ∀ w : World, Thinned [k] w (w.eraseIter k) := by
    intro w
    refine ⟨fun m hm => ?_, fun m hm hnot => ?_, rfl⟩
    · obtain ⟨iter, hiter, rfl⟩ := SparseVirtualFile.mem_marks.mp hm
      exact SparseVirtualFile.mem_marks_of (OrderedMap.mem_erase.mp hiter).1
    · obtain ⟨iter, hiter, rfl⟩ := SparseVirtualFile.mem_marks.mp hm
      exact SparseVirtualFile.mem_marks_of (s := (w.eraseIter k).file)
        (OrderedMap.mem_erase.mpr ⟨hiter, by simpa using hnot⟩)
  unfold swallow
  split
  · exact Thinned.trans (b := w.overwrite k) (.of_marks (marks_modify w.file k fun _ => rfl) rfl)
      (herase _)
  · exact herase w

/-- A walk over blocks takes some of them away and touches none. -/
theorem thinned_keptByWalk (gone : List Nat) : KeptByWalk gone (Thinned gone) where
  refl := .refl gone
  trans := .trans
  emit := fun _ _ _ => .of_file rfl
  addBytes := fun _ _ => .of_marks rfl rfl
  pushBack := thinned_pushBack
  swallow := fun w k hk => (thinned_swallow w k).mono fun _ hj => List.mem_singleton.mp hj ▸ hk

end Thinned

/-! ### What a call leaves -/

section Marked
variable {w : World} {k fpos : Nat}

/-- `block_touch = m_block_touch++` on a block of the map. -/
theorem touched_of_svf {s s' : SparseVirtualFile} (hmem : ∃ t, (k, t) ∈ s.marks)
    (hsvf : s'.svf = s.svf.modify k fun v => {v with blockTouch := s.blockTouch})
    (hcounter : s'.blockTouch = touchSucc s.blockTouch) : Touched k s s' := by
  obtain ⟨t, ht⟩ := hmem
  obtain ⟨⟨_, v⟩, hiter, heq⟩ := SparseVirtualFile.mem_marks.mp ht
  obtain ⟨rfl, rfl⟩ := Prod.mk.inj heq
  refine ⟨hcounter, SparseVirtualFile.mem_marks.mpr ⟨(_, {v with blockTouch := s.blockTouch}), ?_, rfl⟩,
    fun m hne => ?_⟩
  · rw [hsvf]
    exact OrderedMap.mem_modify.mpr (.inl ⟨rfl, v, hiter, rfl⟩)
  · simp only [SparseVirtualFile.mem_marks, hsvf]
    constructor
    · rintro ⟨⟨j, u⟩, hu, rfl⟩
      rcases OrderedMap.mem_modify.mp hu with ⟨rfl, _⟩ | ⟨_, hu⟩
      · exact absurd rfl hne
      · exact ⟨_, hu, rfl⟩
    · rintro ⟨⟨j, u⟩, hu, rfl⟩
      exact ⟨_, OrderedMap.mem_modify.mpr (.inr ⟨hne, hu⟩), rfl⟩

/-- An insertion adds its block's mark, or finds the key taken and changes nothing. -/
theorem insertNew_marks (caller : String) (fpos : Nat) (v : Val) (w : World) :
    (w.insertNew caller fpos v).world.file.blockTouch = w.file.blockTouch ∧
      (((w.insertNew caller fpos v).result = .ok () ∧
        ∀ m, m ∈ (w.insertNew caller fpos v).world.file.marks ↔
          m = (fpos, v.blockTouch) ∨ m ∈ w.file.marks) ∨
      (∃ e, (w.insertNew caller fpos v).result = .error e) ∧
        (w.insertNew caller fpos v).world.file.marks = w.file.marks) := by
  cases hfind : w.file.svf.find? fpos with
  | none =>
    rw [insertNew_of_absent caller hfind]
    exact ⟨rfl, .inl ⟨rfl, SparseVirtualFile.mem_marks_insert fun _ => OrderedMap.mem_insert_of_absent hfind⟩⟩
  | some b =>
    have hsize : (w.file.svf.insert fpos v).size ≠ 1 + w.file.svf.size := fun h => by
      rw [(OrderedMap.size_insert_eq_iff w.file.svf fpos v).mp h] at hfind
      cases hfind
    have heq : w.insertNew caller fpos v = .threw _
        {w with file := {w.file with svf := w.file.svf.insert fpos v}} := if_pos hsize
    rw [heq]
    refine ⟨rfl, .inr ⟨⟨_, rfl⟩, ?_⟩⟩
    simp only [Outcome.threw_world, OrderedMap.insert_of_find? hfind]

/-- A block put in among the others is the one touched. -/
theorem touched_of_insert {s s' : SparseVirtualFile}
    (hmarks : ∀ m, m ∈ s'.marks ↔ m = (k, s.blockTouch) ∨ m ∈ s.marks)
    (hcounter : s'.blockTouch = touchSucc s.blockTouch) : Touched k s s' := by
  refine ⟨hcounter, (hmarks _).mpr (.inl rfl), fun m hne => (hmarks m).trans (or_iff_right ?_)⟩
  rintro rfl
  exact hne rfl

/-- A write that puts a block at `fpos` hits it, if no block with that start is in the way. -/
theorem writeNewBlock_marked (fpos : Nat) (data : List Byte) (w : World) :
    Marked w fpos (w.writeNewBlock fpos data) := by
  rw [writeNewBlock_eq]
  obtain ⟨hcounter, ⟨hresult, hmarks⟩ | ⟨⟨e, hresult⟩, hmarks⟩⟩ := insertNew_marks
    "SparseVirtualFile::_write_new_block():" fpos ⟨data, w.file.blockTouch⟩ (enterNewBlock fpos data w)
  · have hhit := (touched_of_insert (s := w.file) hmarks hcounter).hit
    exact .of_ok hresult (hhit.blockAt (le_refl _) fun m _ hm => hm) hhit
  · exact .of_error hresult ⟨.inr hcounter, fun m hm => hmarks ▸ hm⟩

/-- The walk of `_write_new_append_old` has issued the touch before it throws. -/
theorem writeNewAppendOld_marked (fpos : Nat) (data : List Byte) (iters : List (Nat × Val)) (w : World) :
    Marked w fpos (w.writeNewAppendOld fpos data iters) := by
  rw [writeNewAppendOld_bind]
  have hwalk : Thinned (iters.map Prod.fst) (enterPrepend fpos data iters w) (prependLoop
      (sizeAdd fpos data.length) iters data fpos [] (enterPrepend fpos data iters w)).world :=
    (thinned_keptByWalk _).prependLoop ..
  generalize prependLoop (sizeAdd fpos data.length) iters data fpos []
    (enterPrepend fpos data iters w) = o at hwalk
  have hcounter : o.world.file.blockTouch = touchSucc w.file.blockTouch := hwalk.blockTouch
  have hsub : ∀ m ∈ o.world.file.marks, m ∈ w.file.marks := hwalk.marks
  cases hloop : o.result with
  | error e =>
    rw [Outcome.bind_of_error hloop]
    exact .of_error rfl ⟨.inr hcounter, hsub⟩
  | ok b =>
    rw [Outcome.bind_of_ok hloop]
    obtain ⟨hcounter', ⟨hresult, hmarks'⟩ | ⟨⟨e, hresult⟩, hmarks'⟩⟩ := insertNew_marks
      "SparseVirtualFile::write():" fpos ⟨b.1, w.file.blockTouch⟩ o.world
    · rw [Outcome.bind_of_ok hresult]
      have hhit : Hit fpos w.file _ := ⟨hcounter'.trans hcounter,
        (hmarks' _).mpr (.inl rfl), fun m hm hne => (hmarks' m).mp hm |>.elim
          (fun heq => absurd (congrArg Prod.fst heq) hne) (hsub m)⟩
      exact .of_ok rfl (hhit.blockAt (le_refl _) fun m _ hm => hm) hhit
    · rw [Outcome.bind_of_error hresult]
      exact .of_error rfl ⟨.inr (hcounter'.trans hcounter),
        fun m hm => hsub m (hmarks' ▸ hm)⟩

theorem writeAppendNewToOld_marked {fpos : Nat} {data : List Byte} {w : World}
    {pre rest : List (Nat × Val)} {base : Nat × Val} (hcut : w.file.svf.entries = pre ++ base :: rest)
    (hle : base.1 ≤ fpos) (hrest : ∀ next ∈ rest, fpos < next.1) :
    Marked w fpos (w.writeAppendNewToOld fpos data base rest) := by
  unfold writeAppendNewToOld
  dsimp only
  generalize hlen : min data.length (sizeSub base.2.data.length (sizeSub fpos base.1)) = len
  generalize hcheck : diffCheck fpos data base.2.data (sizeSub fpos base.1) len base.2.data
    (sizeSub fpos base.1) _ = o
  have hfile : o.world.file = w.file := by rw [← hcheck, diffCheck_file]; rfl
  cases ho : o.result with
  | error e =>
    rw [Outcome.bind_of_error ho]
    exact .of_error rfl ⟨.inl (by rw [hfile]), fun m hm => hfile ▸ hm⟩
  | ok _ =>
    rw [Outcome.bind_of_ok ho]
    have hwalk : Thinned (rest.map Prod.fst) o.world
        (appendLoop base.1 rest (data.drop len) (sizeAdd fpos len) o.world).world :=
      (thinned_keptByWalk _).appendLoop ..
    generalize appendLoop base.1 rest (data.drop len) (sizeAdd fpos len) o.world = o' at hwalk
    have hcounter : o'.world.file.blockTouch = w.file.blockTouch := hwalk.blockTouch.trans (by rw [hfile])
    have hsub : ∀ m ∈ o'.world.file.marks, m ∈ w.file.marks := fun m hm => hfile ▸ hwalk.marks m hm
    cases ho' : o'.result with
    | error e =>
      rw [Outcome.bind_of_error ho']
      exact .of_error rfl ⟨.inl hcounter, hsub⟩
    | ok left =>
      rw [Outcome.bind_of_ok ho']
      -- The walk has not taken the base block away.
      have hbase : ∃ t, (base.1, t) ∈ o'.world.file.marks := by
        refine ⟨base.2.blockTouch, hwalk.stays _ ?_ ?_⟩
        · rw [hfile]
          exact SparseVirtualFile.mem_marks_of (by simp [hcut])
        · intro hmem
          obtain ⟨next, hnext, heq⟩ := List.mem_map.mp hmem
          have := hrest next hnext
          omega
      have htouched : Touched base.1 o'.world.file ((o'.world.touch base.1).emit
          (.assertion left.isEmpty)).file := touched_of_svf hbase rfl rfl
      have hhit : Hit base.1 w.file ((o'.world.touch base.1).emit (.assertion left.isEmpty)).file :=
        ⟨by rw [htouched.counter, hcounter], hcounter ▸ htouched.present,
          fun m hm hne => hsub m ((htouched.others m hne).mp hm)⟩
      exact .of_ok rfl (hhit.blockAt hle (SparseVirtualFile.marks_le_of_cut hcut hrest)) hhit

/-- **A write** hits the block at `fpos` when it returns, and none when it throws. -/
theorem write_marked (now : Int) (fpos : Nat) (data : List Byte) (w : World) :
    Marked w fpos (w.write now fpos data) := by
  have hblocks : Marked w fpos (w.writeBlocks fpos data) := by
    cases writeBlocks_cases fpos data w with
    | newBlock heq _ =>
      rw [heq]
      exact writeNewBlock_marked fpos data w
    | newAppendOld iter rest heq _ _ _ _ =>
      rw [heq]
      exact writeNewAppendOld_marked fpos data (iter :: rest) w
    | appendNewToOld pre base rest heq hcut hle hrest _ _ =>
      rw [heq]
      exact writeAppendNewToOld_marked hcut hle hrest
  unfold write
  cases ho : (w.writeBlocks fpos data).result with
  | error e =>
    rw [Outcome.bind_of_error ho]
    unfold Marked at hblocks
    rw [ho] at hblocks
    exact .of_error rfl hblocks
  | ok _ =>
    rw [Outcome.bind_of_ok ho]
    unfold Marked at hblocks
    rw [ho] at hblocks
    obtain ⟨k, hat, hhit⟩ := hblocks
    exact .of_ok (k := k) rfl hat ⟨hhit.counter, hhit.present, hhit.others⟩

/-- A read that returns touches the last block to begin at or before its position. -/
theorem read_touched {now : Int} {fpos len : Nat} {w : World} {pre rest : List (Nat × Val)}
    {iter : Nat × Val} (hcut : w.file.svf.entries = pre ++ iter :: rest) {offset : Nat}
    (hfits : sizeAdd offset len ≤ iter.2.data.length) :
    Touched iter.1 w.file (w.readFrom now fpos len iter offset).world.file := by
  rw [readFrom_returns hfits]
  exact touched_of_svf ⟨_, SparseVirtualFile.mem_marks_of (by simp [hcut])⟩ rfl rfl

/-- **A read** hits the block at `fpos` when it returns, and none when it throws. -/
theorem read_marked (now : Int) (fpos len : Nat) (w : World) :
    Marked w fpos (w.read now fpos len) := by
  rcases read_cases now fpos len w with ⟨_, m, h⟩ | ⟨pre, iter, rest, hcut, hle, hrest, h⟩
  · rw [h]
    exact .of_error rfl ⟨.inl rfl, fun _ hm => hm⟩
  · rw [h]
    rcases Nat.lt_or_ge iter.2.data.length
      (sizeAdd (if iter.1 = fpos then 0 else sizeSub fpos iter.1) len) with hover | hfits
    · rw [readFrom_throws hover]
      exact .of_error rfl ⟨.inl rfl, fun _ hm => hm⟩
    · have htouched : Touched iter.1 w.file (w.readFrom now fpos len iter _).world.file :=
        read_touched hcut hfits
      have hhit := htouched.hit
      exact .of_ok (by rw [readFrom_returns hfits]; rfl)
        (hhit.blockAt hle (SparseVirtualFile.marks_le_of_cut hcut hrest)) hhit

theorem Shrunk.kept {w w' : World} (h : Shrunk w w') : Kept w.file w'.file := by
  refine ⟨.inl h.blockTouch, fun m hm => ?_⟩
  obtain ⟨iter, hiter, rfl⟩ := SparseVirtualFile.mem_marks.mp hm
  exact SparseVirtualFile.mem_marks_of (h.blocks.subset hiter)

end Marked
end World

/-! ### Any call -/

/-- The position a write or a read is made at. -/
def Command.position : Command → Option Nat
  | .write _ fpos _ | .read _ fpos _ => some fpos
  | .erase _ | .clear | .lruPunt _ => none

/-- The block that a call from `w` hit or produced: if it is a write or a read that
returned, the last one to begin at or before its position. -/
def Command.hit (c : Command) (w : World) : Option Nat :=
  match (c.exec w).result with
  | .ok _ => c.position.bind (c.step w).file.blockAt
  | .error _ => none

/-- Where a call hits a block, that block alone is touched; where it hits none, no
block is, unless all are gone. -/
theorem step_marked (c : Command) (w : World) :
    (∃ k, c.hit w = some k ∧ Hit k w.file (c.step w).file) ∨
    (c.hit w = none ∧ c ≠ .clear ∧ Kept w.file (c.step w).file) ∨
    (c.hit w = none ∧ c = .clear) := by
  have hat : ∀ fpos, c.position = some fpos → Marked w fpos (c.exec w) →
      (∃ k, c.hit w = some k ∧ Hit k w.file (c.step w).file) ∨
      (c.hit w = none ∧ Kept w.file (c.step w).file) := by
    intro fpos hpos hmarked
    unfold Marked at hmarked
    unfold Command.hit
    rw [hpos]
    cases hresult : (c.exec w).result with
    | error e =>
      rw [hresult] at hmarked
      exact .inr ⟨rfl, hmarked⟩
    | ok a =>
      rw [hresult] at hmarked
      obtain ⟨k, hk, hhit⟩ := hmarked
      exact .inl ⟨k, hk, hhit⟩
  have hnowhere : c.position = none → c.hit w = none := by
    intro hpos
    unfold Command.hit
    rw [hpos]
    split <;> rfl
  cases c with
  | write now fpos data =>
    exact (hat fpos rfl ((World.write_marked now fpos data w).map _)).imp_right fun h =>
      .inl ⟨h.1, nofun, h.2⟩
  | read now fpos len =>
    exact (hat fpos rfl ((World.read_marked now fpos len w).map _)).imp_right fun h =>
      .inl ⟨h.1, nofun, h.2⟩
  | erase fpos =>
    rw [step_erase]
    exact .inr (.inl ⟨hnowhere rfl, nofun, (World.erase_shrunk fpos w).kept⟩)
  | clear => exact .inr (.inr ⟨hnowhere rfl, rfl⟩)
  | lruPunt bound =>
    rw [step_lruPunt]
    exact .inr (.inl ⟨hnowhere rfl, nofun, (World.lruPunt_shrunk bound w).kept⟩)

end Svfs
