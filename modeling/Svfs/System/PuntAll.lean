import Svfs.Evict.Exact
import Svfs.Python.SparseVirtualFileSystem
import Svfs.Touch.Punt

/-! Punting every file.

`lru_punt_all` walks over the ids in whatever order the hash map lists them. Each turn punts
one file and lets the others be (`svfLruPuntAllLoop_returns`), so that in the end every file
is as its own punt leaves it, and what was returned is what the files have lost between
them (`lru_punt_all_exact`). -/
namespace Svfs

/-- The files of the system are such that a punt does what it should. -/
structure SparseVirtualFileSystem.Sound (s : SparseVirtualFileSystem) : Prop where
  wellFormed : ∀ id svf, s.svfs.lookup id = some svf → WellFormed svf.file
  representable : ∀ id svf, s.svfs.lookup id = some svf → Representable svf.file
  counted : ∀ id svf, s.svfs.lookup id = some svf → Counted svf.file
  distinct : ∀ id svf, s.svfs.lookup id = some svf → svf.file.Distinct

namespace CpSparseVirtualFileSystem

/-- What a punt of this file returns. -/
def freed (bound : Nat) (svf : World) : Nat :=
  match (svf.lruPunt bound).result with
  | .ok n => n
  | .error _ => 0

/-- What a punt of the file with this id returns. -/
def freedAt (bound : Nat) (self : CpSparseVirtualFileSystem) (id : Id) : Nat :=
  (self.pSvfs.svfs.lookup id).elim 0 (freed bound)

/-- A punt of this file returns what the file loses. -/
def Frees (bound : Nat) (svf : World) : Prop :=
  ∃ n, (svf.lruPunt bound).result = .ok n ∧ (svf.lruPunt bound).world.file.numBytes + n = svf.file.numBytes

/-- What the loop over these keys leaves behind, and returns. -/
structure PuntedKeys (object : CpSparseVirtualFileSystem) (bound : Nat) (keys : List Id) (totalRemoved : Nat)
    (o : PyOutcome CpSparseVirtualFileSystem Nat) : Prop where
  result : o.result = .returned (sizeAdd totalRemoved (keys.map (freedAt bound object)).sum)
  bytes : o.self.pSvfs.totalBytes + (keys.map (freedAt bound object)).sum = object.pSvfs.totalBytes
  ids : o.self.pSvfs.svfs.keys = object.pSvfs.svfs.keys
  files : ∀ id, o.self.pSvfs.svfs.lookup id =
    if id ∈ keys then (object.pSvfs.svfs.lookup id).map fun svf => (svf.lruPunt bound).world
    else object.pSvfs.svfs.lookup id

section Loop
variable {self : CpSparseVirtualFileSystem} {bound n totalRemoved : Nat} {iter : Id} {svf : World}
  {keys rest : List Id}

/-- The system after the turn of one file. -/
def puntedAt (bound : Nat) (iter : Id) (svf : World) (self : CpSparseVirtualFileSystem) :
    CpSparseVirtualFileSystem := ⟨self.pSvfs.set iter (svf.lruPunt bound).world⟩

theorem lookup_puntedAt {id : Id} (hne : id ≠ iter) :
    (self.puntedAt bound iter svf).pSvfs.svfs.lookup id = self.pSvfs.svfs.lookup id :=
  Finmap.lookup_insert_of_ne _ hne

theorem svfLruPuntAllLoop_cons (hsvf : self.pSvfs.svfs.lookup iter = some svf)
    (hresult : (svf.lruPunt bound).result = .ok n) :
    svfLruPuntAllLoop bound (iter :: rest) totalRemoved self =
      svfLruPuntAllLoop bound rest (sizeAdd totalRemoved n) (self.puntedAt bound iter svf) := by
  simp only [svfLruPuntAllLoop, SparseVirtualFileSystem.at?, hsvf, hresult]
  rfl

/-- One turn before the others, which leave its file alone. -/
theorem PuntedKeys.cons {o : PyOutcome CpSparseVirtualFileSystem Nat}
    (h : PuntedKeys (self.puntedAt bound iter svf) bound rest (sizeAdd totalRemoved n) o)
    (hsvf : self.pSvfs.svfs.lookup iter = some svf) (hresult : (svf.lruPunt bound).result = .ok n)
    (hbytes : (svf.lruPunt bound).world.file.numBytes + n = svf.file.numBytes) (hnot : iter ∉ rest) :
    PuntedKeys self bound (iter :: rest) totalRemoved o := by
  have hlookup : ∀ id ∈ rest,
      (self.puntedAt bound iter svf).pSvfs.svfs.lookup id = self.pSvfs.svfs.lookup id :=
    fun id hid => lookup_puntedAt fun heq => hnot (heq ▸ hid)
  have hsum : (self.puntedAt bound iter svf).pSvfs.totalBytes + n = self.pSvfs.totalBytes := by
    have := Finmap.sumOver_insert (fun svf : World => svf.file.numBytes) hsvf (svf.lruPunt bound).world
    simp only [SparseVirtualFileSystem.totalBytes, puntedAt, SparseVirtualFileSystem.set]
    omega
  have hfreed : freedAt bound self iter = n := by
    simp only [freedAt, hsvf, Option.elim_some, freed, hresult]
  have hsame : rest.map (freedAt bound (self.puntedAt bound iter svf)) = rest.map (freedAt bound self) :=
    List.map_congr_left fun id hid => by simp only [freedAt, hlookup id hid]
  obtain ⟨hresult', hbytes', hids', hfiles'⟩ := h
  rw [hsame] at hresult' hbytes'
  refine ⟨?_, ?_, ?_, fun id => ?_⟩
  · rw [hresult', sizeAdd_assoc, List.map_cons, List.sum_cons, hfreed]
  · rw [List.map_cons, List.sum_cons, hfreed]
    omega
  · exact hids'.trans (Finmap.keys_insert_of_mem (Finmap.mem_of_lookup_eq_some hsvf) _)
  · rw [hfiles']
    by_cases hid : id = iter
    · subst hid
      rw [if_neg hnot, if_pos (List.mem_cons_self ..), hsvf]
      exact Finmap.lookup_insert _
    · rw [lookup_puntedAt hid]
      simp only [List.mem_cons, hid, false_or]

/-- Every listed file, at its turn, returns what it loses. -/
theorem svfLruPuntAllLoop_returns (hnodup : keys.Nodup) (hkeys : ∀ id ∈ keys, id ∈ self.pSvfs.svfs)
    (hfrees : ∀ id ∈ keys, ∀ svf, self.pSvfs.svfs.lookup id = some svf → Frees bound svf)
    (htotal : totalRemoved < 2 ^ 64) :
    PuntedKeys self bound keys totalRemoved (svfLruPuntAllLoop bound keys totalRemoved self) := by
  induction keys generalizing self totalRemoved with
  | nil => exact ⟨congrArg PyResult.returned (sizeAdd_zero htotal).symm, rfl, rfl, fun _ => rfl⟩
  | cons iter rest ih =>
    obtain ⟨hnot, hrest⟩ := List.nodup_cons.mp hnodup
    obtain ⟨svf, hsvf⟩ := Finmap.mem_iff.mp (hkeys iter (List.mem_cons_self ..))
    obtain ⟨n, hresult, hbytes⟩ := hfrees iter (List.mem_cons_self ..) svf hsvf
    have hlookup : ∀ id ∈ rest,
        (self.puntedAt bound iter svf).pSvfs.svfs.lookup id = self.pSvfs.svfs.lookup id :=
      fun id hid => lookup_puntedAt fun heq => hnot (heq ▸ hid)
    rw [svfLruPuntAllLoop_cons hsvf hresult]
    refine (ih hrest (fun id hid => ?_) (fun id hid svf' hsvf' => ?_) Wrap.add_lt).cons hsvf hresult hbytes hnot
    · obtain ⟨svf', hsvf'⟩ := Finmap.mem_iff.mp (hkeys id (List.mem_cons_of_mem _ hid))
      exact Finmap.mem_of_lookup_eq_some ((hlookup id hid).trans hsvf')
    · exact hfrees id (List.mem_cons_of_mem _ hid) svf' ((hlookup id hid).symm.trans hsvf')

end Loop

/-- What punting every file is to leave behind, and return. -/
structure PuntedAll (object : CpSparseVirtualFileSystem) (bound : Nat)
    (o : PyOutcome CpSparseVirtualFileSystem PyObject) : Prop where
  /-- Each file is as its own punt leaves it, -/
  files : ∀ id, o.self.pSvfs.svfs.lookup id =
    (object.pSvfs.svfs.lookup id).map fun svf => (svf.lruPunt bound).world
  /-- below the bound, or down to one block. -/
  bounded : ∀ id svf, o.self.pSvfs.svfs.lookup id = some svf →
    svf.file.numBytes < bound ∨ svf.file.numBlocks ≤ 1
  keys : o.self.pSvfs.svfs.keys = object.pSvfs.svfs.keys
  /-- The fall in `num_bytes`, as a `size_t` is; it is exact where that can count all bytes. -/
  returns : ∃ ret : Nat, o.result = .returned (.int ret) ∧
    ret = sizeSub object.pSvfs.numBytes o.self.pSvfs.numBytes ∧
    (object.pSvfs.totalBytes < 2 ^ 64 → o.self.pSvfs.numBytes + ret = object.pSvfs.numBytes)
  /-- A second call has nothing to do, in whatever order it goes. -/
  again : ∀ keys, o.self.pSvfs.Keys keys → (o.self.svfLruPuntAll bound keys).result = .returned (.int (0 : Nat))

/-- Punting every file once more returns nothing, if no file has anything to lose. -/
theorem svfLruPuntAll_idle {self : CpSparseVirtualFileSystem} {bound : Nat} {keys : List Id}
    (hkeys : self.pSvfs.Keys keys) (hidle : ∀ id svf, self.pSvfs.svfs.lookup id = some svf →
      (svf.lruPunt bound).result = .ok 0 ∧ (svf.lruPunt bound).world.file = svf.file) :
    (self.svfLruPuntAll bound keys).result = .returned (.int (0 : Nat)) := by
  have hfrees : ∀ id svf, self.pSvfs.svfs.lookup id = some svf → Frees bound svf := fun id svf hsvf => by
    obtain ⟨hzero, hfile⟩ := hidle id svf hsvf
    exact ⟨0, hzero, by rw [hfile, Nat.add_zero]⟩
  have hresult := (svfLruPuntAllLoop_returns hkeys.nodup (fun id hid => hkeys.mem_iff.mp hid)
    (fun id _ => hfrees id) (Nat.two_pow_pos 64)).result
  have hnothing : (keys.map (freedAt bound self)).sum = 0 := by
    refine List.sum_eq_zero fun n hn => ?_
    obtain ⟨id, hid, rfl⟩ := List.mem_map.mp hn
    obtain ⟨svf, hsvf⟩ := Finmap.mem_iff.mp (hkeys.mem_iff.mp hid)
    simp only [freedAt, hsvf, Option.elim_some, freed, (hidle id svf hsvf).1]
  rw [hnothing] at hresult
  rw [svfLruPuntAll, PyOutcome.bind_of_returned hresult, sizeAdd_zero (by omega)]

/-- **`lru_punt_all` bounds every file** and accounts for every byte. -/
theorem lru_punt_all_exact (self : CpSparseVirtualFileSystem) (bound : Nat) (keys : List Id)
    (h : self.pSvfs.Sound) (hkeys : self.pSvfs.Keys keys) :
    PuntedAll self bound (self.svfLruPuntAll bound keys) := by
  have hpunts := fun id svf hsvf => World.lruPunt_frees (h.wellFormed id svf hsvf)
    (h.representable id svf hsvf) (h.counted id svf hsvf) (h.distinct id svf hsvf) bound
  have hfrees : ∀ id svf, self.pSvfs.svfs.lookup id = some svf → Frees bound svf := fun id svf hsvf => by
    obtain ⟨n, hn, hn', _⟩ := hpunts id svf hsvf
    exact ⟨n, hn, hn'⟩
  obtain ⟨hresult, hbytes, hsame, hlookup⟩ := svfLruPuntAllLoop_returns hkeys.nodup
    (fun id hid => hkeys.mem_iff.mp hid) (fun id _ => hfrees id) (Nat.two_pow_pos 64)
  have hfiles : ∀ id, (svfLruPuntAllLoop bound keys 0 self).self.pSvfs.svfs.lookup id =
      (self.pSvfs.svfs.lookup id).map fun svf => (svf.lruPunt bound).world := by
    intro id
    rw [hlookup]
    by_cases hid : id ∈ keys
    · rw [if_pos hid]
    · rw [if_neg hid, Finmap.lookup_eq_none.mpr fun hmem => hid (hkeys.mem_iff.mpr hmem), Option.map_none]
  rw [svfLruPuntAll, PyOutcome.bind_of_returned hresult]
  refine ⟨hfiles, fun id svf hsvf => ?_, hsame, ⟨_, rfl, ?_, fun hfits => ?_⟩, fun keys' hkeys' => ?_⟩
  · obtain ⟨old, hold, rfl⟩ := Option.map_eq_some_iff.mp ((hfiles id).symm.trans hsvf)
    exact (World.lruPunt_stops (h.distinct id old hold) bound).2
  · have hsum : self.pSvfs.numBytes = sizeAdd (svfLruPuntAllLoop bound keys 0 self).self.pSvfs.numBytes
        (sizeAdd 0 (keys.map (freedAt bound self)).sum) := by
      rw [SparseVirtualFileSystem.numBytes_eq, SparseVirtualFileSystem.numBytes_eq, ← hbytes]
      simp only [sizeAdd, Wrap.add]
      omega
    have hlt : (svfLruPuntAllLoop bound keys 0 self).self.pSvfs.numBytes < 2 ^ 64 := by
      rw [SparseVirtualFileSystem.numBytes_eq]
      exact Nat.mod_lt _ (Nat.two_pow_pos 64)
    rw [hsum, sizeSub, sizeAdd, Wrap.sub_add_cancel hlt Wrap.add_lt]
  · show (svfLruPuntAllLoop bound keys 0 self).self.pSvfs.numBytes + sizeAdd 0 _ = _
    rw [SparseVirtualFileSystem.numBytes_eq, SparseVirtualFileSystem.numBytes_eq, sizeAdd_of_lt (by omega)]
    omega
  · refine svfLruPuntAll_idle hkeys' fun id svf hsvf => ?_
    obtain ⟨old, hold, rfl⟩ := Option.map_eq_some_iff.mp ((hfiles id).symm.trans hsvf)
    obtain ⟨_, _, _, hidle⟩ := hpunts id old hold
    exact hidle

/-- Two files of two blocks each. -/
def twoFiles : CpSparseVirtualFileSystem :=
  ⟨((SparseVirtualFileSystem.new).set [97] (Run.run Command.step (World.new [97] 0)
      [.write 0 0 [1, 1], .write 0 4 [2]])).set [98] (Run.run Command.step (World.new [98] 0)
      [.write 0 5 [3], .write 0 0 [4, 4, 4]])⟩

theorem lookup_twoFiles {id : Id} {svf : World} (h : twoFiles.pSvfs.svfs.lookup id = some svf) :
    svf = Run.run Command.step (World.new [97] 0) [.write 0 0 [1, 1], .write 0 4 [2]] ∨
      svf = Run.run Command.step (World.new [98] 0) [.write 0 5 [3], .write 0 0 [4, 4, 4]] := by
  by_cases hb : id = [98]
  · subst hb
    exact .inr (Option.some.inj ((Finmap.lookup_insert _).symm.trans h)).symm
  · have h' := (Finmap.lookup_insert_of_ne _ hb).symm.trans h
    by_cases ha : id = [97]
    · subst ha
      exact .inl (Option.some.inj ((Finmap.lookup_insert _).symm.trans h')).symm
    · have h'' := (Finmap.lookup_insert_of_ne _ ha).symm.trans h'
      cases h''

theorem sound_twoFiles : twoFiles.pSvfs.Sound := by
  refine ⟨fun id svf h => ?_, fun id svf h => ?_, fun id svf h => ?_, fun id svf h => ?_⟩
  · rcases lookup_twoFiles h with rfl | rfl <;> exact ⟨⟨by decide, by decide⟩, by decide⟩
  · rcases lookup_twoFiles h with rfl | rfl <;> exact ⟨by decide, by decide, by decide⟩
  · rcases lookup_twoFiles h with rfl | rfl <;> exact ⟨by decide, by decide, by decide, by decide⟩
  · rcases lookup_twoFiles h with rfl | rfl <;> unfold SparseVirtualFile.Distinct <;> decide

theorem lru_punt_all_exact_twoFiles : PuntedAll twoFiles 3 (twoFiles.svfLruPuntAll 3 [[97], [98]]) :=
  lru_punt_all_exact twoFiles 3 [[97], [98]] sound_twoFiles (by decide)

end CpSparseVirtualFileSystem
end Svfs
