import Svfs.Evict.Counters
import Svfs.Library.Run
import Svfs.System.Dictionary
import Svfs.System.StandAlone

/-! A system is a dictionary of `cSVF` objects.

Every method of `cSVFS` answers as the dictionary and the `cSVF` method do, with an error of
the same kind where it raises one, and leaves every file in the very same state,
`lru_punt_all` over the ids in any order included. Of the calls that look outside no buffer and
ask for no more than a `bytes` can have (`Given`), only a write of no bytes is taken differently,
and that always shows (`alike_iff`). -/
namespace Svfs

/-! ### One file -/

namespace CpSparseVirtualFileSystem
variable {self : CpSparseVirtualFileSystem} {id : PyObject} {cId : Id}

theorem onFile_found {α : Type} {svf : World} (function : String) (noId : String → Id → PyError)
    (method : Id → World → PyOutcome World α) (hid : parseString id = some cId)
    (hsvf : self.pSvfs.svfs.lookup cId = some svf) :
    self.onFile function noId id method =
      ⟨(method cId svf).result, ⟨self.pSvfs.set cId (method cId svf).self⟩⟩ := by
  have hhas : self.pSvfs.has cId := decide_eq_true (Finmap.mem_of_lookup_eq_some hsvf)
  have hat : self.pSvfs.at? cId = .ok svf := by rw [SparseVirtualFileSystem.at?, hsvf]
  simp only [onFile, hid, hhas, if_true, hat]

theorem onFile_unparsed {α : Type} (function : String) (noId : String → Id → PyError)
    (method : Id → World → PyOutcome World α) (hid : parseString id = none) :
    self.onFile function noId id method = ⟨.raised (stringArgumentError id), self⟩ := by
  simp only [onFile, hid]

theorem onFile_absent {α : Type} (function : String) (noId : String → Id → PyError)
    (method : Id → World → PyOutcome World α) (hid : parseString id = some cId) (hsvf : cId ∉ self.pSvfs.svfs) :
    self.onFile function noId id method = ⟨.raised (noId function cId), self⟩ := by
  have hhas : ¬ self.pSvfs.has cId := by simpa [SparseVirtualFileSystem.has] using hsvf
  simp only [onFile, hid, if_neg hhas]

/-- An id that the unit `s` refuses is refused by every method, -/
theorem callFile_unparsed (sizes : Sizes) (m : FileMethod) (hid : parseString id = none) :
    self.callFile sizes m id = ⟨.raised (stringArgumentError id), self⟩ := by
  cases m with
  | write now fpos data => simp only [callFile, svfWrite, hid, PyOutcome.map, PyResult.map]
  | _ => exact congrArg (PyOutcome.map _) (onFile_unparsed _ _ _ hid)

/-- and one that there is no file of is an `IndexError`. -/
theorem callFile_absent (sizes : Sizes) (m : FileMethod) (hid : parseString id = some cId)
    (hsvf : cId ∉ self.pSvfs.svfs) :
    ∃ e, self.callFile sizes m id = ⟨.raised e, self⟩ ∧ e.kind = .indexError := by
  cases m with
  | write now fpos data =>
    have hhas : ¬ self.pSvfs.has cId := by simpa [SparseVirtualFileSystem.has] using hsvf
    simp only [callFile, svfWrite, hid, if_neg hhas, PyOutcome.map, PyResult.map]
    exact ⟨_, rfl, rfl⟩
  | _ => exact ⟨_, congrArg (PyOutcome.map _) (onFile_absent _ _ _ hid hsvf), rfl⟩

end CpSparseVirtualFileSystem

namespace Stores

section Step
variable {sizes : Sizes} {b : Stores} {id : PyObject} {cId : Id} {svf : CpSparseVirtualFile}

/-- What both find under an id. -/
theorem Corresponds.cases (h : b.Corresponds) (cId : Id) :
    (b.dictionary.files cId = none ∧ b.system.pSvfs.svfs.lookup cId = none) ∨
      ∃ svf, b.dictionary.files cId = some svf ∧ b.system.pSvfs.svfs.lookup cId = some svf.pSvf := by
  have hfiles := h.files cId
  cases hsvf : b.dictionary.files cId with
  | none =>
    rw [hsvf] at hfiles
    exact .inl ⟨rfl, hfiles.symm⟩
  | some svf =>
    rw [hsvf] at hfiles
    exact .inr ⟨svf, rfl, hfiles.symm⟩

theorem Corresponds.isSome_iff (h : b.Corresponds) (cId : Id) :
    (b.dictionary.files cId).isSome ↔ cId ∈ b.system.pSvfs.svfs := by
  rw [← Finmap.lookup_isSome, ← h.files, Option.isSome_map]

/-- An object and a file put under an id, in the same state. -/
theorem Corresponds.update (h : b.Corresponds) (cId : Id) (svf : CpSparseVirtualFile) :
    Corresponds ⟨{b.dictionary with files := Function.update b.dictionary.files cId (some svf)},
      ⟨b.system.pSvfs.set cId svf.pSvf⟩⟩ := by
  refine ⟨h.config, fun cId' => ?_⟩
  by_cases hkey : cId' = cId
  · subst hkey
    simp only [Function.update_self, SparseVirtualFileSystem.set, Finmap.lookup_insert, Option.map_some]
  · simp only [Function.update_of_ne hkey, SparseVirtualFileSystem.set, Finmap.lookup_insert_of_ne _ hkey, h.files]

/-- A method that goes on with the file as the method of the object does. -/
theorem onFile_alike {α : Type} {self : CpSparseVirtualFileSystem} {function : String}
    {noId : String → Id → PyError} {method : Id → World → PyOutcome World α} {f : α → PyValue}
    {o : PyOutcome CpSparseVirtualFile PyValue} (hid : parseString id = some cId)
    (hsvf : self.pSvfs.svfs.lookup cId = some svf.pSvf)
    (halike : PyResult.Alike o.result ((method cId svf.pSvf).result.map f))
    (hself : (method cId svf.pSvf).self = o.self.pSvf) :
    PyResult.Alike o.result ((self.onFile function noId id method).map f).result ∧
      ((self.onFile function noId id method).map f).self = ⟨self.pSvfs.set cId o.self.pSvf⟩ := by
  rw [CpSparseVirtualFileSystem.onFile_found function noId method hid hsvf, ← hself]
  exact ⟨halike, rfl⟩

theorem needManyInternal_alike (seekReads : PyListArgument) (s : SparseVirtualFile) (greedyLen : Nat)
    (f : List SeekRead → PyValue) :
    PyResult.Alike ((needManyInternal seekReads s greedyLen).map f)
      ((needManyInternal seekReads s greedyLen).map f) := by
  unfold needManyInternal
  cases seekReads with
  | other o => exact .raised rfl
  | list items =>
    dsimp only
    split
    · exact .raised rfl
    · split
      · exact .raised rfl
      · exact .returned _

/-- A write of bytes goes to an object of its own and to a file of a system alike. -/
theorem write_alike {self : CpSparseVirtualFileSystem} {now : Int} {fpos : Nat} {data : List Byte}
    (hid : parseString id = some cId) (hsvf : self.pSvfs.svfs.lookup cId = some svf.pSvf) (hdata : data ≠ []) :
    PyResult.Alike ((svf.write now fpos data).result.map .object)
        ((self.svfWrite now id fpos data).result.map PyValue.object) ∧
      (self.svfWrite now id fpos data).self = ⟨self.pSvfs.set cId (svf.write now fpos data).self.pSvf⟩ := by
  obtain ⟨hself, hresult⟩ := Both.writeWithin_found (b := ⟨svf, self⟩) ⟨now, now, fpos, data⟩ hid hsvf
  simp only [Both.writeWithin] at hself hresult
  simp only [CpSparseVirtualFile.write, if_pos (List.length_pos_iff.mpr hdata), hself]
  cases hr : (svf.pSvf.write now fpos data).result with
  | ok _ =>
    rw [hr] at hresult
    rw [hresult]
    exact ⟨.returned _, rfl⟩
  | error e =>
    rw [hr] at hresult
    cases e <;> obtain ⟨m, hm⟩ := hresult <;> rw [hm] <;> exact ⟨.raised rfl, rfl⟩

/-- **One file.** A method of `cSVFS` on a file that is there is that of `cSVF`. -/
theorem callFile_alike (sizes : Sizes) {self : CpSparseVirtualFileSystem} (m : FileMethod)
    (hid : parseString id = some cId) (hsvf : self.pSvfs.svfs.lookup cId = some svf.pSvf)
    (hdata : ∀ now fpos, m ≠ .write now fpos []) :
    PyResult.Alike (svf.call sizes m).result (self.callFile sizes m id).result ∧
      (self.callFile sizes m id).self = ⟨self.pSvfs.set cId (svf.call sizes m).self.pSvf⟩ := by
  cases m with
  | write now fpos data => exact write_alike hid hsvf fun hnil => hdata now fpos (by rw [hnil])
  | read now fpos len =>
    apply onFile_alike hid hsvf
    · simp only [CpSparseVirtualFile.call, CpSparseVirtualFile.read, CpSparseVirtualFile.svfReadAsPyBytes,
        PyOutcome.map, PyOutcome.bind]
      cases (svf.pSvf.read now fpos len).result with
      | ok data => exact .returned _
      | error e => cases e <;> exact .raised rfl
    · simp only [CpSparseVirtualFile.call, CpSparseVirtualFile.read, CpSparseVirtualFile.svfReadAsPyBytes,
        PyOutcome.map, PyOutcome.bind]
      cases (svf.pSvf.read now fpos len).result with
      | ok data => rfl
      | error e => cases e <;> rfl
  | erase fpos =>
    apply onFile_alike hid hsvf
    · simp only [CpSparseVirtualFile.call, CpSparseVirtualFile.erase, PyOutcome.map]
      cases (svf.pSvf.erase fpos).result with
      | ok data => exact .returned _
      | error e => cases e <;> exact .raised rfl
    · simp only [CpSparseVirtualFile.call, CpSparseVirtualFile.erase, PyOutcome.map]
      cases (svf.pSvf.erase fpos).result with
      | ok data => rfl
      | error e => cases e <;> rfl
  | lruPunt bound =>
    obtain ⟨n, hn⟩ := World.lruPunt_returns bound svf.pSvf
    apply onFile_alike hid hsvf
    · simp only [CpSparseVirtualFile.call, CpSparseVirtualFile.lruPunt, PyOutcome.map, hn]
      exact .returned _
    · simp only [CpSparseVirtualFile.call, CpSparseVirtualFile.lruPunt, PyOutcome.map, hn]
      rfl
  | needMany seekReads greedyLen =>
    exact onFile_alike hid hsvf (needManyInternal_alike seekReads _ greedyLen _) rfl
  | hasData | need | blocks | sizeOf | numBytes | numBlocks | blockTouches | fileModTimeMatches | fileModTime
  | countWrite | countRead | bytesWrite | bytesRead | timeWrite | timeRead =>
    exact onFile_alike hid hsvf (.returned _) rfl

/-- What changed nothing on either side. -/
theorem Corresponds.alikeAt_idle (h : b.Corresponds) {m : SystemMethod} {r r' : PyResult PyValue}
    (hdictionary : b.dictionary.call sizes m = ⟨r, b.dictionary⟩) (hsystem : b.system.call sizes m = ⟨r', b.system⟩)
    (halike : PyResult.Alike r r') : AlikeAt sizes m b := by
  refine ⟨?_, ?_⟩
  · rw [hdictionary, hsystem]
    exact halike
  · rw [step, hdictionary, hsystem]
    exact h

/-- An id that is no string is refused by both. -/
theorem stringArgument_alike (id : PyObject) : PyResult.Alike (.raised (stringArgumentError id) : PyResult PyValue)
    (.raised (stringArgumentError id)) := .raised rfl

theorem insert_alike (h : b.Corresponds) (id : PyObject) (modTime : Float) :
    AlikeAt sizes (.insert id modTime) b := by
  cases hid : parseString id with
  | none =>
    refine h.alikeAt_idle ?_ ?_ (stringArgument_alike id)
    · simp only [Dictionary.call, hid]
    · simp only [CpSparseVirtualFileSystem.call, CpSparseVirtualFileSystem.insert, hid, PyOutcome.map, PyResult.map]
  | some cId =>
    obtain ⟨object, hinit, hnew⟩ := CpSparseVirtualFile.init_eq hid modTime b.dictionary.config
    have hmem := h.isSome_iff cId
    by_cases hthere : cId ∈ b.system.pSvfs.svfs
    · have hsystem : ∃ m, b.system.call sizes (.insert id modTime) = ⟨.raised ⟨.runtimeError, m⟩, b.system⟩ := by
        simp only [CpSparseVirtualFileSystem.call, CpSparseVirtualFileSystem.insert, hid,
          SparseVirtualFileSystem.insert, if_pos hthere, PyOutcome.map, PyResult.map]
        exact ⟨_, rfl⟩
      obtain ⟨m, hsystem⟩ := hsystem
      refine h.alikeAt_idle (r := .raised ⟨.runtimeError, ""⟩) ?_ hsystem (.raised rfl)
      simp only [Dictionary.call, hid, hinit, if_pos (hmem.mpr hthere)]
    · have hdictionary : b.dictionary.call sizes (.insert id modTime) = ⟨.returned (.object .none),
          {b.dictionary with files := Function.update b.dictionary.files cId (some object)}⟩ := by
        simp only [Dictionary.call, hid, hinit, if_neg (mt hmem.mp hthere)]
      have hsystem : b.system.call sizes (.insert id modTime) = ⟨.returned (.object .none),
          ⟨b.system.pSvfs.set cId object.pSvf⟩⟩ := by
        simp only [CpSparseVirtualFileSystem.call, CpSparseVirtualFileSystem.insert, hid,
          SparseVirtualFileSystem.insert, if_neg hthere, PyOutcome.map, PyResult.map, hnew, h.config,
          SparseVirtualFileSystem.set]
      refine ⟨?_, ?_⟩
      · rw [hdictionary, hsystem]
        exact .returned _
      · rw [step, hdictionary, hsystem]
        exact h.update cId object

theorem remove_alike (h : b.Corresponds) (id : PyObject) : AlikeAt sizes (.remove id) b := by
  cases hid : parseString id with
  | none =>
    refine h.alikeAt_idle ?_ ?_ (stringArgument_alike id)
    · simp only [Dictionary.call, hid]
    · simp only [CpSparseVirtualFileSystem.call, CpSparseVirtualFileSystem.remove, hid, PyOutcome.map, PyResult.map]
  | some cId =>
    have hmem := h.isSome_iff cId
    by_cases hthere : cId ∈ b.system.pSvfs.svfs
    · have hdictionary : b.dictionary.call sizes (.remove id) = ⟨.returned (.object .none),
          {b.dictionary with files := Function.update b.dictionary.files cId none}⟩ := by
        simp only [Dictionary.call, hid, if_pos (hmem.mpr hthere)]
      have hsystem : b.system.call sizes (.remove id) = ⟨.returned (.object .none),
          ⟨{b.system.pSvfs with svfs := b.system.pSvfs.svfs.erase cId}⟩⟩ := by
        simp only [CpSparseVirtualFileSystem.call, CpSparseVirtualFileSystem.remove, hid,
          SparseVirtualFileSystem.remove, if_pos hthere, PyOutcome.map, PyResult.map]
      refine ⟨?_, ?_⟩
      · rw [hdictionary, hsystem]
        exact .returned _
      · rw [step, hdictionary, hsystem]
        refine ⟨h.config, fun cId' => ?_⟩
        by_cases hkey : cId' = cId
        · subst hkey
          simp only [Function.update_self, Option.map_none, Finmap.lookup_erase]
        · simp only [Function.update_of_ne hkey, Finmap.lookup_erase_ne hkey, h.files]
    · have hsystem : ∃ m, b.system.call sizes (.remove id) = ⟨.raised ⟨.indexError, m⟩, b.system⟩ := by
        simp only [CpSparseVirtualFileSystem.call, CpSparseVirtualFileSystem.remove, hid,
          SparseVirtualFileSystem.remove, if_neg hthere, PyOutcome.map, PyResult.map]
        exact ⟨_, rfl⟩
      obtain ⟨m, hsystem⟩ := hsystem
      refine h.alikeAt_idle (r := .raised ⟨.indexError, ""⟩) ?_ hsystem (.raised rfl)
      simp only [Dictionary.call, hid, if_neg (mt hmem.mp hthere)]

theorem has_alike (h : b.Corresponds) (id : PyObject) : AlikeAt sizes (.has id) b := by
  cases hid : parseString id with
  | none =>
    refine h.alikeAt_idle ?_ ?_ (stringArgument_alike id)
    · simp only [Dictionary.call, hid]
    · simp only [CpSparseVirtualFileSystem.call, CpSparseVirtualFileSystem.has, hid, PyOutcome.map, PyResult.map]
  | some cId =>
    have hhas : b.system.pSvfs.has cId = (b.dictionary.files cId).isSome := by
      rw [Bool.eq_iff_iff, SparseVirtualFileSystem.has, decide_eq_true_iff, h.isSome_iff]
    refine h.alikeAt_idle ?_ ?_ (.returned (.bool (b.dictionary.files cId).isSome))
    · simp only [Dictionary.call, hid]
    · simp only [CpSparseVirtualFileSystem.call, CpSparseVirtualFileSystem.has, hid, hhas, PyOutcome.map, PyResult.map]

theorem file_alike (h : b.Corresponds) (id : PyObject) (m : FileMethod) (hbytes : ¬ WritesNothing (.file id m) b) :
    AlikeAt sizes (.file id m) b := by
  cases hid : parseString id with
  | none =>
    refine h.alikeAt_idle ?_ (CpSparseVirtualFileSystem.callFile_unparsed sizes m hid) (.raised rfl)
    simp only [Dictionary.call, Dictionary.withFile, hid]
  | some cId =>
    cases h.cases cId with
    | inl hnone =>
      obtain ⟨hdictionary, hsystem⟩ := hnone
      obtain ⟨e, hcall, hkind⟩ :=
        CpSparseVirtualFileSystem.callFile_absent sizes m hid (Finmap.lookup_eq_none.mp hsystem)
      refine h.alikeAt_idle (r := .raised ⟨.indexError, ""⟩) ?_ hcall (.raised hkind.symm)
      simp only [Dictionary.call, Dictionary.withFile, hid, hdictionary]
    | inr hsome =>
      obtain ⟨svf, hdictionary, hsystem⟩ := hsome
      obtain ⟨halike, hself⟩ := callFile_alike sizes m hid hsystem fun now fpos hm =>
        hbytes ⟨id, now, fpos, cId, by rw [hm], hid, Finmap.mem_of_lookup_eq_some hsystem⟩
      have hcall : b.dictionary.call sizes (.file id m) = ⟨(svf.call sizes m).result,
          {b.dictionary with files := Function.update b.dictionary.files cId (some (svf.call sizes m).self)}⟩ := by
        simp only [Dictionary.call, Dictionary.withFile, hid, hdictionary]
      refine ⟨?_, ?_⟩
      · rw [hcall]
        exact halike
      · rw [step, hcall]
        simp only [CpSparseVirtualFileSystem.call, hself]
        exact h.update cId _

end Step

/-- The loop over every id punts each file, and adds up what they return. -/
theorem svfLruPuntAllLoop_eq {self : CpSparseVirtualFileSystem} {bound : Nat} {keys : List Id} {totalRemoved : Nat}
    (hnodup : keys.Nodup) (hkeys : ∀ id ∈ keys, id ∈ self.pSvfs.svfs) (htotal : totalRemoved < 2 ^ 64) :
    ∃ svfs, CpSparseVirtualFileSystem.svfLruPuntAllLoop bound keys totalRemoved self =
        ⟨.returned (sizeAdd totalRemoved (keys.map (self.freedAt bound)).sum), ⟨svfs, self.pSvfs.config⟩⟩ ∧
      ∀ id, svfs.lookup id = if id ∈ keys then (self.pSvfs.svfs.lookup id).map fun svf => (svf.lruPunt bound).world
        else self.pSvfs.svfs.lookup id := by
  induction keys generalizing self totalRemoved with
  | nil => exact ⟨self.pSvfs.svfs, by rw [List.map_nil, List.sum_nil, sizeAdd_zero htotal]; rfl, fun _ => rfl⟩
  | cons iter rest ih =>
    obtain ⟨hnot, hrest⟩ := List.nodup_cons.mp hnodup
    obtain ⟨svf, hsvf⟩ := Finmap.mem_iff.mp (hkeys iter (List.mem_cons_self ..))
    obtain ⟨n, hresult⟩ := World.lruPunt_returns bound svf
    have hlookup : ∀ id ∈ rest,
        (self.puntedAt bound iter svf).pSvfs.svfs.lookup id = self.pSvfs.svfs.lookup id :=
      fun id hid => CpSparseVirtualFileSystem.lookup_puntedAt fun heq => hnot (heq ▸ hid)
    have hthere : ∀ id ∈ rest, id ∈ (self.puntedAt bound iter svf).pSvfs.svfs := by
      intro id hid
      obtain ⟨svf', hsvf'⟩ := Finmap.mem_iff.mp (hkeys id (List.mem_cons_of_mem _ hid))
      exact Finmap.mem_of_lookup_eq_some ((hlookup id hid).trans hsvf')
    have hfits : sizeAdd totalRemoved n < 2 ^ 64 := Wrap.add_lt
    obtain ⟨svfs, heq, hfiles⟩ := ih hrest hthere hfits
    refine ⟨svfs, ?_, fun id => ?_⟩
    · have hfreed : self.freedAt bound iter = n := by
        simp only [CpSparseVirtualFileSystem.freedAt, hsvf, Option.elim_some, CpSparseVirtualFileSystem.freed, hresult]
      have hsame : rest.map ((self.puntedAt bound iter svf).freedAt bound) = rest.map (self.freedAt bound) :=
        List.map_congr_left fun id hid => by simp only [CpSparseVirtualFileSystem.freedAt, hlookup id hid]
      rw [CpSparseVirtualFileSystem.svfLruPuntAllLoop_cons hsvf hresult]
      rw [heq, hsame, sizeAdd_assoc, List.map_cons, List.sum_cons, hfreed]
      rfl
    · rw [hfiles]
      by_cases hid : id = iter
      · subst hid
        rw [if_neg hnot, if_pos (List.mem_cons_self ..), hsvf]
        exact Finmap.lookup_insert _
      · rw [CpSparseVirtualFileSystem.lookup_puntedAt hid]
        simp only [List.mem_cons, hid, false_or]

theorem pSvf_lruPunt (svf : CpSparseVirtualFile) (bound : Nat) :
    (svf.lruPunt bound).self.pSvf = (svf.pSvf.lruPunt bound).world := by
  unfold CpSparseVirtualFile.lruPunt
  dsimp only
  split <;> rfl

section Step
variable {sizes : Sizes} {b : Stores}

theorem lruPuntAll_alike (h : b.Corresponds) (bound : Nat) {keys : List Id} (hkeys : b.system.pSvfs.Keys keys) :
    AlikeAt sizes (.lruPuntAll bound keys) b := by
  obtain ⟨svfs, hloop, hfiles⟩ :=
    @svfLruPuntAllLoop_eq b.system bound keys 0 hkeys.nodup (fun id hid => hkeys.mem_iff.mp hid) (by omega)
  have hfreed : b.dictionary.freedAt bound = b.system.freedAt bound := by
    funext id
    rw [Dictionary.freedAt, CpSparseVirtualFileSystem.freedAt, ← h.files]
    cases b.dictionary.files id <;> rfl
  have hsystem : b.system.call sizes (.lruPuntAll bound keys) =
      ⟨.returned (.object (.int (sizeAdd 0 (keys.map (b.system.freedAt bound)).sum : Nat))),
        ⟨svfs, b.system.pSvfs.config⟩⟩ := by
    simp only [CpSparseVirtualFileSystem.call, CpSparseVirtualFileSystem.svfLruPuntAll, hloop, PyOutcome.bind,
      PyOutcome.map, PyResult.map]
  refine ⟨?_, ?_⟩
  · rw [hsystem]
    simp only [Dictionary.call, hfreed, sizeAdd, Wrap.add, Nat.zero_add]
    exact .returned _
  · rw [step, hsystem]
    refine ⟨h.config, fun id => ?_⟩
    simp only [Dictionary.call, hfiles]
    split
    · rw [← h.files, Option.map_map, Option.map_map]
      congr 1
      funext svf
      exact pSvf_lruPunt svf bound
    · rename_i hnot
      have hnone : b.system.pSvfs.svfs.lookup id = none :=
        Finmap.lookup_eq_none.mpr fun hmem => hnot (hkeys.mem_iff.mpr hmem)
      rw [hnone, Option.map_map, Option.map_eq_none_iff]
      rw [← h.files, Option.map_eq_none_iff] at hnone
      exact hnone

/-- **One call**, with bytes in it if it is a write, is taken alike. -/
theorem alikeAt {m : SystemMethod} (h : b.Corresponds) (hgiven : Given m b) (hbytes : ¬ WritesNothing m b) :
    AlikeAt sizes m b := by
  cases m with
  | insert id modTime => exact insert_alike h id modTime
  | remove id => exact remove_alike h id
  | has id => exact has_alike h id
  | file id m => exact file_alike h id m hbytes
  | lruPuntAll bound keys => exact lruPuntAll_alike h bound hgiven

/-- A write of no bytes is not: it raises, leaves a block of no bytes or is counted. -/
theorem not_alikeAt {m : SystemMethod} (h : b.Corresponds) (hgiven : Given m b) (hnothing : WritesNothing m b) :
    ¬ AlikeAt sizes m b := by
  rintro ⟨hanswers, hfiles⟩
  obtain ⟨id, now, fpos, cId, rfl, hid, hthere⟩ := hnothing
  cases h.cases cId with
  | inl hnone => exact absurd hthere (Finmap.lookup_eq_none.mp hnone.2)
  | inr hsome =>
    obtain ⟨svf, hdictionary, hsystem⟩ := hsome
    -- Of the object nothing changes, so that nothing would change of the file either.
    have hmatches : Both.Matches cId ⟨svf, b.system⟩ := ⟨svf.pSvf, hsystem, ⟨rfl, rfl⟩, fun _ => rfl, False.elim⟩
    have hcall : b.dictionary.call sizes (.file id (.write now fpos [])) = ⟨.returned (.object .none),
        {b.dictionary with files := Function.update b.dictionary.files cId (some svf)}⟩ := by
      simp only [Dictionary.call, Dictionary.withFile, hid, hdictionary, CpSparseVirtualFile.call,
        CpSparseVirtualFile.write, List.length_nil, Nat.lt_irrefl, if_false, PyOutcome.map, PyResult.map]
    have hsame : (Both.step id ⟨now, now, fpos, []⟩ ⟨svf, b.system⟩).within cId = some svf.pSvf := by
      have hfile := hfiles.files cId
      rw [step, hcall] at hfile
      simp only [Function.update_self, Option.map_some] at hfile
      exact hfile.symm
    have hreturned : (b.system.svfWrite now id fpos []).result = .returned .none := by
      rw [hcall] at hanswers
      simp only [CpSparseVirtualFileSystem.call, CpSparseVirtualFileSystem.callFile, PyOutcome.map] at hanswers
      generalize (b.system.svfWrite now id fpos []).result = r at hanswers ⊢
      cases r with
      | returned o =>
        cases hanswers
        rfl
      | _ => cases hanswers
    refine (@Both.untouched_iff id cId _ ⟨now, now, fpos, []⟩ hid hmatches (hgiven cId hid _ hsystem).1).mp
      ⟨⟨?_, ⟨svf.pSvf, hsame, ?_, ?_⟩, ?_⟩, ?_⟩ rfl
    · rw [Both.writeAlone_nil rfl, Both.writeWithin, hreturned]
      exact .returned _
    · rw [Both.alone_step_nil rfl]
    · rw [Both.alone_step_nil rfl]
    · intro _ v v' hv hv'
      obtain rfl := Option.some.inj (hsystem.symm.trans hv)
      obtain rfl := Option.some.inj (hsame.symm.trans hv')
      exact ⟨rfl, rfl⟩
    · intro _
      rw [hsame]
      exact congrArg (Option.map World.file) hsystem.symm

end Step

theorem corresponds_new (config : SparseVirtualFileConfig) : (new config).Corresponds :=
  ⟨rfl, fun cId => (Finmap.lookup_empty (β := fun _ : Id => World) cId).symm⟩

/-- **A system is a dictionary of `cSVF` objects** for as long as no bytes at all are written to none of
its files, and no longer: every call that they answer for is answered alike, and leaves the same files
in the same states. -/
theorem alike_iff (sizes : Sizes) (config : SparseVirtualFileConfig) (calls : List SystemMethod)
    (hgiven : Run.Along (step sizes) Given (new config) calls) :
    Run.Along (step sizes) (AlikeAt sizes) (new config) calls ↔
      Run.Along (step sizes) (fun m b => ¬ WritesNothing m b) (new config) calls := by
  have h := corresponds_new config
  generalize new config = b at h hgiven ⊢
  induction calls generalizing b with
  | nil => exact Iff.rfl
  | cons m rest ih =>
    obtain ⟨hm, hrest⟩ := hgiven
    simp only [Run.Along]
    by_cases hnothing : WritesNothing m b
    · exact iff_of_false (fun halike => not_alikeAt h hm hnothing halike.1) fun hnot => hnot.1 hnothing
    · have halike : AlikeAt sizes m b := alikeAt h hm hnothing
      exact and_congr (iff_of_true halike hnothing) (ih _ halike.files hrest)

/-- Two files, one written to with no bytes in the end. -/
def twoCalls : List SystemMethod :=
  [.insert (.str [97]) 0, .insert (.str [98]) 0, .insert (.str [97]) 1, .insert (.int 1) 0,
    .file (.str [97]) (.write 0 4 [1, 2]), .file (.str [98]) (.write 1 0 [3]), .file (.str [98]) (.read 2 0 2),
    .file (.str [99]) .blocks, .file (.str [97]) (.needMany (.list [.tuple [.int 0, .int 5]]) 0),
    .lruPuntAll 1 [[98], [97]], .remove (.str [98]), .file (.str [97]) (.write 3 9 [])]

theorem alike_iff_twoCalls :
    Run.Along (step ⟨200, 100, 8, 32⟩) (AlikeAt ⟨200, 100, 8, 32⟩) (new {}) twoCalls ↔
      Run.Along (step ⟨200, 100, 8, 32⟩) (fun m b => ¬ WritesNothing m b) (new {}) twoCalls :=
  alike_iff ⟨200, 100, 8, 32⟩ {} twoCalls (by decide)

end Stores
end Svfs
