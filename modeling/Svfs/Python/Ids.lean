import Svfs.Library.Run
import Svfs.Python.Encoding
import Svfs.Python.Pickle
import Svfs.Python.SparseVirtualFileSystem
import Mathlib.Data.Finset.Max

/-! Ids across the Python boundary.

`id()`, `__getstate__` and `keys()` make one character of each byte of the C++ id, where
`__init__` and `insert` had taken the UTF-8 bytes of a string. An id comes back as it was given,
from the object, from its pickle and from a system that it was inserted in, exactly if it is of
ASCII characters (`ids_survive_iff`). -/
namespace Svfs

open CpSparseVirtualFile (init setstate)

/-- What is asked of the id of a `cSVF`. -/
structure IdSurvives (id : List Nat) : Prop where
  constructed : ∀ (modTime : Float) (config : SparseVirtualFileConfig), ∃ object,
    init (.str id) modTime config = some object ∧ object.id = .str id
  /-- Whatever was written to it since. -/
  pickled : ∀ (object : CpSparseVirtualFile) (clock clock' : Nat → Int) (old : Option CpSparseVirtualFile),
    parseString (.str id) = some object.pSvf.file.id → Tidy object.pSvf.file →
      ∃ state restored, (object.getstate clock).result = .returned state ∧
        setstate clock' state old = ⟨.returned .none, some restored⟩ ∧ restored.id = .str id

theorem id_of_init {o : PyObject} {modTime : Float} {config : SparseVirtualFileConfig}
    {object : CpSparseVirtualFile} (h : init o modTime config = some object) :
    parseString o = some object.pSvf.file.id := by
  obtain ⟨cId, hparse, hnew⟩ := CpSparseVirtualFile.pSvf_of_init h
  rw [hparse, hnew]
  rfl

section Single
variable {id : List Nat}

theorem NulFree.lt (h : NulFree id) : ∀ c ∈ id, c < 0x110000 := fun c hc => (h c hc).2

/-- The C++ id that a string was taken to is taken back to the string if it is ASCII, -/
theorem fromOneByteKind_of_ascii (h : NulFree id) (hascii : Ascii id) {cId : Id}
    (hparse : parseString (.str id) = some cId) : fromOneByteKind cId = .str id :=
  congrArg PyObject.str ((oneByte_utf8_iff h.lt (utf8_of_parseString hparse)).mpr hascii)

theorem idSurvives_of_ascii (h : NulFree id) (hascii : Ascii id) : IdSurvives id where
  constructed modTime config := by
    have hparse := parseString_of_ascii h hascii
    obtain ⟨object, hinit, hnew⟩ := CpSparseVirtualFile.init_eq hparse modTime config
    refine ⟨object, hinit, ?_⟩
    rw [CpSparseVirtualFile.id, hnew]
    exact fromOneByteKind_of_ascii h hascii hparse
  pickled object clock clock' old hparse htidy := by
    obtain ⟨_, hgetstate, _⟩ := CpSparseVirtualFile.getstate_returns clock htidy.representable
    obtain ⟨restored, hsetstate, hrestored, _⟩ := CpSparseVirtualFile.setstate_pickled clock' htidy.separated
      htidy.representable object.id_ne_nul old
    -- The id of the pickle is the one given, so that it is encoded as that was.
    rw [fromOneByteKind_of_ascii h hascii hparse] at hrestored
    exact ⟨_, restored, by rw [hgetstate], hsetstate, fromOneByteKind_of_ascii h hascii hrestored⟩

/-- and no other string is. -/
theorem ascii_of_idSurvives (h : NulFree id) (hsurvives : IdSurvives id) : Ascii id := by
  obtain ⟨object, hinit, hid⟩ := hsurvives.constructed 0 {}
  exact (oneByte_utf8_iff h.lt (utf8_of_parseString (id_of_init hinit))).mp (PyObject.str.inj hid)

end Single

/-! ### The ids of a system -/

/-- A call that inserts an id or removes one. -/
inductive IdCall where
  | insert (id : List Nat) (modTime : Float)
  | remove (id : List Nat)

def IdCall.id : IdCall → List Nat
  | .insert id _ => id
  | .remove id => id

/-- The call did not raise. -/
def PyResult.isReturned {α : Type} : PyResult α → Bool
  | .returned _ => true
  | _ => false

/-- A system, and the ids that were inserted in it and not removed again. -/
structure Tracked where
  system : CpSparseVirtualFileSystem
  inserted : Finset (List Nat)

def IdCall.step (call : IdCall) (t : Tracked) : Tracked :=
  match call with
  | .insert id modTime =>
    let o := t.system.insert (.str id) modTime
    ⟨o.self, if o.result.isReturned then Insert.insert id t.inserted else t.inserted⟩
  | .remove id =>
    let o := t.system.remove (.str id)
    ⟨o.self, if o.result.isReturned then t.inserted.erase id else t.inserted⟩

/-- `keys` lists what is inserted and each id once, in whatever order, and `has` finds each of them. -/
structure KeysExact (tracked : Tracked) : Prop where
  mem_iff : ∀ ids, tracked.system.pSvfs.Keys ids → ∀ key,
    key ∈ CpSparseVirtualFileSystem.keys ids ↔ ∃ id ∈ tracked.inserted, key = .str id
  nodup : ∀ ids, tracked.system.pSvfs.Keys ids → (CpSparseVirtualFileSystem.keys ids).Nodup
  has : ∀ ids, tracked.system.pSvfs.Keys ids → ∀ key ∈ CpSparseVirtualFileSystem.keys ids,
    (tracked.system.has key).result = .returned true

/-- The C++ map holds the bytes of the ids inserted. -/
structure Encoded (tracked : Tracked) : Prop where
  nulFree : ∀ id ∈ tracked.inserted, NulFree id
  parses : ∀ id ∈ tracked.inserted, ∃ cId, parseString (.str id) = some cId
  mem_iff : ∀ cId, cId ∈ tracked.system.pSvfs.svfs ↔ ∃ id ∈ tracked.inserted, parseString (.str id) = some cId

section System
variable {self : CpSparseVirtualFileSystem} {id : List Nat} {t : Tracked}

theorem insert_cases (id : List Nat) (modTime : Float) (self : CpSparseVirtualFileSystem) :
    (∃ cId svf, parseString (.str id) = some cId ∧ (self.insert (.str id) modTime).result = .returned .none ∧
      (self.insert (.str id) modTime).self.pSvfs.svfs = self.pSvfs.svfs.insert cId svf) ∨
    ((self.insert (.str id) modTime).result.isReturned = false ∧
      (self.insert (.str id) modTime).self = self) := by
  unfold CpSparseVirtualFileSystem.insert
  dsimp only
  split
  · exact .inr ⟨rfl, rfl⟩
  · rename_i cId hparse
    unfold SparseVirtualFileSystem.insert
    by_cases hmem : cId ∈ self.pSvfs.svfs
    · rw [if_pos hmem]
      exact .inr ⟨rfl, rfl⟩
    · rw [if_neg hmem]
      exact .inl ⟨cId, _, hparse, rfl, rfl⟩

theorem remove_cases (id : List Nat) (self : CpSparseVirtualFileSystem) :
    (∃ cId, parseString (.str id) = some cId ∧ (self.remove (.str id)).result = .returned .none ∧
      (self.remove (.str id)).self.pSvfs.svfs = self.pSvfs.svfs.erase cId) ∨
    ((self.remove (.str id)).result.isReturned = false ∧ (self.remove (.str id)).self = self) := by
  unfold CpSparseVirtualFileSystem.remove
  dsimp only
  split
  · exact .inr ⟨rfl, rfl⟩
  · rename_i cId hparse
    unfold SparseVirtualFileSystem.remove
    by_cases hmem : cId ∈ self.pSvfs.svfs
    · rw [if_pos hmem]
      exact .inl ⟨cId, hparse, rfl, rfl⟩
    · rw [if_neg hmem]
      exact .inr ⟨rfl, rfl⟩

theorem encoded_step (call : IdCall) (hcall : NulFree call.id) (h : Encoded t) : Encoded (call.step t) := by
  cases call with
  | insert id modTime =>
    rcases insert_cases id modTime t.system with ⟨cId, svf, hparse, hresult, hsvfs⟩ | ⟨hresult, hself⟩
    · simp only [IdCall.step, hresult, PyResult.isReturned, if_true]
      refine ⟨?_, ?_, fun cId' => ?_⟩
      · exact Finset.forall_mem_insert .. |>.mpr ⟨hcall, h.nulFree⟩
      · exact Finset.forall_mem_insert .. |>.mpr ⟨⟨cId, hparse⟩, h.parses⟩
      · rw [hsvfs, Finmap.mem_insert, h.mem_iff, Finset.exists_mem_insert, hparse, Option.some.injEq, eq_comm]
    · simp only [IdCall.step, hresult, hself, Bool.false_eq_true, if_false]
      exact h
  | remove id =>
    rcases remove_cases id t.system with ⟨cId, hparse, hresult, hsvfs⟩ | ⟨hresult, hself⟩
    · simp only [IdCall.step, hresult, PyResult.isReturned, if_true]
      refine ⟨fun j hj => h.nulFree j (Finset.mem_of_mem_erase hj),
        fun j hj => h.parses j (Finset.mem_of_mem_erase hj), fun cId' => ?_⟩
      rw [hsvfs, Finmap.mem_erase, h.mem_iff]
      constructor
      · rintro ⟨hne, j, hj, hj'⟩
        refine ⟨j, Finset.mem_erase.mpr ⟨fun heq => hne ?_, hj⟩, hj'⟩
        rw [heq, hparse] at hj'
        exact (Option.some.inj hj').symm
      · rintro ⟨j, hj, hj'⟩
        obtain ⟨hne, hmem⟩ := Finset.mem_erase.mp hj
        -- No other id has the bytes that were removed.
        refine ⟨fun heq => hne ?_, j, hmem, hj'⟩
        rw [heq] at hj'
        exact utf8_injective (h.nulFree j hmem).lt hcall.lt (utf8_of_parseString hj')
          (utf8_of_parseString hparse)
    · simp only [IdCall.step, hresult, hself, Bool.false_eq_true, if_false]
      exact h

/-- What `keys` lists. -/
theorem mem_keys (h : Encoded t) {ids : List Id} (hids : t.system.pSvfs.Keys ids) {key : PyObject} :
    key ∈ CpSparseVirtualFileSystem.keys ids ↔
      ∃ id ∈ t.inserted, ∃ cId, parseString (.str id) = some cId ∧ key = fromOneByteKind cId := by
  simp only [CpSparseVirtualFileSystem.keys, List.mem_map, hids.mem_iff, h.mem_iff]
  constructor
  · rintro ⟨cId, ⟨id, hid, hparse⟩, rfl⟩
    exact ⟨id, hid, cId, hparse, rfl⟩
  · rintro ⟨id, hid, cId, hparse, rfl⟩
    exact ⟨cId, ⟨id, hid, hparse⟩, rfl⟩

theorem keysExact_of_ascii (h : Encoded t) (hascii : ∀ id ∈ t.inserted, Ascii id) : KeysExact t := by
  have hmem : ∀ ids, t.system.pSvfs.Keys ids → ∀ key,
      key ∈ CpSparseVirtualFileSystem.keys ids ↔ ∃ id ∈ t.inserted, key = .str id := by
    intro ids hids key
    rw [mem_keys h hids]
    constructor
    · rintro ⟨id, hid, cId, hparse, rfl⟩
      exact ⟨id, hid, fromOneByteKind_of_ascii (h.nulFree id hid) (hascii id hid) hparse⟩
    · rintro ⟨id, hid, rfl⟩
      obtain ⟨cId, hparse⟩ := h.parses id hid
      exact ⟨id, hid, cId, hparse, (fromOneByteKind_of_ascii (h.nulFree id hid) (hascii id hid) hparse).symm⟩
  refine ⟨hmem, fun ids hids => ?_, fun ids hids key hkey => ?_⟩
  · refine List.Nodup.map (fun a b hab => ?_) hids.nodup
    exact List.map_injective_iff.mpr (fun _ _ => UInt8.toNat_inj.mp) (PyObject.str.inj hab)
  · obtain ⟨id, hid, rfl⟩ := (hmem ids hids key).mp hkey
    obtain ⟨cId, hparse⟩ := h.parses id hid
    have hfound := (h.mem_iff cId).mpr ⟨id, hid, hparse⟩
    simp only [CpSparseVirtualFileSystem.has, hparse, SparseVirtualFileSystem.has, hfound, decide_true]

/-- Of the longest id inserted that is not ASCII, `keys` makes a longer one. -/
theorem ascii_of_keysExact (h : Encoded t) (hkeys : KeysExact t) : ∀ id ∈ t.inserted, Ascii id := by
  by_contra hnot
  push Not at hnot
  obtain ⟨other, hother, hotherNot⟩ := hnot
  obtain ⟨id, hid, hmax⟩ := (t.inserted.filter (¬ Ascii ·)).exists_max_image List.length
    ⟨other, Finset.mem_filter.mpr ⟨hother, hotherNot⟩⟩
  obtain ⟨hmem, hidNot⟩ := Finset.mem_filter.mp hid
  obtain ⟨cId, hparse⟩ := h.parses id hmem
  have hids : t.system.pSvfs.Keys t.system.pSvfs.svfs.keys.toList := Finset.coe_toList _
  obtain ⟨id', hid', heq⟩ := (hkeys.mem_iff _ hids _).mp ((mem_keys h hids).mpr ⟨id, hmem, cId, hparse, rfl⟩)
  rcases oneByte_of_utf8 (h.nulFree id hmem).lt (utf8_of_parseString hparse) with ⟨hall, _⟩ | ⟨_, hnot', hlt⟩
  · exact hidNot hall
  · have hlonger : cId.map UInt8.toNat = id' := PyObject.str.inj heq
    rw [hlonger] at hnot' hlt
    have := hmax id' (Finset.mem_filter.mpr ⟨hid', hnot'⟩)
    omega

end System

/-- **Ids survive the Python boundary** exactly if they are ASCII: each by itself, and those
inserted in a system whenever its keys are listed. -/
theorem ids_survive_iff (config : SparseVirtualFileConfig) (calls : List IdCall)
    (hcalls : ∀ call ∈ calls, NulFree call.id) :
    (∀ id, NulFree id → (IdSurvives id ↔ Ascii id)) ∧
      (KeysExact (Run.run IdCall.step ⟨.init config, ∅⟩ calls) ↔
        ∀ id ∈ (Run.run IdCall.step ⟨.init config, ∅⟩ calls).inserted, Ascii id) := by
  refine ⟨fun id h => ⟨ascii_of_idSurvives h, idSurvives_of_ascii h⟩, ?_⟩
  have hempty : Encoded ⟨.init config, ∅⟩ := by
    refine ⟨by simp, by simp, fun cId => ?_⟩
    simp only [Finset.notMem_empty, false_and, exists_false, iff_false]
    exact Finmap.notMem_empty
  have hencoded : Encoded (Run.run IdCall.step ⟨.init config, ∅⟩ calls) :=
    Run.invariant_run (A := fun call _ => NulFree call.id)
      (fun call _ hcall h => encoded_step call hcall h) hempty (Run.along_of_forall hcalls)
  exact ⟨ascii_of_keysExact hencoded, keysExact_of_ascii hencoded⟩

theorem ids_survive_iff_two :
    let calls : List IdCall := [.insert [97] 0, .insert [0xE9] 0, .remove [97]]
    (∀ id, NulFree id → (IdSurvives id ↔ Ascii id)) ∧
      (KeysExact (Run.run IdCall.step ⟨.init {}, ∅⟩ calls) ↔
        ∀ id ∈ (Run.run IdCall.step ⟨.init {}, ∅⟩ calls).inserted, Ascii id) :=
  ids_survive_iff {} [.insert [97] 0, .insert [0xE9] 0, .remove [97]] (by decide)

/-- The one letter U+00E9 comes back as the two letters U+00C3 and U+00A9. -/
theorem not_ids_survive : ¬ ∀ id, NulFree id → IdSurvives id := by
  intro h
  obtain ⟨object, hinit, hid⟩ := (h [0xE9] (by decide)).constructed 0 {}
  have hparse : parseString (.str [0xE9]) = some [0xC3, 0xA9] := by decide
  have hbytes := Option.some.inj ((id_of_init hinit).symm.trans hparse)
  rw [CpSparseVirtualFile.id, hbytes] at hid
  exact absurd (PyObject.str.inj hid) (by decide)

end Svfs
