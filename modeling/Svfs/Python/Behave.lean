import Svfs.Python.Pickle
import Svfs.Write.Agreeing
import Svfs.Write.Alike
import Svfs.Write.Buffers

/-! An unpickled `cSVF` behaves like the original.

Pickling carries the blocks, and the blocks are all that a later write or read consults
(`replies_of_alike`, over any run of them), but for one thing: whether differences are
looked for. `__setstate__` hands an id and a modification time to
`cp_SparseVirtualFile_init` and nothing of the configuration, so that the new file looks for
them. The original need not, and then one byte written over another at the beginning of the
file tells the two apart (`replies_overwrite`). The runs compared look outside no buffer of the
original: what lies there is part of neither object. -/
namespace Svfs

/-- The file has a block at its very beginning, and this byte there. -/
def SparseVirtualFile.BeginsWith (s : SparseVirtualFile) (x : Byte) : Prop :=
  ∃ v, s.svf.LastAt 0 (0, v) ∧ v.data.head? = some x ∧ v.data.length < 2 ^ 64

namespace World
variable {w : World} {x y : Byte}

theorem beginsWith_of_settled {o : Outcome Unit} (h : Settled w 0 [x] o) : o.world.file.BeginsWith x := by
  obtain ⟨⟨k, v⟩, hlanded⟩ := h.landed
  obtain rfl : k = 0 := Nat.le_zero.mp hlanded.lastAt.le
  have hbytes := congrArg List.head? hlanded.bytes
  have hsize : v.data.length < 2 ^ 64 := (Nat.le_add_left ..).trans_lt hlanded.within
  refine ⟨v, hlanded.lastAt, ?_, hsize⟩
  simpa [List.head?_take, List.head?_drop] using hbytes

/-- The byte that is there, or one where there is none, can be written to the beginning of
any file. -/
theorem writeBlocks_first (hsep : Segments.Separated w.file.segments) (hs : Representable w.file)
    (hagree : ¬ w.file.Conflict 0 [x]) :
    (w.writeBlocks 0 [x]).result = .ok () ∧ (w.writeBlocks 0 [x]).world.file.BeginsWith x := by
  have hdata : [x] ≠ [] := List.cons_ne_nil x []
  have hfit : 0 + [x].length < 2 ^ 64 := by simp
  cases writeBlocks_cases 0 [x] w with
  | newBlock heq hcase =>
    have hsettled := settled_newBlock (w := w) hfit fun t ht hle =>
      stop_lt_of_newBlock hsep hs (fun _ _ hwraps => by omega) hcase ht hle
    rw [heq]
    exact ⟨hsettled.result, beginsWith_of_settled hsettled⟩
  | newAppendOld iter rest heq hcut hlt hreach _ =>
    have hbeyond := OrderedMap.lt_of_first hcut hlt
    -- No block begins inside the range, so that none is compared with.
    have hquiet : ∀ next ∈ iter :: rest, ¬ TripsAt 0 [x] next.2.data next := by
      intro next hnext htrips
      have hbefore : next.1 < 0 + [x].length := htrips.1
      have := hbeyond next hnext
      simp only [List.length_singleton] at hbefore
      omega
    rw [sizeAdd_of_lt hfit] at hreach
    rw [heq]
    by_cases hwraps : ∃ last ∈ iter :: rest, last.1 ≤ 0 + [x].length ∧ 2 ^ 64 ≤ last.1 + last.2.data.length
    · -- The block right after the byte runs out of the range, and is dropped.
      obtain ⟨last, hlast, hle, hwraps⟩ := hwraps
      obtain ⟨hresult, hentries⟩ := writeNewAppendOld_drops hcut (hs.ahead_first hsep hcut hbeyond) hfit
        (fun _ => hquiet) hlast hwraps hle
      refine ⟨hresult, ⟨[x], w.file.blockTouch⟩, ?_, rfl, by simp⟩
      exact OrderedMap.lastAt_of_cut (hentries.trans (List.nil_append _).symm) le_rfl (by simp)
    · have hsettled := settled_prepend hsep hs hdata hfit hagree hcut hlt hreach fun next hnext hle => by
        by_contra hge
        exact hwraps ⟨next, hnext, hle, not_lt.mp hge⟩
      exact ⟨hsettled.result, beginsWith_of_settled hsettled⟩
  | appendNewToOld pre base rest heq hcut hbase hrest _ _ =>
    have hmem : base ∈ w.file.svf.entries := by simp [hcut]
    have hsize := hs.size base hmem
    have hne : 0 < base.2.data.length :=
      List.length_pos_iff.mpr (hsep.nonempty _ (SparseVirtualFile.mem_segments hmem))
    have hstops : ∀ next ∈ rest, next.1 ≤ 0 + [x].length → next.1 + next.2.data.length < 2 ^ 64 := by
      intro next hnext hle
      have hbeyond := (lt_of_separated hsep hcut).2 next hnext
      simp only [List.length_singleton] at hle
      omega
    have hsettled := settled_append hsep hs hdata hfit hagree hcut hbase hrest (Nat.zero_le _) (by omega) hstops
    rw [heq]
    exact ⟨hsettled.result, beginsWith_of_settled hsettled⟩

/-- Another byte written over the first one of the file is told apart from it only where
differences are looked for. -/
theorem writeBlocks_over_first (h : w.file.BeginsWith x) (hy : y ≠ x) :
    (w.file.config.compareForDiff = false → (w.writeBlocks 0 [y]).result = .ok ()) ∧
      (w.file.config.compareForDiff = true → ∃ m, (w.writeBlocks 0 [y]).result = .error (.diff m)) := by
  obtain ⟨v, hlast, hhead, hsize⟩ := h
  have hdata : [y] ≠ [] := List.cons_ne_nil y []
  have hfit : 0 + [y].length < 2 ^ 64 := by simp
  have hne : 0 < v.data.length := List.length_pos_iff.mpr fun hnil => by simp [hnil] at hhead
  have hwithin : 0 + v.data.length < 2 ^ 64 := by rwa [Nat.zero_add]
  refine ⟨fun hc => ?_, fun hc => ?_⟩
  · refine (writeBlocks_inside hdata hfit hlast ?_ hwithin (Nat.zero_le _) fun hc' => ?_).1
    · rw [List.length_singleton]
      exact Nat.add_le_add_left hne 0
    · rw [hc] at hc'
      cases hc'
  · obtain ⟨rest, heq⟩ := writeBlocks_onto [y] hlast (Nat.zero_le _) (Nat.zero_le _)
    rw [heq]
    refine (writeAppendNewToOld_baseThrows rest hdata le_rfl (Nat.zero_le _) hsize (Nat.two_pow_pos 64)
      (fun _ => hwithin) hc ⟨by simpa, ?_⟩).1
    show v.data[0]? ≠ some y
    rw [← List.head?_eq_getElem?, hhead]
    exact fun heq => hy (Option.some.inj heq).symm

/-- To write it looks outside no buffer. -/
theorem write_first_inBuffers (now : Int) (h : w.file.BeginsWith x) : (Command.write now 0 [y]).InBuffers w := by
  obtain ⟨v, hlast, hhead, hsize⟩ := h
  have hv : v.data ≠ [] := fun hnil => by simp [hnil] at hhead
  have hpos : 0 < v.data.length := List.length_pos_iff.mpr hv
  apply write_inBuffers
  obtain ⟨rest, heq⟩ := writeBlocks_onto (w := ⟨w.file, []⟩) [y] hlast (Nat.zero_le _) (Nat.zero_le _)
  rw [heq]
  refine writeAppendNewToOld_inBuffers hv le_rfl (Nat.zero_le _) (by simpa using hsize) (fun hpast => ?_)
    (logInBuffers_nil w.file)
  simp only [List.length_singleton] at hpast
  omega

end World

namespace CpSparseVirtualFile

/-! ### Calls and what they answer -/

/-- A later call, once its arguments are parsed. -/
inductive Call where
  | write (fpos : Nat) (data : List Byte)
  | read (fpos len : Nat)

def Call.NonEmpty : Call → Prop
  | .write _ data => data ≠ []
  | .read _ _ => True

/-- The call of an object, at the system time `now`. -/
def Call.on (call : Call) (now : Int) (self : CpSparseVirtualFile) : PyOutcome CpSparseVirtualFile PyObject :=
  match call with
  | .write fpos data => self.write now fpos data
  | .read fpos len => self.read now fpos len

/-- What it asks of the C++ file. -/
def Call.command (call : Call) (now : Int) : Command :=
  match call with
  | .write fpos data => .write now fpos data
  | .read fpos len => .read now fpos len

/-- No call of a run, the first of them at the time `clock n`, looks outside the buffers of the
blocks. -/
def InBuffers (clock : Nat → Int) : List Call → Nat → CpSparseVirtualFile → Prop
  | [], _, _ => True
  | call :: rest, n, self =>
    (call.command (clock n)).InBuffers self.pSvf ∧ InBuffers clock rest (n + 1) (call.on (clock n) self).self

/-- What a run of calls answers, the first of them at the time `clock n`. A call that
raised is followed by the next one. -/
def replies (clock : Nat → Int) : List Call → Nat → CpSparseVirtualFile → List (PyResult PyObject)
  | [], _, _ => []
  | call :: rest, n, self =>
    let o := call.on (clock n) self
    o.result :: replies clock rest (n + 1) o.self

/-- Both raised an error, or both returned the same object. -/
inductive SameReply : PyResult PyObject → PyResult PyObject → Prop where
  | returned (a : PyObject) : SameReply (.returned a) (.returned a)
  | raised (e e' : PyError) : SameReply (.raised e) (.raised e')

/-- No later run of non-empty writes and of reads tells the two objects apart, whatever
their clocks show. What a call that looks outside a buffer answers goes by what lies there: runs
with such calls on the first are not asked about, and the others have none on the second. -/
def BehavesAlike (self other : CpSparseVirtualFile) : Prop :=
  ∀ (clock clock' : Nat → Int) (calls : List Call), (∀ call ∈ calls, call.NonEmpty) →
    InBuffers clock calls 0 self → InBuffers clock' calls 0 other ∧
      List.Forall₂ SameReply (replies clock calls 0 self) (replies clock' calls 0 other)

section Calls
variable {self other : CpSparseVirtualFile} {now : Int} {fpos : Nat} {data : List Byte}

theorem write_of_ok (hdata : data ≠ []) (h : (self.pSvf.write now fpos data).result = .ok ()) :
    self.write now fpos data =
      ⟨.returned .none, self.after _ (World.fixed_write now fpos data self.pSvf)⟩ := by
  unfold write
  rw [if_pos (List.length_pos_iff.mpr hdata)]
  simp only [h]

theorem write_of_diff {m : String} (hdata : data ≠ [])
    (h : (self.pSvf.write now fpos data).result = .error (.diff m)) :
    ∃ e, (self.write now fpos data).result = .raised e := by
  unfold write
  rw [if_pos (List.length_pos_iff.mpr hdata)]
  simp only [h]
  exact ⟨_, rfl⟩

/-- A call raises or returns; no C++ exception gets out of it. -/
theorem sameReply_self (call : Call) (now : Int) (self : CpSparseVirtualFile) :
    SameReply (call.on now self).result (call.on now self).result := by
  cases call with
  | write fpos data =>
    simp only [Call.on, write]
    split
    · split
      · exact .returned _
      · exact .raised _ _
      · exact .raised _ _
    · exact .returned _
  | read fpos len =>
    simp only [Call.on, read, svfReadAsPyBytes]
    split
    · exact .returned _
    · exact .raised _ _
    · exact .raised _ _

/-- A call ends the same way on objects whose files are alike. -/
theorem alike_on (call : Call) (now now' : Int) (h : Alike self.pSvf other.pSvf) :
    (call.on now' other).result = (call.on now self).result ∧
      Alike (call.on now self).self.pSvf (call.on now' other).self.pSvf := by
  cases call with
  | write fpos data =>
    obtain ⟨hresult, hworld⟩ := World.alike_write h now now' fpos data
    simp only [Call.on, write, hresult]
    split
    · split <;> exact ⟨rfl, hworld⟩
    · exact ⟨rfl, h⟩
  | read fpos len =>
    obtain ⟨hresult, hworld⟩ := World.alike_read h now now' fpos len
    simp only [Call.on, read, svfReadAsPyBytes, hresult]
    split <;> exact ⟨rfl, hworld⟩

theorem command_inBuffers_of_alike (call : Call) {now : Int} (now' : Int) (h : Alike self.pSvf other.pSvf)
    (hbuffers : (call.command now).InBuffers self.pSvf) : (call.command now').InBuffers other.pSvf := by
  cases call with
  | write fpos data => exact World.write_inBuffers_of_alike h now' hbuffers
  | read fpos len => exact World.read_inBuffers_of_alike h now' hbuffers

/-- So does every run of calls, within the same buffers. -/
theorem replies_of_alike (clock clock' : Nat → Int) (calls : List Call) (n : Nat)
    (h : Alike self.pSvf other.pSvf) : replies clock' calls n other = replies clock calls n self ∧
      (InBuffers clock calls n self → InBuffers clock' calls n other) := by
  induction calls generalizing n self other with
  | nil => exact ⟨rfl, fun _ => trivial⟩
  | cons call rest ih =>
    obtain ⟨hresult, halike⟩ := alike_on call (clock n) (clock' n) h
    obtain ⟨hreplies, hbuffers⟩ := ih (n + 1) halike
    refine ⟨by simp only [replies, hresult, hreplies], fun hrun => ⟨?_, hbuffers hrun.2⟩⟩
    exact command_inBuffers_of_alike call (clock' n) h hrun.1

theorem replies_same (clock : Nat → Int) (calls : List Call) (n : Nat) (self : CpSparseVirtualFile) :
    List.Forall₂ SameReply (replies clock calls n self) (replies clock calls n self) := by
  induction calls generalizing n self with
  | nil => exact .nil
  | cons call rest ih => exact .cons (sameReply_self call (clock n) self) (ih _ _)

/-- Objects whose files are alike behave alike. -/
theorem behavesAlike_of_alike (h : Alike self.pSvf other.pSvf) : BehavesAlike self other := by
  intro clock clock' calls _ hrun
  obtain ⟨hreplies, hbuffers⟩ := replies_of_alike clock clock' calls 0 h
  refine ⟨hbuffers hrun, ?_⟩
  rw [hreplies]
  exact replies_same clock calls 0 self

/-- Objects of the same bytes, with differences looked for in one and not in the other,
answer a byte written over another one differently; and looking for it they stay in the buffer. -/
theorem replies_overwrite {x y : Byte} (clock : Nat → Int) (hsep : Segments.Separated self.pSvf.file.segments)
    (hs : Representable self.pSvf.file) (hagree : ¬ self.pSvf.file.Conflict 0 [x]) (hy : y ≠ x) :
    InBuffers clock [.write 0 [x], .write 0 [y]] 0 self ∧
      (self.pSvf.file.config.compareForDiff = false →
        replies clock [.write 0 [x], .write 0 [y]] 0 self = [.returned .none, .returned .none]) ∧
      (self.pSvf.file.config.compareForDiff = true →
        ∃ e, replies clock [.write 0 [x], .write 0 [y]] 0 self = [.returned .none, .raised e]) := by
  obtain ⟨hblocks, hbegins⟩ := World.writeBlocks_first hsep hs hagree
  have hwrite := World.write_eq (clock 0) 0 [x] hblocks
  have hfirst : self.write (clock 0) 0 [x] = ⟨.returned .none, self.after _ _⟩ :=
    write_of_ok (List.cons_ne_nil x []) (by rw [hwrite]; rfl)
  have hfixed := World.fixed_write (clock 0) 0 [x] self.pSvf
  have hbegins' : (self.after _ hfixed).pSvf.file.BeginsWith x := by
    rw [after_pSvf, hwrite]
    exact hbegins
  obtain ⟨hsilent, hthrows⟩ := World.writeBlocks_over_first hbegins' hy
  rw [after_pSvf, hfixed.config] at hsilent hthrows
  simp only [InBuffers, replies, Call.on, Call.command, hfirst]
  refine ⟨⟨?_, World.write_first_inBuffers (clock 1) hbegins', trivial⟩, fun hc => ?_, fun hc => ?_⟩
  · exact write_inBuffers (clock 0)
      (World.writeBlocks_inBuffers (w := ⟨self.pSvf.file, []⟩) hsep hs (Nat.two_pow_pos 64) (logInBuffers_nil _))
  · have hsecond : ((self.after _ hfixed).pSvf.write (clock 1) 0 [y]).result = .ok () := by
      rw [after_pSvf, World.write_eq (clock 1) 0 [y] (hsilent hc)]
      rfl
    rw [write_of_ok (List.cons_ne_nil y []) hsecond]
  · have hsecond : ∃ m, ((self.after _ hfixed).pSvf.write (clock 1) 0 [y]).result = .error (.diff m) :=
      write_diff_iff.mpr (hthrows hc)
    obtain ⟨m, hm⟩ := hsecond
    obtain ⟨e, he⟩ := write_of_diff (List.cons_ne_nil y []) hm
    exact ⟨e, by rw [he]⟩

end Calls

/-! ### The original and the restored -/

/-- The byte at the beginning of a file can be written there. -/
theorem not_conflict_first {s : SparseVirtualFile} : ¬ s.Conflict 0 [(s.held 0).getD 0] := by
  rintro ⟨p, b, _, hp, hb, hne⟩
  obtain rfl : p = 0 := Nat.lt_one_iff.mp (by simpa using hp)
  simp [hb] at hne

section Unpickled
variable {self original restored : CpSparseVirtualFile} {state : PyObject} {clock clock' : Nat → Int}
  {old : Option CpSparseVirtualFile}

/-- What is left of the original once it is pickled, and what comes of unpickling. -/
theorem original_restored (hsep : Segments.Separated self.pSvf.file.segments)
    (hs : Representable self.pSvf.file) (hgetstate : self.getstate clock = ⟨.returned state, original⟩)
    (hsetstate : setstate clock' state old = ⟨.returned .none, some restored⟩) :
    (Alike self.pSvf original.pSvf ∧ Representable original.pSvf.file) ∧ restored.pSvf.file.config = {} ∧
      restored.pSvf.file.segments = self.pSvf.file.segments ∧ Representable restored.pSvf.file := by
  obtain ⟨original', hgetstate', hfixed, hsegments, hbytes⟩ := getstate_returns clock hs
  obtain ⟨hpickled, rfl⟩ := PyOutcome.mk.inj (hgetstate.symm.trans hgetstate')
  obtain rfl := PyResult.returned.inj hpickled
  obtain ⟨restored', hsetstate', _, hconfig, _, hsegments', hbytes'⟩ :=
    setstate_pickled clock' hsep hs self.id_ne_nul old
  obtain rfl := Option.some.inj (PyOutcome.mk.inj (hsetstate.symm.trans hsetstate')).2
  exact ⟨⟨.of_segments hsegments (congrArg SparseVirtualFileConfig.compareForDiff hfixed.config),
    hs.of_segments hsegments (hbytes ▸ hs.bytesTotal)⟩, hconfig, hsegments',
    hs.of_segments hsegments' (hbytes' ▸ Wrap.add_lt)⟩

theorem behavesAlike_iff (hsep : Segments.Separated self.pSvf.file.segments)
    (hs : Representable self.pSvf.file) (hgetstate : self.getstate clock = ⟨.returned state, original⟩)
    (hsetstate : setstate clock' state old = ⟨.returned .none, some restored⟩) :
    BehavesAlike original restored ↔ self.pSvf.file.config.compareForDiff = true := by
  obtain ⟨⟨horiginal, hs⟩, hconfig, hsegments, hs'⟩ := original_restored hsep hs hgetstate hsetstate
  have hcompare : restored.pSvf.file.config.compareForDiff = true := by rw [hconfig]
  rw [← horiginal.segments] at hsep hsegments
  rw [← horiginal.compareForDiff]
  refine ⟨fun h => ?_, fun hc => ?_⟩
  · by_contra hc
    have hheld : restored.pSvf.file.held 0 = original.pSvf.file.held 0 := by
      rw [SparseVirtualFile.held, SparseVirtualFile.held, hsegments]
    have hagree := not_conflict_first (s := restored.pSvf.file)
    rw [hheld] at hagree
    let x := (original.pSvf.file.held 0).getD 0
    have hy : x + 1 ≠ x := by simp
    obtain ⟨_, _, hlooks⟩ := replies_overwrite clock' (hsegments ▸ hsep) hs' hagree hy
    obtain ⟨hbuffers, hlax, _⟩ := replies_overwrite clock hsep hs not_conflict_first hy
    obtain ⟨e, hraised⟩ := hlooks hcompare
    obtain ⟨_, hsame⟩ := h clock clock' [.write 0 [x], .write 0 [x + 1]] (by simp [Call.NonEmpty]) hbuffers
    rw [hlax (Bool.eq_false_iff.mpr hc), hraised] at hsame
    obtain _ | ⟨_, _ | ⟨hsecond, _⟩⟩ := hsame
    cases hsecond
  · exact behavesAlike_of_alike (.of_segments hsegments (hcompare.trans hc.symm))

end Unpickled

/-- **An unpickled `cSVF` behaves like the original** exactly where the original looks for
differences. -/
theorem unpickled_behaves_iff (self : CpSparseVirtualFile) (clock clock' : Nat → Int)
    (old : Option CpSparseVirtualFile) (hsep : Segments.Separated self.pSvf.file.segments)
    (hs : Representable self.pSvf.file) :
    ∃ state original restored, self.getstate clock = ⟨.returned state, original⟩ ∧
      setstate clock' state old = ⟨.returned .none, some restored⟩ ∧
      (BehavesAlike original restored ↔ self.pSvf.file.config.compareForDiff = true) := by
  obtain ⟨original, hgetstate, _⟩ := getstate_returns clock hs
  obtain ⟨restored, hsetstate, _⟩ := setstate_pickled clock' hsep hs self.id_ne_nul old
  exact ⟨_, original, restored, hgetstate, hsetstate, behavesAlike_iff hsep hs hgetstate hsetstate⟩

/-- A `cSVF` of one byte that does not look for differences. -/
def silentObject : CpSparseVirtualFile where
  pSvf := Run.run Command.step (World.new [105, 100] 1 {compareForDiff := false}) [.write 0 0 [1]]
  id_ne_nul := by decide

theorem separated_silentObject : Segments.Separated silentObject.pSvf.file.segments := ⟨by decide, by decide⟩

theorem representable_silentObject : Representable silentObject.pSvf.file :=
  ⟨by decide, by decide, by decide⟩

/-- It comes back as one that does. -/
theorem unpickled_behaves_iff_silent :
    ∃ state original restored, silentObject.getstate (fun n => n) = ⟨.returned state, original⟩ ∧
      setstate (fun n => n) state none = ⟨.returned .none, some restored⟩ ∧
      (BehavesAlike original restored ↔ silentObject.pSvf.file.config.compareForDiff = true) :=
  unpickled_behaves_iff silentObject _ _ none separated_silentObject representable_silentObject

/-- Not every unpickled object behaves like the original. -/
theorem not_unpickled_behaves : ¬ ∀ (self : CpSparseVirtualFile) (clock clock' : Nat → Int)
    (old : Option CpSparseVirtualFile), Segments.Separated self.pSvf.file.segments →
    Representable self.pSvf.file →
    ∃ state original restored, self.getstate clock = ⟨.returned state, original⟩ ∧
      setstate clock' state old = ⟨.returned .none, some restored⟩ ∧ BehavesAlike original restored := by
  intro h
  obtain ⟨state, original, restored, hgetstate, hsetstate, hbehaves⟩ :=
    h silentObject (fun n => n) (fun n => n) none separated_silentObject representable_silentObject
  have hcompare := (behavesAlike_iff separated_silentObject representable_silentObject hgetstate
    hsetstate).mp hbehaves
  exact absurd hcompare (by decide)

end CpSparseVirtualFile
end Svfs
