import Svfs.Python.Ids
import Svfs.Write.Empty

/-! What `__setstate__` accepts.

The blocks tuple is played back through the C++ `write`, with no look at the bytes of a pair and
no handler around the call. Pairs that agree with those before them, that do not run into a block
lying after them, and that are not empty but where a block reaches them, make a file with just their
bytes; the first pair of another kind makes a file with a fault, one that does not read back, or a
C++ exception that nothing catches (`setstate_accepts_iff`). -/
namespace Svfs
open CpSparseVirtualFile

/-- A pair of the blocks tuple. -/
abbrev BlockPair := Segments.Segment Byte

/-- It ends within the `size_t` range. -/
def BlockPair.Fits (pair : BlockPair) : Prop := pair.1 + pair.2.length < 2 ^ 64

instance (pair : BlockPair) : Decidable pair.Fits := inferInstanceAs (Decidable (_ < _))

theorem BlockPair.Fits.position {pair : BlockPair} (h : pair.Fits) : pair.1 < 2 ^ 64 :=
  (Nat.le_add_right _ _).trans_lt h

/-- Some byte of the pair differs from one listed before it for the same position. -/
def Clashes (done : List BlockPair) (pair : BlockPair) : Prop :=
  ∃ earlier ∈ done, ∃ p a b, Segments.Gives earlier p a ∧ Segments.Gives pair p b ∧ a ≠ b

/-- The pair can be written once the pairs `done` are. -/
structure Follows (done : List BlockPair) (pair : BlockPair) : Prop where
  agrees : ¬ Clashes done pair
  /-- No bytes go where there are some, or just after. -/
  attached : pair.2 = [] → Segments.Attached (Segments.support done) pair.1
  apart : pair.2 ≠ [] → ¬ Segments.RunsInto (Segments.support done) pair.1 pair.2.length

/-- The object reads back what the pairs list, and holds nothing else. -/
structure ReadsListed (pairs : List BlockPair) (object : CpSparseVirtualFile) : Prop where
  reads : ∀ pair ∈ pairs, pair.2 ≠ [] → ∀ now,
    (object.read now pair.1 pair.2.length).result = .returned (.bytes pair.2)
  only : ∀ p, object.pSvf.file.held p ≠ none → p ∈ Segments.support pairs

/-- A tidy file of just the bytes that the pairs list. -/
structure Replayed (done : List BlockPair) (w : World) : Prop where
  tidy : Tidy w.file
  held : ∀ p b, w.file.held p = some b ↔ ∃ pair ∈ done, Segments.Gives pair p b

theorem read_returned_iff {object : CpSparseVirtualFile} {now : Int} {fpos len : Nat} {bytes : List Byte} :
    (object.read now fpos len).result = .returned (.bytes bytes) ↔
      (object.pSvf.read now fpos len).result = .ok bytes := by
  simp only [CpSparseVirtualFile.read, svfReadAsPyBytes]
  split
  · rename_i data hdata
    simp [hdata, PyOutcome.bind]
  · rename_i m hm
    simp [hm, PyOutcome.bind]
  · rename_i e _ he
    simp [he, PyOutcome.bind]

section Replayed
variable {done : List BlockPair} {pair : BlockPair} {w : World} {now : Int}

theorem Replayed.support (h : Replayed done w) : Segments.support w.file.segments = Segments.support done := by
  ext p
  rw [Segments.mem_support_iff_gives (l := done)]
  show w.file.held p ≠ none ↔ _
  rw [Option.ne_none_iff_exists']
  simp only [h.held]
  exact ⟨fun ⟨b, s, hs, hb⟩ => ⟨s, hs, b, hb⟩, fun ⟨s, hs, b, hb⟩ => ⟨b, s, hs, hb⟩⟩

theorem Replayed.conflict_iff (h : Replayed done w) : w.file.Conflict pair.1 pair.2 ↔ Clashes done pair := by
  constructor
  · rintro ⟨p, a, hle, hlt, ha, hne⟩
    obtain ⟨earlier, hearlier, hgives⟩ := (h.held p a).mp ha
    obtain ⟨b, hb⟩ := Segments.getElem?_of_mem (s := pair) ⟨hle, hlt⟩
    exact ⟨earlier, hearlier, p, a, b, hgives, ⟨hle, hb⟩, fun heq => hne (by rw [hb, heq])⟩
  · rintro ⟨earlier, hearlier, p, a, b, ha, hb, hne⟩
    refine ⟨p, a, hb.1, hb.lt_stop, (h.held p a).mpr ⟨earlier, hearlier, ha⟩, fun heq => hne ?_⟩
    exact Option.some.inj (heq.symm.trans hb.2)

theorem Replayed.runsIntoNext_iff (h : Replayed done w) {fpos len : Nat} :
    w.file.RunsIntoNext fpos len ↔ Segments.RunsInto (Segments.support done) fpos len := by
  rw [SparseVirtualFile.runsIntoNext_iff h.tidy.separated, h.support]

theorem Replayed.reaches_iff (h : Replayed done w) {fpos : Nat} :
    w.file.Reaches fpos ↔ Segments.Attached (Segments.support done) fpos := by
  rw [SparseVirtualFile.reaches_iff h.tidy, h.support]

/-- A pair that follows the others joins them. -/
theorem Replayed.write (h : Replayed done w) (now : Int) (hfit : pair.Fits) (hfollows : Follows done pair) :
    (w.write now pair.1 pair.2).result = .ok () ∧
      Replayed (done ++ [pair]) (w.write now pair.1 pair.2).world := by
  have hlisted : ∀ p b, (∃ q ∈ done ++ [pair], Segments.Gives q p b) ↔
      Segments.Gives pair p b ∨ w.file.held p = some b := by
    intro p b
    simp only [List.mem_append, List.mem_singleton, h.held]
    constructor
    · rintro ⟨q, hq | rfl, hb⟩
      · exact .inr ⟨q, hq, hb⟩
      · exact .inl hb
    · rintro (hb | ⟨q, hq, hb⟩)
      · exact ⟨pair, .inr rfl, hb⟩
      · exact ⟨q, .inl hq, hb⟩
  by_cases hempty : pair.2 = []
  · obtain ⟨hresult, hsegments, hbytes, _⟩ :=
      World.write_nil_onto now (h.reaches_iff.mpr (hfollows.attached hempty))
    rw [← hempty] at hresult hsegments hbytes
    refine ⟨hresult, h.tidy.of_segments hsegments hbytes, fun p b => ?_⟩
    rw [hlisted, SparseVirtualFile.held, hsegments]
    refine ⟨.inr, fun hor => hor.resolve_left fun hgives => ?_⟩
    have := hgives.2
    rw [hempty] at this
    cases this
  · have hagree := mt h.conflict_iff.mp hfollows.agrees
    have heffect := World.writeBlocks_effect h.tidy hempty hfit
      (mt h.runsIntoNext_iff.mp (hfollows.apart hempty)) hagree
    rw [World.write_eq now pair.1 pair.2 heffect.written.result]
    refine ⟨rfl, (heffect.tidy h.tidy hfit).of_segments rfl rfl, fun p b => ?_⟩
    rw [hlisted]
    show (w.writeBlocks pair.1 pair.2).world.file.held p = some b ↔ _
    rw [heffect.held]
    exact Segments.overlay_eq_some_iff fun a hle hlt ha => by
      by_contra hne
      exact hagree ⟨p, a, hle, hlt, ha, hne⟩

theorem Replayed.readsListed {object : CpSparseVirtualFile} (h : Replayed done object.pSvf)
    (hfits : ∀ pair ∈ done, pair.Fits) : ReadsListed done object := by
  refine ⟨fun pair hpair hne now => read_returned_iff.mpr ?_, fun p hp => h.support ▸ hp⟩
  have hfit := hfits pair hpair
  refine World.read_of_reads ?_ hfit.position (.inl hfit)
  refine (reads_iff h.tidy.separated (List.length_pos_iff.mpr hne)).mpr ⟨rfl, fun i hi => ?_⟩
  have hheld := (h.held (pair.1 + i) pair.2[i]).mpr ⟨pair, hpair, by omega, by
    rw [Nat.add_sub_cancel_left, List.getElem?_eq_getElem hi]⟩
  rw [hheld, List.getElem?_eq_getElem hi]
  exact ⟨by simp, rfl⟩

/-- Two reads of one file do not tell of two bytes in one place. -/
theorem eq_of_reads {object : CpSparseVirtualFile} (hsep : Segments.Separated object.pSvf.file.segments)
    {pairs : List BlockPair} (h : ReadsListed pairs object) (hfits : ∀ pair ∈ pairs, pair.Fits)
    {q : BlockPair} (hq : q ∈ pairs) {p : Nat} {b : Byte} (hb : Segments.Gives q p b) :
    object.pSvf.file.held p = some b := by
  have hlen : 0 < q.2.length := by
    have := (List.getElem?_eq_some_iff.mp hb.2).1
    omega
  have hread := read_returned_iff.mp (h.reads q hq (List.length_pos_iff.mp hlen) 0)
  have hreads := (reads_iff hsep hlen).mp (World.reads_of_read hread rfl hlen (hfits q hq).position)
  have hlt := hb.lt_stop
  simp only [Segments.stop] at hlt
  have hle := hb.1
  obtain ⟨_, hheld⟩ := hreads.2 (p - q.1) (by omega)
  rw [Nat.add_sub_cancel' hle] at hheld
  exact hheld.trans hb.2

/-- A pair that does not is the end of it. -/
theorem Replayed.follows (h : Replayed done w) (hfit : pair.Fits) {object : CpSparseVirtualFile}
    (hobject : object.pSvf = (w.write now pair.1 pair.2).world)
    (hresult : (w.write now pair.1 pair.2).result = .ok ()) (hintegrity : object.pSvf.file.integrity = .none)
    (hfits : ∀ q ∈ done ++ [pair], q.Fits) (hreads : ReadsListed (done ++ [pair]) object) :
    Follows done pair := by
  have hblocks : (w.writeBlocks pair.1 pair.2).result = .ok () := by
    cases hr : (w.writeBlocks pair.1 pair.2).result with
    | ok u => rfl
    | error e =>
      rw [World.write, Outcome.bind_of_error hr] at hresult
      cases hresult
  have hwrite := World.write_eq now pair.1 pair.2 hblocks
  have hapart : pair.2 ≠ [] → ¬ Segments.RunsInto (Segments.support done) pair.1 pair.2.length := by
    intro _ hrun
    rw [hobject] at hintegrity
    exact World.runsIntoNext_breaks h.tidy hfit (h.runsIntoNext_iff.mpr hrun) hintegrity
  refine ⟨fun hclash => ?_, fun hempty => ?_, hapart⟩
  · -- It cannot be read back along with the pair it differs from.
    obtain ⟨earlier, hearlier, p, a, b, ha, hb, hne⟩ := hclash
    have hdata : pair.2 ≠ [] := fun hempty => by
      have := hb.2
      rw [hempty] at this
      cases this
    have hsep : Segments.Separated object.pSvf.file.segments := by
      rw [hobject, hwrite]
      exact World.separated_of_returns h.tidy hdata hfit (mt h.runsIntoNext_iff.mp (hapart hdata)) hblocks
    have hfirst := eq_of_reads hsep hreads hfits (List.mem_append_left _ hearlier) ha
    have hsecond := eq_of_reads hsep hreads hfits (List.mem_append_right _ (List.mem_singleton.mpr rfl)) hb
    exact hne (Option.some.inj (hfirst.symm.trans hsecond))
  · -- It makes a block of no bytes.
    by_contra hnot
    have hnew := World.writeBlocks_nil_new hfit.position (mt h.reaches_iff.mp hnot)
    rw [hempty] at hblocks hwrite hobject
    rw [hnew] at hblocks hwrite
    rw [hobject, hwrite] at hintegrity
    exact World.integrity_of_newBlock_nil hblocks hintegrity

end Replayed

/-! ### The loop -/

/-- What is asked of playing back the pairs. -/
structure BlocksAccepted (pairs : List BlockPair) (o : PyOutcome CpSparseVirtualFile Unit) : Prop where
  returned : o.result = .returned ()
  integrity : o.self.pSvf.file.integrity = .none
  reads : ReadsListed pairs o.self

section Loop
variable {self : CpSparseVirtualFile} {done rest : List BlockPair}

/-- Nothing in the loop raises: positions and bytes are all that is asked for. -/
theorem setstateBlocks_not_raised (self : CpSparseVirtualFile) (clock : Nat → Int) (n : Nat)
    (hfits : ∀ pair ∈ rest, pair.Fits) (e : PyError) :
    (setstateBlocks clock (rest.map segmentObject) n self).result ≠ .raised e := by
  intro hraised
  induction rest generalizing n self with
  | nil => cases hraised
  | cons pair rest ih =>
    have hparse := parseBlock_segmentObject (hfits pair (List.mem_cons_self ..)).position
    simp only [List.map_cons, setstateBlocks, hparse] at hraised
    split at hraised
    · cases hraised
    · exact ih _ (n + 1) (fun q hq => hfits q (List.mem_cons_of_mem _ hq)) hraised

/-- Pairs that follow each other are played back one by one. -/
theorem setstateBlocks_replayed (clock : Nat → Int) (n : Nat) (h : Replayed done self.pSvf)
    (hfits : ∀ pair ∈ rest, pair.Fits)
    (hfollows : ∀ before pair after, rest = before ++ pair :: after → Follows (done ++ before) pair) :
    (setstateBlocks clock (rest.map segmentObject) n self).result = .returned () ∧
      Replayed (done ++ rest) (setstateBlocks clock (rest.map segmentObject) n self).self.pSvf := by
  induction rest generalizing done n self with
  | nil =>
    rw [List.append_nil]
    exact ⟨rfl, h⟩
  | cons pair rest ih =>
    have hfit := hfits pair (List.mem_cons_self ..)
    have hfirst := hfollows [] pair rest rfl
    rw [List.append_nil] at hfirst
    obtain ⟨hresult, hnext⟩ := h.write (clock n) hfit hfirst
    rw [List.map_cons, setstateBlocks_cons hfit.position hresult, List.append_cons]
    refine ih (n + 1) hnext (fun q hq => hfits q (List.mem_cons_of_mem _ hq)) fun before q after hsplit => ?_
    have hq := hfollows (pair :: before) q after (by rw [hsplit, List.cons_append])
    rwa [List.append_cons] at hq

/-- Pairs that are accepted, and were at each stage, follow each other. -/
theorem follows_of_accepted (clock : Nat → Int) (n : Nat) (h : Replayed done self.pSvf)
    (hdone : ∀ pair ∈ done, pair.Fits) (hfits : ∀ pair ∈ rest, pair.Fits)
    (haccepted : ∀ before after, rest = before ++ after →
      BlocksAccepted (done ++ before) (setstateBlocks clock (before.map segmentObject) n self)) :
    ∀ before pair after, rest = before ++ pair :: after → Follows (done ++ before) pair := by
  induction rest generalizing done n self with
  | nil =>
    intro before pair after hsplit
    cases before <;> cases hsplit
  | cons pair rest ih =>
    have hfit := hfits pair (List.mem_cons_self ..)
    have hone := haccepted [pair] rest rfl
    have hresult := write_of_setstateBlocks hfit.position hone.returned
    have hdone' : ∀ q ∈ done ++ [pair], q.Fits := fun q hq =>
      (List.mem_append.mp hq).elim (hdone q) fun hq => List.mem_singleton.mp hq ▸ hfit
    let next := self.after _ (World.fixed_write (clock n) pair.1 pair.2 self.pSvf)
    have hstep : ∀ later, setstateBlocks clock (segmentObject pair :: later) n self =
        setstateBlocks clock later (n + 1) next := setstateBlocks_cons hfit.position hresult
    have hfirst : Follows done pair := by
      have hself : (setstateBlocks clock ([pair].map segmentObject) n self).self.pSvf = next.pSvf := by
        rw [List.map_singleton, hstep]
        rfl
      exact h.follows hfit hself hresult hone.integrity hdone' hone.reads
    have hnext : Replayed (done ++ [pair]) next.pSvf := (h.write (clock n) hfit hfirst).2
    intro before q after hsplit
    cases before with
    | nil =>
      obtain ⟨rfl, _⟩ := List.cons.inj hsplit
      rwa [List.append_nil]
    | cons _ before =>
      obtain ⟨rfl, hrest⟩ := List.cons.inj hsplit
      rw [List.append_cons]
      refine ih (n + 1) hnext hdone'
        (fun q hq => hfits q (List.mem_cons_of_mem _ hq)) (fun front back hrest => ?_) before q after hrest
      have haccept := haccepted (pair :: front) back (by rw [hrest, List.cons_append])
      rwa [List.map_cons, hstep, List.append_cons] at haccept

end Loop

/-! ### The dict -/

/-- A dict with entries of the types that `__setstate__` checks. -/
def TypeChecked (id : List Nat) (modTime : Float) (pairs : List BlockPair) (state : PyObject) : Prop :=
  ∃ entries, state = .dict entries ∧
    PyObject.getItemString entries pickleVersionKey = some (.int pickleVersion) ∧
    PyObject.getItemString entries pickleIdKey = some (.str id) ∧
    PyObject.getItemString entries pickleFileModTimeKey = some (.float modTime) ∧
    PyObject.getItemString entries pickleBlocksKey = some (.tuple (pairs.map segmentObject))

theorem typeChecked_dict (id : List Nat) (modTime : Float) (pairs : List BlockPair) :
    TypeChecked id modTime pairs (.dict [
      (pickleIdKey, .str id), (pickleFileModTimeKey, .float modTime),
      (pickleBlocksKey, .tuple (pairs.map segmentObject)), (pickleVersionKey, .int pickleVersion)]) :=
  ⟨_, rfl, rfl, rfl, rfl, rfl⟩

/-- What is asked of `__setstate__`: an error, or a good object. -/
def Accepted (pairs : List BlockPair) (o : PyOutcome (Option CpSparseVirtualFile) PyObject) : Prop :=
  (∃ e, o.result = .raised e) ∨ (o.result = .returned .none ∧ ∃ object, o.self = some object ∧
    object.pSvf.file.integrity = .none ∧ ReadsListed pairs object)

section Setstate
variable {id : List Nat} {modTime : Float} {pairs : List BlockPair} {state : PyObject} {clock : Nat → Int}
  {old : Option CpSparseVirtualFile}

/-- It raises if it gets no id, -/
theorem accepted_of_parseString (hid : parseString (.str id) = none) (h : TypeChecked id modTime pairs state) :
    Accepted pairs (setstate clock state old) := by
  obtain ⟨entries, rfl, hversion, hidItem, htime, hblocks⟩ := h
  have hpickle : castInt (pyLongAsLong (.int pickleVersion)) = pickleVersion := by decide
  left
  simp only [setstate, hversion, hpickle, ne_eq, not_true, if_false, hidItem, htime, init_eq_none hid]
  exact ⟨_, rfl⟩

/-- and is the playback of its pairs on a new file otherwise. -/
theorem accepted_iff {new : CpSparseVirtualFile} (hinit : CpSparseVirtualFile.init (.str id) modTime = some new)
    (h : TypeChecked id modTime pairs state) (hfits : ∀ pair ∈ pairs, pair.Fits) :
    Accepted pairs (setstate clock state old) ↔
      BlocksAccepted pairs (setstateBlocks clock (pairs.map segmentObject) 0 new) := by
  obtain ⟨entries, rfl, hversion, hidItem, htime, hblocks⟩ := h
  rw [setstate_of_items clock old hversion hidItem htime hinit]
  simp only [setstateReplay, hblocks]
  have hraised := setstateBlocks_not_raised new clock 0 hfits
  constructor
  · intro haccepted
    cases hr : (setstateBlocks clock (pairs.map segmentObject) 0 new).result with
    | returned u =>
      simp only [hr, Accepted] at haccepted
      obtain ⟨_, he⟩ | ⟨_, object, hobject, hintegrity, hreads⟩ := haccepted
      · cases he
      · obtain rfl := Option.some.inj hobject
        exact ⟨hr, hintegrity, hreads⟩
    | raised e => exact absurd hr (hraised e)
    | terminated e =>
      simp only [hr, Accepted] at haccepted
      obtain ⟨_, he⟩ | ⟨he, _⟩ := haccepted <;> cases he
  · intro h
    simp only [h.returned]
    exact .inr ⟨rfl, _, rfl, h.integrity, h.reads⟩

end Setstate

/-- **`__setstate__` accepts only good states** of the kind whose pairs follow each other. It
accepts every beginning of the blocks tuple just then, or if it is for the id to be refused. -/
theorem setstate_accepts_iff (id : List Nat) (modTime : Float) (pairs : List BlockPair) (clock : Nat → Int)
    (old : Option CpSparseVirtualFile) (hfits : ∀ pair ∈ pairs, pair.Fits) :
    (∀ before after, pairs = before ++ after → ∀ state, TypeChecked id modTime before state →
        Accepted before (setstate clock state old)) ↔
      parseString (.str id) = none ∨
        ∀ before pair after, pairs = before ++ pair :: after → Follows before pair := by
  cases hid : parseString (.str id) with
  | none => exact ⟨fun _ => .inl rfl, fun _ before after _ state => accepted_of_parseString hid⟩
  | some cId =>
    obtain ⟨new, hinit, hnew⟩ := init_eq hid modTime {}
    have hbegin : Replayed [] new.pSvf := by
      rw [hnew]
      exact ⟨tidy_new cId modTime {}, fun p b => ⟨nofun, nofun⟩⟩
    have hbefore : ∀ before after, pairs = before ++ after → ∀ pair ∈ before, pair.Fits :=
      fun before after hsplit pair hpair => hfits pair (by simp [hsplit, hpair])
    simp only [reduceCtorEq, false_or]
    constructor
    · intro haccepted before pair after hsplit
      refine follows_of_accepted clock 0 hbegin (by simp) hfits (fun front back hfront => ?_)
        before pair after hsplit
      rw [List.nil_append]
      exact (accepted_iff hinit (typeChecked_dict id modTime front) (hbefore front back hfront)).mp
        (haccepted front back hfront _ (typeChecked_dict id modTime front))
    · intro hfollows before after hsplit state hstate
      have hfront := hbefore before after hsplit
      obtain ⟨hreturned, hreplayed⟩ := setstateBlocks_replayed clock 0 hbegin hfront
        fun front pair back hfrom => hfollows front pair (back ++ after) (by simp [hsplit, hfrom])
      exact (accepted_iff hinit hstate hfront).mpr
        ⟨hreturned, hreplayed.tidy.integrity, hreplayed.readsListed hfront⟩

theorem setstate_accepts_iff_three :
    let pairs : List BlockPair := [(4, [1]), (5, [2, 3]), (0, [7])]
    (∀ before after, pairs = before ++ after → ∀ state, TypeChecked [97] 0 before state →
        Accepted before (setstate (fun n => n) state none)) ↔
      parseString (.str [97]) = none ∨
        ∀ before pair after, pairs = before ++ pair :: after → Follows before pair :=
  setstate_accepts_iff [97] 0 [(4, [1]), (5, [2, 3]), (0, [7])] (fun n => n) none (by decide)

/-- A new object with the id `a`. -/
def newObject : CpSparseVirtualFile := ⟨World.new [97] 0, by decide⟩

/-- A pair of no bytes becomes a block of no bytes. -/
theorem not_setstate_accepts : ¬ ∀ (pairs : List BlockPair) (state : PyObject), (∀ pair ∈ pairs, pair.Fits) →
    TypeChecked [97] 0 pairs state → Accepted pairs (setstate (fun n => n) state none) := by
  intro h
  have hfits : ∀ pair ∈ ([(0, [])] : List BlockPair), pair.Fits := by decide
  have hdict := typeChecked_dict [97] 0 [(0, [])]
  have hinit : CpSparseVirtualFile.init (.str [97]) 0 = some newObject := rfl
  have haccepted := (accepted_iff hinit hdict hfits).mp (h [(0, [])] _ hfits hdict)
  exact absurd haccepted.integrity (by decide)

end Svfs
