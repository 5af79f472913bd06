import Svfs.File.Command
import Svfs.Query.Read
import Svfs.Write.Steps

/-! Files of the same bytes behave alike.

What a write or a read does depends on the bytes of the blocks and on whether differences
are looked for, and on nothing else of a file: not on the touches, the counters or the
rest of the configuration. Two worlds that have these in common (`Alike`) end every write
and read the same way and stay alike (`alike_write`, `alike_read`), whatever the blocks
are; each step of a write is followed in both. Where `num_bytes` is the same to begin with
it stays so, and where the first looks outside no buffer neither does the second (`Matching`,
`matching_write`). -/
namespace Svfs

/-- The same blocks with the same bytes, and differences looked for in both or in neither. -/
structure Alike (w w' : World) : Prop where
  bytes : w'.file.svf.mapVal Val.data = w.file.svf.mapVal Val.data
  compareForDiff : w'.file.config.compareForDiff = w.file.config.compareForDiff

/-- Two calls that end the same way, in worlds alike. -/
structure EndsAlike {α : Type} (o o' : Outcome α) : Prop where
  result : o'.result = o.result
  world : Alike o.world o'.world

/-- Worlds alike, where it is `counted` of one `num_bytes`, and where it is `logged` the second
with nothing looked at outside a buffer if the first is. -/
structure Matching (counted logged : Prop) (w w' : World) : Prop extends Alike w w' where
  bytesTotal : counted → w'.file.bytesTotal = w.file.bytesTotal
  log : logged → w.LogInBuffers → w'.LogInBuffers

/-- Two calls that end the same way, in worlds that match. -/
structure EndsMatching (counted logged : Prop) {α : Type} (o o' : Outcome α) : Prop where
  result : o'.result = o.result
  world : Matching counted logged o.world o'.world

theorem Alike.of_segments {w w' : World} (hsegments : w'.file.segments = w.file.segments)
    (hcompare : w'.file.config.compareForDiff = w.file.config.compareForDiff) : Alike w w' :=
  ⟨OrderedMap.ext hsegments, hcompare⟩

theorem Alike.segments {w w' : World} (h : Alike w w') : w'.file.segments = w.file.segments :=
  congrArg OrderedMap.entries h.bytes

section Matching
variable {counted logged : Prop}

theorem EndsMatching.bind {α β : Type} {o o' : Outcome α} {f f' : α → World → Outcome β}
    (h : EndsMatching counted logged o o')
    (hf : ∀ a v v', Matching counted logged v v' → EndsMatching counted logged (f a v) (f' a v')) :
    EndsMatching counted logged (o.bind f) (o'.bind f') := by
  cases hr : o.result with
  | ok a =>
    rw [Outcome.bind_of_ok hr, Outcome.bind_of_ok (h.result.trans hr)]
    exact hf a _ _ h.world
  | error e =>
    rw [Outcome.bind_of_error hr, Outcome.bind_of_error (h.result.trans hr)]
    exact ⟨rfl, h.world⟩

/-- What only logs leaves them matching. -/
theorem Matching.of_file {w w' v v' : World} (h : Matching counted logged w w') (hv : v.file = w.file)
    (hv' : v'.file = w'.file) (hlog : logged → v.LogInBuffers → v'.LogInBuffers) : Matching counted logged v v' :=
  ⟨⟨by rw [hv, hv', h.bytes], by rw [hv, hv', h.compareForDiff]⟩, by rw [hv, hv']; exact h.bytesTotal, hlog⟩

theorem Matching.returned {α : Type} {w w' : World} (h : Matching counted logged w w') (a : α) :
    EndsMatching counted logged (.returned a w) (.returned a w') := ⟨rfl, h⟩

theorem Matching.threw {α : Type} {w w' : World} (h : Matching counted logged w w') (e : Exception) :
    EndsMatching counted logged (.threw e w : Outcome α) (.threw e w') := ⟨rfl, h⟩

end Matching

namespace World
variable {counted logged : Prop} {w w' : World}

/-! ### The steps -/

section Steps
variable (h : Matching counted logged w w')
include h

theorem matching_emit (e e' : Event) (he : e.InBuffer → e'.InBuffer) :
    Matching counted logged (w.emit e) (w'.emit e') :=
  h.of_file rfl rfl fun hlogged hlog =>
    (h.log hlogged (logInBuffers_emit_iff.mp hlog).2).emit (he (logInBuffers_emit_iff.mp hlog).1)

theorem matching_assert (holds holds' : Bool) :
    Matching counted logged (w.emit (.assertion holds)) (w'.emit (.assertion holds')) :=
  matching_emit h _ _ fun _ => trivial

theorem matching_nextTouch : Matching counted logged
    {w with file := {w.file with blockTouch := touchSucc w.file.blockTouch}}
    {w' with file := {w'.file with blockTouch := touchSucc w'.file.blockTouch}} :=
  ⟨⟨h.bytes, h.compareForDiff⟩, h.bytesTotal, h.log⟩

theorem matching_addBytes (n : Nat) : Matching counted logged (w.addBytes n) (w'.addBytes n) :=
  ⟨⟨h.bytes, h.compareForDiff⟩, fun hcounted => congrArg (sizeAdd · n) (h.bytesTotal hcounted),
    h.log⟩

theorem matching_pushBack (k : Nat) (bytes : List Byte) :
    Matching counted logged (w.pushBack k bytes) (w'.pushBack k bytes) := by
  have hsvf : ∀ w : World, (w.pushBack k bytes).file.svf.mapVal Val.data =
      (w.file.svf.mapVal Val.data).modify k (· ++ bytes) :=
    fun w => OrderedMap.modify_mapVal _ _ fun _ => rfl
  exact ⟨⟨by rw [hsvf, hsvf, h.bytes], h.compareForDiff⟩, h.bytesTotal, h.log⟩

theorem matching_touch (k : Nat) : Matching counted logged (w.touch k) (w'.touch k) := by
  have hsvf : ∀ w : World, (w.touch k).file.svf.mapVal Val.data = w.file.svf.mapVal Val.data :=
    fun w => OrderedMap.modify_mapVal_same _ _ fun _ => rfl
  exact ⟨⟨by rw [hsvf, hsvf, h.bytes], h.compareForDiff⟩, h.bytesTotal, h.log⟩

theorem matching_blockData (k : Nat) : w'.blockData k = w.blockData k := by
  have hdata : ∀ w : World, w.blockData k = ((w.file.svf.mapVal Val.data).find? k).getD [] := by
    intro w
    rw [OrderedMap.find?_mapVal]
    unfold blockData
    cases w.file.svf.find? k <;> rfl
  rw [hdata, hdata, h.bytes]

/-- Whether the bytes are overwritten first makes no difference to the blocks left. -/
theorem matching_swallow (k : Nat) : Matching counted logged (w.swallow k) (w'.swallow k) := by
  have hsvf : ∀ w : World, (w.swallow k).file.svf = w.file.svf.erase k := by
    intro w
    unfold swallow
    split
    · exact OrderedMap.erase_modify ..
    · rfl
  refine ⟨⟨?_, ?_⟩, fun hcounted => ?_, fun hlogged hlog => ?_⟩
  · rw [hsvf, hsvf, OrderedMap.erase_mapVal, OrderedMap.erase_mapVal, h.bytes]
  · rw [(frame_swallow w k).config, (frame_swallow w' k).config, h.compareForDiff]
  · rw [swallow_bytesTotal, swallow_bytesTotal, h.bytesTotal hcounted]
  · rw [logInBuffers_swallow] at hlog ⊢
    exact h.log hlogged hlog

theorem matching_insertNew (caller : String) (fpos : Nat) {v v' : Val} (hv : v'.data = v.data) :
    EndsMatching counted logged (w.insertNew caller fpos v) (w'.insertNew caller fpos v') := by
  have hsvf : (w'.file.svf.insert fpos v').mapVal Val.data = (w.file.svf.insert fpos v).mapVal Val.data := by
    rw [OrderedMap.insert_mapVal, OrderedMap.insert_mapVal, h.bytes, hv]
  have hsize : w'.file.svf.size = w.file.svf.size := by
    rw [← OrderedMap.size_mapVal Val.data, h.bytes, OrderedMap.size_mapVal]
  have hsize' : (w'.file.svf.insert fpos v').size = (w.file.svf.insert fpos v).size := by
    rw [← OrderedMap.size_mapVal Val.data, hsvf, OrderedMap.size_mapVal]
  unfold insertNew
  dsimp only
  rw [hsize, hsize']
  split
  · exact ⟨rfl, ⟨hsvf, h.compareForDiff⟩, h.bytesTotal, h.log⟩
  · exact ⟨rfl, ⟨hsvf, h.compareForDiff⟩, h.bytesTotal, h.log⟩

theorem matching_diffCheck (fpos : Nat) (data block : List Byte) (offset len : Nat) (probed : List Byte)
    (indexIter : Nat) : EndsMatching counted logged (w.diffCheck fpos data block offset len probed indexIter)
      (w'.diffCheck fpos data block offset len probed indexIter) := by
  obtain ⟨hresult, es, hes, hes'⟩ := diffCheck_alike h.compareForDiff fpos data block offset len probed indexIter
  refine ⟨hresult, h.of_file diffCheck_file diffCheck_file fun hlogged hlog => ?_⟩
  have hsplit := (logInBuffers_append_iff hes).mp hlog
  exact (logInBuffers_append_iff hes').mpr ⟨hsplit.1, h.log hlogged hsplit.2⟩

end Steps

/-! ### The walks -/

theorem head?_of_segmentsOf {rest rest' : List (Nat × Val)} (h : segmentsOf rest' = segmentsOf rest) :
    rest'.head?.map Prod.fst = rest.head?.map Prod.fst := by
  have hhead := congrArg (fun l => l.head?.map Prod.fst) h
  simpa [segmentsOf, List.head?_map, Function.comp_def] using hhead

/-- Two lists of blocks with the same bytes go on together. -/
theorem cons_of_segmentsOf {iter : Nat × Val} {rest rest' : List (Nat × Val)}
    (h : segmentsOf rest' = segmentsOf (iter :: rest)) : ∃ touch later,
      rest' = (iter.1, ⟨iter.2.data, touch⟩) :: later ∧ segmentsOf later = segmentsOf rest := by
  cases rest' with
  | nil => cases h
  | cons next later =>
    obtain ⟨hnext, hlater⟩ := List.cons.inj h
    obtain ⟨fpos, data, touch⟩ := next
    obtain ⟨rfl, rfl⟩ := Prod.mk.inj hnext
    exact ⟨touch, later, rfl, hlater⟩

theorem matching_prependLoop {iters iters' : List (Nat × Val)} (hiters : segmentsOf iters' = segmentsOf iters)
    (fposEnd : Nat) (data : List Byte) (fpos : Nat) (built : List Byte) (h : Matching counted logged w w') :
    EndsMatching counted logged (prependLoop fposEnd iters data fpos built w)
      (prependLoop fposEnd iters' data fpos built w') := by
  induction iters generalizing iters' data fpos built w w' with
  | nil =>
    rw [List.map_eq_nil_iff.mp hiters]
    exact h.returned _
  | cons iter rest ih =>
    obtain ⟨touch, later, rfl, hlater⟩ := cons_of_segmentsOf hiters
    have hend : filePositionImmediatlyAfterBlock (iter.1, ⟨iter.2.data, touch⟩) =
        filePositionImmediatlyAfterBlock iter := rfl
    unfold prependLoop
    dsimp only
    rw [hend, head?_of_segmentsOf hlater]
    refine EndsMatching.bind (matching_diffCheck (matching_addBytes h _) ..) fun _ v v' hv => ?_
    split
    · exact (matching_swallow (matching_emit (matching_emit hv _ _ id) _ _ id) _).returned _
    · split
      · exact (matching_addBytes (matching_swallow hv _) _).returned _
      · exact ih hlater _ _ _ (matching_swallow hv _)

theorem matching_appendLoop {rest rest' : List (Nat × Val)} (hrest : segmentsOf rest' = segmentsOf rest)
    (base : Nat) (newData : List Byte) (fpos : Nat) (h : Matching counted logged w w') :
    EndsMatching counted logged (appendLoop base rest newData fpos w) (appendLoop base rest' newData fpos w') := by
  induction rest generalizing rest' newData fpos w w' with
  | nil =>
    rw [List.map_eq_nil_iff.mp hrest]
    unfold appendLoop
    split
    · exact h.returned _
    · exact (matching_addBytes (matching_pushBack h base newData) _).returned _
  | cons next rest ih =>
    obtain ⟨touch, later, rfl, hlater⟩ := cons_of_segmentsOf hrest
    have hend : filePositionImmediatlyAfterBlock (next.1, ⟨next.2.data, touch⟩) =
        filePositionImmediatlyAfterBlock next := rfl
    have hpush := fun bytes : List Byte => matching_addBytes (matching_pushBack h base bytes) bytes.length
    unfold appendLoop
    dsimp only
    rw [hend]
    split
    · exact h.returned _
    · split
      · exact (hpush _).returned _
      · refine EndsMatching.bind ?_ fun _ v v' hv => ih hlater _ _ (matching_swallow ?_ _)
        · split
          · exact (matching_emit (hpush _) _ _ id).returned _
          · rw [matching_blockData (matching_emit (hpush _) _ _ id)]
            exact matching_diffCheck (matching_emit (hpush _) _ _ id) ..
        · split
          · exact matching_pushBack (matching_emit (matching_pushBack hv base _) _ _ id) base _
          · exact matching_pushBack hv base _

/-! ### Writing and reading -/

theorem matching_writeNewBlock (h : Matching counted logged w w') (fpos : Nat) (data : List Byte) :
    EndsMatching counted logged (w.writeNewBlock fpos data) (w'.writeNewBlock fpos data) := by
  unfold writeNewBlock
  exact matching_insertNew (matching_addBytes (matching_nextTouch (matching_assert h _ _)) _) _ _ rfl

theorem matching_writeNewAppendOld (h : Matching counted logged w w') {iters iters' : List (Nat × Val)}
    (hiters : segmentsOf iters' = segmentsOf iters) (fpos : Nat) (data : List Byte) :
    EndsMatching counted logged (w.writeNewAppendOld fpos data iters) (w'.writeNewAppendOld fpos data iters') := by
  unfold writeNewAppendOld
  refine EndsMatching.bind (matching_prependLoop hiters _ _ _ _
    (matching_nextTouch (matching_assert (matching_assert h _ _) _ _))) fun b v v' hv => ?_
  refine EndsMatching.bind (matching_insertNew hv _ _ rfl) fun _ v v' hv => ?_
  exact (matching_emit (matching_emit hv _ _ id) _ _ id).returned ()

theorem matching_writeAppendNewToOld (h : Matching counted logged w w') {base base' : Nat × Val}
    {rest rest' : List (Nat × Val)} (hbase : segmentsOf (base' :: rest') = segmentsOf (base :: rest))
    (fpos : Nat) (data : List Byte) :
    EndsMatching counted logged (w.writeAppendNewToOld fpos data base rest)
      (w'.writeAppendNewToOld fpos data base' rest') := by
  obtain ⟨touch, later, heq, hrest⟩ := cons_of_segmentsOf hbase
  obtain ⟨rfl, rfl⟩ := List.cons.inj heq
  unfold writeAppendNewToOld
  dsimp only
  refine EndsMatching.bind ?_ fun _ v v' hv =>
    EndsMatching.bind (matching_appendLoop hrest _ _ _ hv) fun left v v' hv => ?_
  · refine matching_diffCheck ?_ ..
    refine matching_emit (matching_emit (matching_emit (matching_emit (matching_emit h _ _ id) _ _ id)
      _ _ id) _ _ id) _ _ id
  · exact (matching_emit (matching_touch hv _) _ _ id).returned ()

theorem end_of_alike (h : Alike w w') :
    w'.file.filePositionImmediatlyAfterEnd = w.file.filePositionImmediatlyAfterEnd := by
  have hend : ∀ s : SparseVirtualFile, s.filePositionImmediatlyAfterEnd =
      (s.segments.getLast?.map fun seg => sizeAdd seg.1 seg.2.length).getD 0 := by
    intro s
    simp only [SparseVirtualFile.segments, segmentsOf, List.getLast?_map, Option.map_map]
    unfold SparseVirtualFile.filePositionImmediatlyAfterEnd
    cases s.svf.entries.getLast? <;> rfl
  rw [hend, hend, h.segments]

theorem isEmpty_of_alike (h : Alike w w') : w'.file.svf.isEmpty = w.file.svf.isEmpty := by
  have hentries := congrArg List.isEmpty h.segments
  simpa [SparseVirtualFile.segments, segmentsOf, OrderedMap.isEmpty] using hentries

/-- The same place in the map. -/
theorem after_of_alike (h : Alike w w') (fpos : Nat) :
    segmentsOf (w'.file.svf.upperBound fpos).prev.after = segmentsOf (w.file.svf.upperBound fpos).prev.after := by
  have hafter : ∀ s : SparseVirtualFile, segmentsOf (s.svf.upperBound fpos).prev.after =
      ((s.svf.mapVal Val.data).upperBound fpos).prev.after := by
    intro s
    rw [OrderedMap.upperBound_mapVal, OrderedMap.Cursor.prev_mapVal]
    rfl
  rw [hafter, hafter, h.bytes]

theorem matching_writeBlocks (h : Matching counted logged w w') (fpos : Nat) (data : List Byte) :
    EndsMatching counted logged (w.writeBlocks fpos data) (w'.writeBlocks fpos data) := by
  have hafter := after_of_alike h.toAlike fpos
  unfold writeBlocks
  rw [isEmpty_of_alike h.toAlike, end_of_alike h.toAlike]
  split
  · exact matching_writeNewBlock h fpos data
  · cases hiters : (w.file.svf.upperBound fpos).prev.after with
    | nil =>
      rw [hiters] at hafter
      rw [List.map_eq_nil_iff.mp hafter]
      exact h.returned ()
    | cons iter rest =>
      rw [hiters] at hafter
      obtain ⟨touch, later, heq, hrest⟩ := cons_of_segmentsOf hafter
      have hend : filePositionImmediatlyAfterBlock (iter.1, ⟨iter.2.data, touch⟩) =
          filePositionImmediatlyAfterBlock iter := rfl
      rw [heq] at hafter ⊢
      dsimp only
      rw [hend]
      split
      · split
        · exact matching_writeNewAppendOld h hafter fpos data
        · exact matching_writeNewBlock h fpos data
      · split
        · exact matching_writeNewBlock h fpos data
        · exact matching_writeAppendNewToOld h hafter fpos data

/-- **A write** ends the same way in both. -/
theorem matching_write (h : Matching counted logged w w') (now now' : Int) (fpos : Nat) (data : List Byte) :
    EndsMatching counted logged (w.write now fpos data) (w'.write now' fpos data) := by
  refine EndsMatching.bind (matching_writeBlocks h fpos data) fun _ v v' hv => Matching.returned ?_ ()
  exact ⟨⟨hv.bytes, hv.compareForDiff⟩, hv.bytesTotal, hv.log⟩

theorem matching_readFrom (h : Matching counted logged w w') (now now' : Int) (fpos len : Nat)
    {iter iter' : Nat × Val} (hiter : (iter'.1, iter'.2.data) = (iter.1, iter.2.data)) (offset : Nat) :
    EndsMatching counted logged (w.readFrom now fpos len iter offset) (w'.readFrom now' fpos len iter' offset) := by
  obtain ⟨hkey, hdata⟩ := Prod.mk.inj hiter
  have hsame : ∀ (m : BlockMap) (k touch : Nat),
      (m.modify k fun v => {v with blockTouch := touch}).mapVal Val.data = m.mapVal Val.data :=
    fun m k touch => OrderedMap.modify_mapVal_same _ _ fun _ => rfl
  unfold readFrom
  rw [hkey, hdata]
  split
  · exact h.threw _
  · have hcopied := matching_emit h (.copy iter.2.data.length offset len) (.copy iter.2.data.length offset len) id
    refine ⟨rfl, ⟨?_, h.compareForDiff⟩, h.bytesTotal, hcopied.log⟩
    exact (hsame ..).trans (h.bytes.trans (hsame ..).symm)

/-- **A read** as well. -/
theorem matching_read (h : Matching counted logged w w') (now now' : Int) (fpos len : Nat) :
    EndsMatching counted logged (w.read now fpos len) (w'.read now' fpos len) := by
  have hlower : (w'.file.svf.lowerBound fpos).mapVal Val.data = (w.file.svf.lowerBound fpos).mapVal Val.data := by
    rw [← OrderedMap.lowerBound_mapVal, h.bytes, OrderedMap.lowerBound_mapVal]
  have hbefore : (w'.file.svf.lowerBound fpos).before.isEmpty = (w.file.svf.lowerBound fpos).before.isEmpty := by
    simpa [OrderedMap.Cursor.mapVal] using congrArg (fun c => c.before.isEmpty) hlower
  have hafter : segmentsOf (w'.file.svf.lowerBound fpos).after = segmentsOf (w.file.svf.lowerBound fpos).after :=
    congrArg OrderedMap.Cursor.after hlower
  -- Found or not, the block read from is the same one.
  have hiters : ∀ hit : Bool,
      segmentsOf (if hit then w'.file.svf.lowerBound fpos else (w'.file.svf.lowerBound fpos).prev).after =
        segmentsOf (if hit then w.file.svf.lowerBound fpos else (w.file.svf.lowerBound fpos).prev).after := by
    intro hit
    cases hit with
    | true => exact hafter
    | false =>
      have hprev := congrArg OrderedMap.Cursor.prev hlower
      rw [OrderedMap.Cursor.prev_mapVal, OrderedMap.Cursor.prev_mapVal] at hprev
      exact congrArg OrderedMap.Cursor.after hprev
  unfold read
  dsimp only
  rw [isEmpty_of_alike h.toAlike, hbefore, head?_of_segmentsOf hafter]
  generalize ((w.file.svf.lowerBound fpos).after.head?.map Prod.fst == some fpos) = hit
  have hsame := hiters hit
  split
  · exact h.threw _
  · split
    · exact h.threw _
    · cases hiter : (if hit then w.file.svf.lowerBound fpos else (w.file.svf.lowerBound fpos).prev).after with
      | nil =>
        rw [hiter] at hsame
        rw [List.map_eq_nil_iff.mp hsame]
        exact h.threw _
      | cons iter rest =>
        rw [hiter] at hsame
        obtain ⟨touch, later, heq, _⟩ := cons_of_segmentsOf hsame
        rw [heq]
        exact matching_readFrom h now now' fpos len rfl _

/-! ### Calls -/

/-- What two calls that end the same way leave is alike. -/
theorem endsAlike_of_matching {α : Type} {o o' : Outcome α} (h : EndsMatching False False o o') : EndsAlike o o' :=
  ⟨h.result, h.world.toAlike⟩

theorem matching_of_alike (h : Alike w w') : Matching False False w w' := ⟨h, False.elim, False.elim⟩

theorem alike_write (h : Alike w w') (now now' : Int) (fpos : Nat) (data : List Byte) :
    EndsAlike (w.write now fpos data) (w'.write now' fpos data) :=
  endsAlike_of_matching (matching_write (matching_of_alike h) now now' fpos data)

theorem alike_read (h : Alike w w') (now now' : Int) (fpos len : Nat) :
    EndsAlike (w.read now fpos len) (w'.read now' fpos len) :=
  endsAlike_of_matching (matching_read (matching_of_alike h) now now' fpos len)

/-- Worlds alike, with nothing logged yet. -/
theorem matching_unlogged (h : Alike w w') : Matching False True ⟨w.file, []⟩ ⟨w'.file, []⟩ :=
  ⟨⟨h.bytes, h.compareForDiff⟩, False.elim, fun _ => id⟩

/-- A write that looks outside no buffer in one of them does not in the other. -/
theorem write_inBuffers_of_alike (h : Alike w w') {now : Int} (now' : Int) {fpos : Nat} {data : List Byte}
    (hbuffers : (Command.write now fpos data).InBuffers w) : (Command.write now' fpos data).InBuffers w' := by
  rw [Command.InBuffers, step_write] at hbuffers ⊢
  exact (matching_write (matching_unlogged h) now now' fpos data).world.log trivial hbuffers

theorem read_inBuffers_of_alike (h : Alike w w') {now : Int} (now' : Int) {fpos len : Nat}
    (hbuffers : (Command.read now fpos len).InBuffers w) : (Command.read now' fpos len).InBuffers w' := by
  rw [Command.InBuffers, step_read] at hbuffers ⊢
  exact (matching_read (matching_unlogged h) now now' fpos len).world.log trivial hbuffers

end World
end Svfs
