import Svfs.Refine.Ask
import Svfs.Refine.Order

/-! Writing in chunks.

A range that is handed over in chunks, one after the other, ends as if it had been written at
once (`chunks_hold`). Only the first chunk can run into the next block: every later one begins
where the one before it ended, so that writing in chunks also serves where writing at once
would run into the next block. -/
namespace Svfs

/-- Chunks written one after the other, each at a time of its own. -/
def chunkWrites : Nat → List (Int × List Byte) → List Command
  | _, [] => []
  | fpos, (now, data) :: rest => .write now fpos data :: chunkWrites (fpos + data.length) rest

/-- All the bytes. -/
def chunkBytes (chunks : List (Int × List Byte)) : List Byte := chunks.flatMap Prod.snd

/-- What writing them one after the other is to do from `w`, which holds `H`. -/
structure WrittenInChunks (F : Nat → Byte) (w : World) (H : Set Nat) (fpos : Nat)
    (chunks : List (Int × List Byte)) : Prop where
  returns : Run.Along Command.step Command.WriteReturns w (chunkWrites fpos chunks)
  shows : Shows F (Run.run Command.step w (chunkWrites fpos chunks)).file
    (H ∪ Set.Ico fpos (fpos + (chunkBytes chunks).length))
  reads : ∀ now, ((Run.run Command.step w (chunkWrites fpos chunks)).read now fpos (chunkBytes chunks).length).result =
    .ok (chunkBytes chunks)
  /-- The same as one write of all the bytes, where that does not run into the next block. -/
  atOnce : ∀ now, ¬ w.file.RunsIntoNext fpos (chunkBytes chunks).length →
    (Run.run Command.step w (chunkWrites fpos chunks)).file.segments =
        (w.write now fpos (chunkBytes chunks)).world.file.segments ∧
      (Run.run Command.step w (chunkWrites fpos chunks)).file.numBytes =
        (w.write now fpos (chunkBytes chunks)).world.file.numBytes

section Chunks
variable {F : Nat → Byte} {w : World} {H : Set Nat} {fpos : Nat} {chunks : List (Int × List Byte)} {now : Int}
  {data : List Byte}

theorem chunkBytes_cons : chunkBytes ((now, data) :: chunks) = data ++ chunkBytes chunks := rfl

theorem ico_union_ico (a b c : Nat) : Set.Ico a (a + b) ∪ Set.Ico (a + b) (a + b + c) = Set.Ico a (a + (b + c)) := by
  rw [Set.Ico_union_Ico_eq_Ico (by omega) (by omega), Nat.add_assoc]

/-- Chunks of bytes of `F` are bytes of `F`. -/
theorem bytes_of_chunks (h : ∀ c ∈ chunkWrites fpos chunks, c.From F) :
    ∀ i < (chunkBytes chunks).length, (chunkBytes chunks)[i]? = some (F (fpos + i)) := by
  induction chunks generalizing fpos with
  | nil => exact fun i hi => absurd hi (Nat.not_lt_zero i)
  | cons chunk rest ih =>
    obtain ⟨now, data⟩ := chunk
    obtain ⟨⟨_, _, hdata⟩, hrest⟩ := List.forall_mem_cons.mp h
    intro i hi
    rw [chunkBytes_cons, List.length_append] at hi
    rw [chunkBytes_cons]
    rcases Nat.lt_or_ge i data.length with hlt | hge
    · rw [List.getElem?_append_left hlt]
      exact hdata i hlt
    · rw [List.getElem?_append_right hge, ih hrest (i - data.length) (by omega),
        show fpos + data.length + (i - data.length) = fpos + i by omega]

/-- They end within the `size_t` range. -/
theorem within_of_chunks (h : ∀ c ∈ chunkWrites fpos chunks, c.From F) (hfpos : fpos < 2 ^ 64) :
    fpos + (chunkBytes chunks).length < 2 ^ 64 := by
  induction chunks generalizing fpos with
  | nil => exact hfpos
  | cons chunk rest ih =>
    obtain ⟨now, data⟩ := chunk
    obtain ⟨⟨_, hfit, _⟩, hrest⟩ := List.forall_mem_cons.mp h
    have := ih hrest hfit
    rw [chunkBytes_cons, List.length_append]
    omega

/-- The first chunk as any write, and every other one where what is held ends. -/
theorem chunks_represent (h : Represents F w H) (hfrom : ∀ c ∈ chunkWrites fpos ((now, data) :: chunks), c.From F)
    (hrun : ¬ w.file.RunsIntoNext fpos data.length) :
    Run.Along Command.step Command.WriteReturns w (chunkWrites fpos ((now, data) :: chunks)) ∧
      Represents F (Run.run Command.step w (chunkWrites fpos ((now, data) :: chunks)))
        (H ∪ Set.Ico fpos (fpos + (chunkBytes ((now, data) :: chunks)).length)) := by
  induction chunks generalizing w H fpos now data with
  | nil =>
    obtain ⟨hfirst, _⟩ := List.forall_mem_cons.mp hfrom
    obtain ⟨hreturns, hnext⟩ := step_represents h hfirst hrun
    refine ⟨⟨hreturns, trivial⟩, ?_⟩
    rw [chunkBytes_cons, chunkBytes, List.flatMap_nil, List.append_nil]
    exact hnext
  | cons chunk rest ih =>
    obtain ⟨now', data'⟩ := chunk
    obtain ⟨hfirst, hrest⟩ := List.forall_mem_cons.mp hfrom
    obtain ⟨hreturns, hnext⟩ := step_represents h hfirst hrun
    have hpos : 0 < data.length := List.length_pos_iff.mpr hfirst.1
    -- It begins just past the last byte of the one before.
    have hattached : Segments.Attached (H ∪ Set.Ico fpos (fpos + data.length)) (fpos + data.length) :=
      .inr ⟨fpos + data.length - 1, .inr ⟨by omega, by omega⟩, by omega⟩
    have hinto : ¬ ((Command.write now fpos data).step w).file.RunsIntoNext (fpos + data.length) data'.length := by
      rw [hnext.runsIntoNext_iff]
      exact fun hruns => hruns.2.1 hattached
    obtain ⟨hlater, hrepresents⟩ := ih hnext hrest hinto
    refine ⟨⟨hreturns, hlater⟩, ?_⟩
    rw [chunkBytes_cons, List.length_append, ← ico_union_ico, ← Set.union_assoc]
    exact hrepresents

theorem Represents.writtenInChunks (h : Represents F w H)
    (hfrom : ∀ c ∈ chunkWrites fpos ((now, data) :: chunks), c.From F)
    (hrun : ¬ w.file.RunsIntoNext fpos data.length) : WrittenInChunks F w H fpos ((now, data) :: chunks) := by
  obtain ⟨hreturns, hrepresents⟩ := chunks_represent h hfrom hrun
  obtain ⟨⟨hdata, hfit, _⟩, _⟩ := List.forall_mem_cons.mp hfrom
  have hbytes := bytes_of_chunks hfrom
  have hwithin := within_of_chunks hfrom (by omega)
  have hne : chunkBytes ((now, data) :: chunks) ≠ [] := by
    rw [chunkBytes_cons]
    exact fun hnil => hdata (List.append_eq_nil_iff.mp hnil).1
  have hlen : 0 < (chunkBytes ((now, data) :: chunks)).length := List.length_pos_iff.mpr hne
  refine ⟨hreturns, hrepresents.shows, fun now' => ?_, fun now' hinto => ?_⟩
  · rw [hrepresents.read_of_hit now' hlen hwithin (Set.subset_union_right)]
    congr 1
    refine List.ext_getElem? fun i => ?_
    by_cases hi : i < (chunkBytes ((now, data) :: chunks)).length
    · rw [getElem?_bytesOver hi, hbytes i hi]
    · rw [List.getElem?_eq_none (by rw [length_bytesOver]; omega), List.getElem?_eq_none (by omega)]
  · have hwhole : Represents F (w.write now' fpos _).world _ := (write_represents h hne hwithin hbytes hinto).2.1
    have hsegments := hrepresents.segments_eq hwhole
    refine ⟨hsegments, ?_⟩
    have hcount := hrepresents.tidy.bytesTotal
    rw [hsegments, ← hwhole.tidy.bytesTotal] at hcount
    exact hcount

end Chunks

/-- **Writing in chunks**, after any run that did not run into a next block: unless the first chunk
does, all are written, and end as one write of all bytes would. -/
theorem chunks_hold (F : Nat → Byte) (id : List Byte) (modTime : Float) (config : SparseVirtualFileConfig)
    (cs : List Command) (fpos : Nat) (now : Int) (data : List Byte) (chunks : List (Int × List Byte))
    (hfrom : ∀ c ∈ cs ++ chunkWrites fpos ((now, data) :: chunks), c.From F)
    (hrun : Run.Along Command.step (fun c w => ¬ c.RunsIntoNext w) (World.new id modTime config) cs)
    (hfirst : ¬ (Run.run Command.step (World.new id modTime config) cs).file.RunsIntoNext fpos data.length) :
    WrittenInChunks F (Run.run Command.step (World.new id modTime config) cs)
      (Run.run ghostStep (World.new id modTime config, ∅) cs).2 fpos ((now, data) :: chunks) := by
  have hrepresents := (run_represents (represents_new F id modTime config)
    (fun c hc => hfrom c (List.mem_append_left _ hc)) hrun).2 _ Run.run_mem_states
  have hworld := run_ghostStep cs (World.new id modTime config, ∅)
  rw [hworld] at hrepresents
  exact hrepresents.writtenInChunks (fun c hc => hfrom c (List.mem_append_right _ hc)) hfirst

/-- The gap that a write at once runs across into the next block, in two chunks. -/
theorem chunks_hold_gap : WrittenInChunks countingFile
    (Run.run Command.step (World.new [] 0) [.writeFrom countingFile 0 1, .writeFrom countingFile 10 2])
    (Run.run ghostStep (World.new [] 0, ∅) [.writeFrom countingFile 0 1, .writeFrom countingFile 10 2]).2
    5 [(0, [5, 6]), (0, [7, 8, 9])] := by
  refine chunks_hold countingFile [] 0 {} _ 5 0 [5, 6] [(0, [7, 8, 9])] ?_ (by decide) (by decide)
  simp only [List.cons_append, List.nil_append, chunkWrites, List.forall_mem_cons]
  exact ⟨from_writeFrom (by decide) (by decide), from_writeFrom (by decide) (by decide),
    ⟨by decide, by decide, by decide⟩, ⟨by decide, by decide, by decide⟩, nofun⟩

end Svfs
