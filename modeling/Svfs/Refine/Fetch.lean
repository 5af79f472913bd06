import Svfs.Query.Merge
import Svfs.Refine.Ask
import Svfs.Refine.Order

/-! The fetch protocol.

A client asks `need` or `need_many` what is missing of its requests, fetches just
that, writes it, and then has what it requested. The pieces cover what is missing
whatever the greed (`need_answers`, `needMany_answers`), and the file coalesces what
is written with what is there, so that each request ends in one block
(`fetch_serves`): as long as no write runs into the next block. -/
namespace Svfs

/-- A write of bytes of the file `F`, at least one, within it. -/
def Command.Of (F : List Byte) : Command → Prop
  | .write _ fpos data => data ≠ [] ∧ fpos + data.length ≤ F.length ∧
      data = (F.drop fpos).take data.length
  | _ => True

/-- What the client is told to fetch for its requests. -/
def SparseVirtualFile.Needs (s : SparseVirtualFile) (rs : List SeekRead) (greedyLength : Nat)
    (pieces : List SeekRead) : Prop :=
  pieces = s.needMany rs greedyLength ∨ ∃ r, rs = [r] ∧ pieces = s.need r.1 r.2 greedyLength

/-- The write of a fetched piece: the bytes of `F` there, cut at its end. -/
def Fetches (F : List Byte) (piece : SeekRead) (c : Command) : Prop :=
  ∃ now, c = .write now piece.1 ((F.drop piece.1).take piece.2)

/-- The client has its request, and reads the bytes of `F`. -/
structure Serves (F : List Byte) (w : World) (r : SeekRead) : Prop where
  has : w.file.has r.1 r.2 = true
  read : ∀ now, (w.read now r.1 r.2).result = .ok ((F.drop r.1).take r.2)

section Fetch
variable {F : List Byte} {w : World} {H : Set Nat}

/-- The file as a function; past its end no one asks. -/
def byteAt (F : List Byte) (p : Nat) : Byte := F[p]?.getD 0

theorem Command.Of.from (hF : F.length < 2 ^ 64) {c : Command} (h : c.Of F) : c.From (byteAt F) := by
  cases c with
  | write now fpos data =>
    obtain ⟨hdata, hfit, hbytes⟩ := h
    refine ⟨hdata, by omega, fun i hi => ?_⟩
    have hlt : fpos + i < F.length := by omega
    conv_lhs => rw [hbytes]
    rw [List.getElem?_take_of_lt hi, List.getElem?_drop, byteAt, List.getElem?_eq_getElem hlt]
    rfl
  | _ => trivial

/-- Each of one list is related to one of the other. -/
theorem exists_of_forall₂ {α β : Type} {R : α → β → Prop} {l : List α} {l' : List β}
    (h : List.Forall₂ R l l') {a : α} (ha : a ∈ l) : ∃ b ∈ l', R a b := by
  induction h with
  | nil => cases ha
  | cons hab _ ih =>
    rcases List.mem_cons.mp ha with rfl | ha
    · exact ⟨_, List.mem_cons_self .., hab⟩
    · obtain ⟨b, hb, hR⟩ := ih ha
      exact ⟨b, List.mem_cons_of_mem _ hb, hR⟩

/-- The writes of pieces that begin within `F` are writes of `F`. -/
theorem of_fetches {pieces : List SeekRead} {cs : List Command} (h : List.Forall₂ (Fetches F) pieces cs)
    (hpieces : ∀ t ∈ pieces, 0 < t.2 ∧ t.1 < F.length) : ∀ c ∈ cs, c.IsWrite ∧ c.Of F := by
  intro c hc
  obtain ⟨t, ht, now, rfl⟩ := exists_of_forall₂ h.flip hc
  obtain ⟨hpos, hlt⟩ := hpieces t ht
  have hlength : ((F.drop t.1).take t.2).length = min t.2 (F.length - t.1) := by
    rw [List.length_take, List.length_drop]
  refine ⟨trivial, ?_, by omega, ?_⟩
  · rw [← List.length_pos_iff]
    omega
  · rw [hlength, ← List.length_drop, ← List.take_eq_take_min]

/-- What a piece covers of `F` its write covers. -/
theorem mem_range_of_covers {pieces : List SeekRead} {cs : List Command}
    (h : List.Forall₂ (Fetches F) pieces cs) {q : Nat} (hq : SparseVirtualFile.Covers pieces q)
    (hlt : q < F.length) : ∃ c ∈ cs, q ∈ c.range := by
  obtain ⟨t, ht, hle, hend⟩ := hq
  obtain ⟨c, hc, now, rfl⟩ := exists_of_forall₂ h ht
  refine ⟨_, hc, hle, ?_⟩
  rw [List.length_take, List.length_drop]
  omega

/-- The pieces of a need begin in what was asked for, and cover what is missing of it. -/
theorem SparseVirtualFile.Needs.answers {s : SparseVirtualFile} (hs : Tidy s) {rs pieces : List SeekRead}
    {greedyLength : Nat} (h : s.Needs rs greedyLength pieces) (hg : greedyLength < 2 ^ 64)
    (hrs : ∀ r ∈ rs, 0 < r.2 ∧ r.1 + r.2 < 2 ^ 64) : SparseVirtualFile.Answers s rs pieces := by
  rcases h with rfl | ⟨r, rfl, rfl⟩
  · exact SparseVirtualFile.needMany_answers hs hrs hg
  · obtain ⟨hpos, hfit⟩ := hrs r (List.mem_singleton.mpr rfl)
    exact SparseVirtualFile.need_answers hs hpos hfit hg

/-- A represented file serves what it holds. -/
theorem Represents.serves (h : Represents (byteAt F) w H) {r : SeekRead} (hpos : 0 < r.2)
    (hend : r.1 + r.2 ≤ F.length) (hF : F.length < 2 ^ 64)
    (hheld : ∀ p, r.1 ≤ p → p < r.1 + r.2 → p ∈ H) : Serves F w r := by
  have hfit : r.1 + r.2 < 2 ^ 64 := by omega
  have hhit : Demand.Hit H r := fun p hp => hheld p hp.1 hp.2
  refine ⟨(h.has_iff hpos hfit).mpr hhit, fun now => ?_⟩
  rw [h.read_of_hit now hpos hfit hhit]
  congr 1
  refine List.ext_getElem? fun i => ?_
  by_cases hi : i < r.2
  · rw [getElem?_bytesOver hi, List.getElem?_take_of_lt hi, List.getElem?_drop, byteAt,
      List.getElem?_eq_getElem (by omega)]
    rfl
  · rw [List.getElem?_eq_none (by rw [length_bytesOver]; omega), List.getElem?_eq_none (by
      rw [List.length_take, List.length_drop]
      omega)]

/-- **Fetching.** In a represented file the writes of the pieces needed do not throw,
and then every request is served, if none of them runs into the next block. -/
theorem Represents.fetched (h : Represents (byteAt F) w H) (hF : F.length < 2 ^ 64)
    {rs pieces : List SeekRead} {greedyLength : Nat} {fetches : List Command}
    (hrs : ∀ r ∈ rs, 0 < r.2 ∧ r.1 + r.2 ≤ F.length) (hg : greedyLength < 2 ^ 64)
    (hneeds : w.file.Needs rs greedyLength pieces) (hfetches : List.Forall₂ (Fetches F) pieces fetches)
    (hrun : Run.Along Command.step (fun c w => ¬ c.RunsIntoNext w) w fetches) :
    Run.Along Command.step Command.WriteReturns w fetches ∧
      ∀ r ∈ rs, Serves F (Run.run Command.step w fetches) r := by
  have hanswers := hneeds.answers h.tidy hg fun r hr => ⟨(hrs r hr).1, by have := (hrs r hr).2; omega⟩
  have hof := of_fetches hfetches fun t ht => by
    obtain ⟨r, hr, hle, hlt⟩ := hanswers.starts t ht
    have := (hrs r hr).2
    exact ⟨hanswers.size t ht, by omega⟩
  have hfrom : ∀ c ∈ fetches, c.IsWrite ∧ c.From (byteAt F) := fun c hc =>
    ⟨(hof c hc).1, (hof c hc).2.from hF⟩
  refine ⟨(run_represents h (fun c hc => (hfrom c hc).2) hrun).1, fun r hr => ?_⟩
  obtain ⟨hpos, hend⟩ := hrs r hr
  apply (writes_represent h hfrom hrun).serves hpos hend hF
  intro p hp hp'
  by_cases hheld : p ∈ H
  · exact .inl hheld
  · -- What was not held is missing, so some piece covers it.
    have hmissing : p ∈ Segments.missing w.file.segments r.1 (r.1 + r.2) := by
      refine ⟨hp, hp', ?_⟩
      by_contra hne
      apply hheld
      rw [← h.support]
      exact hne
    exact .inr (mem_range_of_covers hfetches (hanswers.cover r hr p hmissing) (by omega))

end Fetch

/-- **The fetch protocol.** A file that bytes of `F` were written to, and some taken
from again, is asked what it needs for some requests; once that is fetched and
written it serves them all. No write of the run or of the fetch throws, if none runs
into the next block. -/
theorem fetch_serves (F : List Byte) (id : List Byte) (modTime : Float)
    (config : SparseVirtualFileConfig) (cs : List Command) (rs : List SeekRead) (greedyLength : Nat)
    (pieces : List SeekRead) (fetches : List Command) (hF : F.length < 2 ^ 64)
    (hof : ∀ c ∈ cs, c.Of F) (hrs : ∀ r ∈ rs, 0 < r.2 ∧ r.1 + r.2 ≤ F.length)
    (hg : greedyLength < 2 ^ 64)
    (hneeds : (Run.run Command.step (World.new id modTime config) cs).file.Needs rs greedyLength pieces)
    (hfetches : List.Forall₂ (Fetches F) pieces fetches)
    (hrun : Run.Along Command.step (fun c w => ¬ c.RunsIntoNext w) (World.new id modTime config)
      (cs ++ fetches)) :
    Run.Along Command.step Command.WriteReturns (World.new id modTime config) (cs ++ fetches) ∧
      ∀ r ∈ rs, Serves F (Run.run Command.step (World.new id modTime config) (cs ++ fetches)) r := by
  obtain ⟨hbefore, hafter⟩ := (Run.along_append cs fetches).mp hrun
  obtain ⟨hreturns, hstates⟩ := run_represents (represents_new (byteAt F) id modTime config)
    (fun c hc => (hof c hc).from hF) hbefore
  have hreached := hstates _ Run.run_mem_states
  rw [run_ghostStep] at hreached
  obtain ⟨hfetched, hserves⟩ := hreached.fetched hF hrs hg hneeds hfetches hafter
  refine ⟨(Run.along_append cs fetches).mpr ⟨hreturns, hfetched⟩, ?_⟩
  rw [Run.run_append]
  exact hserves

/-- A file of sixteen bytes. -/
def sixteen : List Byte := (List.range 16).map UInt8.ofNat

/-- A client that holds `[0, 4)` and `[10, 14)`. -/
def twoEnds : List Command :=
  [.write 0 0 (sixteen.take 4), .write 0 10 ((sixteen.drop 10).take 4)]

/-- What is fetched for two requests, up to the end of a block. -/
theorem fetch_serves_both : [(2, 4), (11, 4)].Forall
    (Serves sixteen (Run.run Command.step (World.new [] 0)
      (twoEnds ++ [.write 0 4 ((sixteen.drop 4).take 2), .write 0 14 ((sixteen.drop 14).take 1)]))) := by
  refine List.forall_iff_forall_mem.mpr (fetch_serves sixteen [] 0 {} twoEnds [(2, 4), (11, 4)] 0
    [(4, 2), (14, 1)] _ (by decide) ?_ (by decide) (by decide) (.inl (by decide)) ?_ (by decide)).2
  · simp only [twoEnds, List.forall_mem_cons]
    exact ⟨⟨by decide, by decide, by decide⟩, ⟨by decide, by decide, by decide⟩, by simp⟩
  · exact .cons ⟨0, rfl⟩ (.cons ⟨0, rfl⟩ .nil)

/-- The piece that fills the gap before the block at 10 is written as a block of its
own, and a request over its end is not had. -/
theorem not_fetch_serves : ¬ ∀ (F : List Byte) (id : List Byte) (modTime : Float)
    (config : SparseVirtualFileConfig) (cs : List Command) (rs : List SeekRead) (greedyLength : Nat)
    (pieces : List SeekRead) (fetches : List Command), F.length < 2 ^ 64 →
    (∀ c ∈ cs, c.Of F) → (∀ r ∈ rs, 0 < r.2 ∧ r.1 + r.2 ≤ F.length) → greedyLength < 2 ^ 64 →
    (Run.run Command.step (World.new id modTime config) cs).file.Needs rs greedyLength pieces →
    List.Forall₂ (Fetches F) pieces fetches →
    Run.Along Command.step Command.WriteReturns (World.new id modTime config) (cs ++ fetches) ∧
      ∀ r ∈ rs, Serves F (Run.run Command.step (World.new id modTime config) (cs ++ fetches)) r := by
  intro h
  have hserves := (h sixteen [] 0 {} twoEnds [(6, 6)] 0 [(6, 4)] [.write 0 6 ((sixteen.drop 6).take 4)]
    (by decide) (by
      simp only [twoEnds, List.forall_mem_cons]
      exact ⟨⟨by decide, by decide, by decide⟩, ⟨by decide, by decide, by decide⟩, by simp⟩)
    (by decide) (by decide) (.inr ⟨(6, 6), rfl, by decide⟩) (.cons ⟨0, rfl⟩ .nil)).2 (6, 6)
    (List.mem_singleton.mpr rfl)
  have hnot : (Run.run Command.step (World.new [] 0)
      (twoEnds ++ [.write 0 6 ((sixteen.drop 6).take 4)])).file.has 6 6 = false := by decide
  have hhas := hserves.has
  rw [hnot] at hhas
  cases hhas

end Svfs
