import Svfs.Library.Starts
import Svfs.Query.Exact
import Svfs.Refine.Held

/-! Asking a represented file.

What `has`, `need` and `read` answer of a represented file shows in its held positions
alone. A demand is had if all of it is held, and read then; otherwise the read throws and
nothing changes. What is needed is fetched as `Demand.fetched` has it: the gaps, or with
greed for more than the demand one piece from the first missing position on
(`Represents.need_greedy`). -/
namespace Svfs
open Demand (range)

theorem Tidy.has_iff {s : SparseVirtualFile} (h : Tidy s) {fpos len : Nat} (hlen : 0 < len)
    (hfit : fpos + len < 2 ^ 64) : s.has fpos len = true ↔ s.AllHeld fpos len := by
  obtain ⟨pre, rest, hcut, hpre, hrest⟩ := s.svf.cut_at fpos
  cases List.eq_nil_or_concat' pre with
  | inl hnil =>
    subst hnil
    rw [List.nil_append] at hcut
    have hnone : ∀ iter ∈ s.svf.entries, fpos < iter.1 := fun iter hiter => hrest iter (hcut ▸ hiter)
    rw [SparseVirtualFile.has_of_none hnone]
    exact iff_of_false Bool.false_ne_true (SparseVirtualFile.not_allHeld_of_none hlen hnone)
  | inr hconcat =>
    obtain ⟨front, iter, rfl⟩ := hconcat
    rw [List.append_assoc, List.singleton_append] at hcut
    have hle := hpre iter (by simp)
    have hwithin := h.within iter (by simp [hcut])
    rw [SparseVirtualFile.has_of_cut hcut hle hrest, sizeAdd_of_lt hfit,
      filePositionImmediatlyAfterBlock_of_lt hwithin, decide_eq_true_iff,
      SparseVirtualFile.allHeld_iff h.separated hlen hcut hle hrest]

/-- A read returns, or throws that it can not be done. -/
theorem World.read_returns_or_throws (now : Int) (fpos len : Nat) (w : World) :
    (w.read now fpos len).Returns ∨ ∃ m, w.read now fpos len = .threw (.read m) w := by
  rcases World.read_cases now fpos len w with ⟨_, hthrown⟩ | ⟨pre, iter, rest, _, _, _, heq⟩
  · exact .inr hthrown
  · rw [heq]
    rcases Nat.lt_or_ge iter.2.data.length
      (sizeAdd (if iter.1 = fpos then 0 else sizeSub fpos iter.1) len) with hover | hfits
    · exact .inr ⟨_, World.readFrom_throws hover⟩
    · rw [World.readFrom_returns hfits]
      exact .inl ⟨_, rfl⟩

/-- The bytes of `F` over a demand. -/
def bytesOver (F : Nat → Byte) (fpos len : Nat) : List Byte := (List.range len).map fun i => F (fpos + i)

@[simp] theorem length_bytesOver (F : Nat → Byte) (fpos len : Nat) : (bytesOver F fpos len).length = len := by
  simp [bytesOver]

theorem getElem?_bytesOver {F : Nat → Byte} {fpos len i : Nat} (hi : i < len) :
    (bytesOver F fpos len)[i]? = some (F (fpos + i)) := by
  simp [bytesOver, hi]

namespace Represents
variable {F : Nat → Byte} {w : World} {H : Set Nat} {fpos len : Nat}

theorem mem_iff (h : Represents F w H) {p : Nat} : p ∈ H ↔ w.file.held p ≠ none := by
  rw [← h.support]
  rfl

theorem held_eq (h : Represents F w H) {p : Nat} (hp : p ∈ H) : w.file.held p = some (F p) := by
  obtain ⟨b, hb⟩ := Option.ne_none_iff_exists'.mp (h.mem_iff.mp hp)
  rw [hb, h.bytes p b hb]

theorem allHeld_iff (h : Represents F w H) : w.file.AllHeld fpos len ↔ Demand.Hit H (fpos, len) :=
  ⟨fun hall p hp => h.mem_iff.mpr (hall p hp.1 hp.2), fun hhit _ hp hp' => h.mem_iff.mp (hhit ⟨hp, hp'⟩)⟩

theorem missing_eq (h : Represents F w H) :
    Segments.missing w.file.segments fpos (fpos + len) = range (fpos, len) \ H := by
  ext p
  have hheld : w.file.held p = none ↔ p ∉ H := by rw [h.mem_iff, not_not]
  exact ⟨fun ⟨hlo, hhi, hnone⟩ => ⟨⟨hlo, hhi⟩, hheld.mp hnone⟩,
    fun ⟨⟨hlo, hhi⟩, hnot⟩ => ⟨hlo, hhi, hheld.mpr hnot⟩⟩

theorem runsIntoNext_iff (h : Represents F w H) :
    w.file.RunsIntoNext fpos len ↔ Segments.RunsInto H fpos len := by
  rw [SparseVirtualFile.runsIntoNext_iff h.tidy.separated, h.support]

/-- There is a block for each run of what is held. -/
theorem numBlocks_eq (h : Represents F w H) : w.file.numBlocks = (Demand.starts H).ncard := by
  rw [← h.support, Demand.ncard_starts_support h.tidy.separated]
  exact (List.length_map ..).symm

/-- and it begins where the run does. -/
theorem mem_starts_iff (h : Represents F w H) {x : Nat} : x ∈ Demand.starts H ↔ ∃ b ∈ w.file.blocks, b.1 = x := by
  rw [← h.support, Demand.starts_support h.tidy.separated, SparseVirtualFile.blocks_eq]
  simp

/-- **has** says whether all of a demand is held. -/
theorem has_iff (h : Represents F w H) (hlen : 0 < len) (hfit : fpos + len < 2 ^ 64) :
    w.file.has fpos len = true ↔ Demand.Hit H (fpos, len) :=
  (h.tidy.has_iff hlen hfit).trans h.allHeld_iff

/-- **read** hands out the bytes of what is held, -/
theorem read_of_hit (h : Represents F w H) (now : Int) (hlen : 0 < len) (hfit : fpos + len < 2 ^ 64)
    (hhit : Demand.Hit H (fpos, len)) : (w.read now fpos len).result = .ok (bytesOver F fpos len) := by
  have hagrees := read_agrees now h.tidy.separated hlen hfit
  obtain ⟨data, hdata⟩ := hagrees.read.mpr (h.allHeld_iff.mpr hhit)
  obtain ⟨hlength, hbytes⟩ := hagrees.bytes data hdata
  rw [hdata]
  congr 1
  refine List.ext_getElem? fun i => ?_
  by_cases hi : i < len
  · rw [hbytes i hi, getElem?_bytesOver hi]
    exact h.held_eq (hhit ⟨Nat.le_add_right .., by simp only; omega⟩)
  · rw [List.getElem?_eq_none (by omega), List.getElem?_eq_none (by rw [length_bytesOver]; omega)]

/-- and of nothing else. -/
theorem read_of_not_hit (h : Represents F w H) (now : Int) (hlen : 0 < len) (hfit : fpos + len < 2 ^ 64)
    (hmiss : ¬ Demand.Hit H (fpos, len)) : ∃ m, w.read now fpos len = .threw (.read m) w := by
  cases World.read_returns_or_throws now fpos len w with
  | inl hreturns =>
    have hall := (read_agrees now h.tidy.separated hlen hfit).read.mp hreturns
    exact absurd (h.allHeld_iff.mp hall) hmiss
  | inr hthrown => exact hthrown

/-- **write** takes bytes of `F` in. -/
theorem write_bytesOver (h : Represents F w H) (now : Int) (hlen : 0 < len) (hfit : fpos + len < 2 ^ 64)
    (hruns : ¬ w.file.RunsIntoNext fpos len) :
    (w.write now fpos (bytesOver F fpos len)).result = .ok () ∧
      Represents F (w.write now fpos (bytesOver F fpos len)).world (H ∪ range (fpos, len)) := by
  have hlength := length_bytesOver F fpos len
  have hdata : bytesOver F fpos len ≠ [] := by
    rw [← List.length_pos_iff, hlength]
    exact hlen
  obtain ⟨⟨_, hresult⟩, hrepresents, _⟩ := @write_represents F w H h now fpos (bytesOver F fpos len) hdata
    (by rwa [hlength]) (fun i hi => getElem?_bytesOver (hlength ▸ hi)) (by rwa [hlength])
  rw [hlength] at hrepresents
  exact ⟨hresult, hrepresents⟩

/-! ### What is needed -/

/-- Without greed for more than the demand the gaps are needed, -/
theorem need_gaps (h : Represents F w H) (hlen : 0 < len) (hfit : fpos + len < 2 ^ 64) {g : Nat} (hg : g ≤ len) :
    w.file.need fpos len g = Segments.gaps w.file.segments fpos (fpos + len) := by
  rw [SparseVirtualFile.need_eq h.tidy.separated (h.tidy.endsWithin _) hlen hfit, if_neg (not_lt.mpr hg)]

/-- and with it one piece, from the first missing position on. -/
theorem need_greedy (h : Represents F w H) (hlen : 0 < len) {g : Nat} (hg : len < g)
    (hfit : fpos + len + g < 2 ^ 64) {p : Nat} (hp : IsLeast (range (fpos, len) \ H) p) :
    w.file.need fpos len g = [(p, g)] := by
  have hone : ∀ r ∈ [(fpos, len)], r.1 + r.2 + g < 2 ^ 64 := fun r hr => by
    rw [List.mem_singleton.mp hr]
    exact hfit
  have hcover := SparseVirtualFile.minimise_gaps_isCover h.tidy.separated hlen
    (SparseVirtualFile.noOverflow_of_tidy h.tidy hone)
  have hmissing : Segments.missing w.file.segments fpos (fpos + len) = range (fpos, len) \ H := h.missing_eq
  have hwithin : ∀ q ∈ range (fpos, len) \ H, p ≤ q ∧ q < p + g := fun q hq => by
    have hlast := hq.1.2
    have hfirst := hp.1.1.1
    simp only at hlast hfirst
    exact ⟨hp.2 hq, by omega⟩
  rw [SparseVirtualFile.need_eq h.tidy.separated (h.tidy.endsWithin _) hlen (by omega), if_pos hg]
  refine hcover.unique ⟨p + g, ⟨?_, ?_, rfl⟩, ?_⟩
  · rw [hmissing]
    exact ⟨⟨hp.1, Nat.zero_le _⟩, fun q hq => hp.2 hq.1⟩
  · rw [hmissing]
    refine ⟨⟨fun hmem => ?_, le_refl _⟩, fun e he => he.2⟩
    exact Nat.lt_irrefl _ (hwithin _ hmem).2
  · rw [hmissing]
    exact fun q hq => (hwithin q hq).2

/-- Nothing is needed of what is held. -/
theorem need_of_hit (h : Represents F w H) (hlen : 0 < len) (hfit : fpos + len < 2 ^ 64)
    (hhit : Demand.Hit H (fpos, len)) (g : Nat) : w.file.need fpos len g = [] := by
  have hgaps : Segments.gaps w.file.segments fpos (fpos + len) = [] := by
    apply List.eq_nil_iff_forall_not_mem.mpr
    intro t ht
    have hrun := Segments.isRun_of_mem_gaps h.tidy.separated ht
    have hmem := hrun.inside t.1 (le_refl _) hrun.lt
    rw [h.missing_eq] at hmem
    exact hmem.2 (hhit hmem.1)
  rw [SparseVirtualFile.need_eq h.tidy.separated (h.tidy.endsWithin _) hlen hfit, hgaps]
  split
  · exact SparseVirtualFile.minimiseSeekReads_eq_nil.mpr rfl
  · rfl

/-- What is needed is what is fetched for the demand, -/
theorem positions_need (h : Represents F w H) {d : Nat × Nat} {g : Nat} (hlen : 0 < d.2)
    (hfit : d.1 + d.2 + g < 2 ^ 64) : Greedy.positions (w.file.need d.1 d.2 g) = Demand.fetched g H d := by
  rcases Nat.lt_or_ge d.2 g with hg | hg
  · by_cases hhit : Demand.Hit H d
    · rw [h.need_of_hit hlen (by omega) hhit, Demand.fetched_of_hit hhit, Greedy.positions_nil]
    · obtain ⟨p, hp⟩ := Demand.exists_first hhit
      rw [h.need_greedy hlen hg hfit hp, Demand.fetched_of_lt hg hp, Greedy.positions_singleton]
  · rw [h.need_gaps hlen (by omega) hg, SparseVirtualFile.positions_gaps h.tidy.separated.placed, h.missing_eq,
      Demand.fetched_of_le hg]

/-- in pieces in order, each from the start of the demand on or from the end of what is held. -/
theorem need_pieces (h : Represents F w H) {d : Nat × Nat} {g : Nat} (hlen : 0 < d.2)
    (hfit : d.1 + d.2 + g < 2 ^ 64) :
    (w.file.need d.1 d.2 g).Pairwise (fun a b => a.1 + a.2 < b.1) ∧
      ∀ t ∈ w.file.need d.1 d.2 g, t.1 ∈ range d \ H ∧ 0 < t.2 ∧ t.2 ≤ max d.2 g ∧
        (t.1 = d.1 ∨ d.1 < t.1 ∧ Segments.Attached H t.1) := by
  have hattached : ∀ p ∈ range d, (∀ q ∈ range d \ H, q + 1 ≠ p) →
      p = d.1 ∨ d.1 < p ∧ Segments.Attached H p := by
    intro p hp hedge
    obtain ⟨hle, hlt⟩ := hp
    rcases hle.eq_or_lt with heq | hafter
    · exact .inl heq.symm
    · refine .inr ⟨hafter, .inr ⟨p - 1, ?_, by omega⟩⟩
      by_contra hnot
      exact hedge (p - 1) ⟨⟨by omega, by omega⟩, hnot⟩ (by omega)
  rcases Nat.lt_or_ge d.2 g with hg | hg
  · by_cases hhit : Demand.Hit H d
    · rw [h.need_of_hit hlen (by omega) hhit]
      exact ⟨.nil, nofun⟩
    · obtain ⟨p, hp⟩ := Demand.exists_first hhit
      rw [h.need_greedy hlen hg hfit hp]
      refine ⟨List.pairwise_singleton .., fun t ht => ?_⟩
      rw [List.mem_singleton.mp ht]
      refine ⟨hp.1, by simp only; omega, le_max_right .., hattached p hp.1.1 fun q hq heq => ?_⟩
      have := hp.2 hq
      omega
  · rw [h.need_gaps hlen (by omega) hg]
    refine ⟨h.tidy.separated.placed.gaps_sorted, fun t ht => ?_⟩
    have hrun := Segments.isRun_of_mem_gaps h.tidy.separated ht
    rw [h.missing_eq] at hrun
    have hlt := hrun.lt
    have hfirst := hrun.inside t.1 (le_refl _) hlt
    have hlast := hrun.inside (t.1 + t.2 - 1) (by omega) (by omega)
    have hstart := hfirst.1.1
    have hend := hlast.1.2
    simp only at hstart hend
    exact ⟨hfirst, by omega, by omega, hattached t.1 hfirst.1 fun q hq heq => hrun.left q heq hq⟩

/-- None of them ends past the `size_t` range, and there are no more of them than positions. -/
theorem need_within (h : Represents F w H) {d : Nat × Nat} {g : Nat} (hlen : 0 < d.2)
    (hfit : d.1 + d.2 + g < 2 ^ 64) :
    (∀ t ∈ w.file.need d.1 d.2 g, 0 < t.2 ∧ t.1 + t.2 < 2 ^ 64) ∧ (w.file.need d.1 d.2 g).length ≤ d.2 := by
  obtain ⟨hsorted, hpieces⟩ := h.need_pieces hlen hfit
  refine ⟨fun t ht => ?_, ?_⟩
  · obtain ⟨hmem, hpos, hlength, _⟩ := hpieces t ht
    obtain ⟨hlo, hhi⟩ := hmem.1
    refine ⟨hpos, ?_⟩
    rcases Nat.lt_or_ge d.2 g with hg | hg
    · omega
    · -- Without greed a piece is a gap, which ends with the demand.
      have hlast : t.1 + t.2 - 1 ∈ Greedy.positions (w.file.need d.1 d.2 g) := ⟨t, ht, by omega, by omega⟩
      rw [h.positions_need hlen hfit, Demand.fetched_of_le hg] at hlast
      have := hlast.1.2
      omega
  · have hsub : ((w.file.need d.1 d.2 g).map Prod.fst).toFinset ⊆ Finset.Ico d.1 (d.1 + d.2) := by
      intro p hp
      obtain ⟨t, ht, rfl⟩ := List.mem_map.mp (List.mem_toFinset.mp hp)
      exact Finset.mem_Ico.mpr (hpieces t ht).1.1
    have hnodup : ((w.file.need d.1 d.2 g).map Prod.fst).Nodup :=
      List.pairwise_map.mpr (hsorted.imp fun hlt heq => by omega)
    have hcard := Finset.card_le_card hsub
    rw [List.toFinset_card_of_nodup hnodup, List.length_map, Nat.card_Ico, Nat.add_sub_cancel_left] at hcard
    exact hcard

/-- Writing them, one after another, runs into no block if the demand is not stranded. -/
theorem along_need (h : Represents F w H) {d : Nat × Nat} {g : Nat} (hlen : 0 < d.2)
    (hfit : d.1 + d.2 + g < 2 ^ 64) (hstranded : ¬ Demand.Stranded g d H) :
    Run.Along Demand.take (fun t H => ¬ Segments.RunsInto H t.1 t.2) H (w.file.need d.1 d.2 g) := by
  obtain ⟨hsorted, hpieces⟩ := h.need_pieces hlen hfit
  refine Demand.along_of_not_stranded hstranded (fun t ht => (hpieces t ht).2.2.2)
    (fun t ht => (hpieces t ht).2.2.1) (hsorted.imp fun hlt => ?_)
  omega

end Represents
end Svfs
