import Svfs.Query.Agree
import Svfs.Write.Steps

/-! What the bounds checks of `has` and `read` let through.

Both add a length to a position, or to an offset into a block, and compare the sum with an
end. A sum that fits is compared as it should be; one that runs out of the `size_t` range
comes round to the end of the block again (`WrapsInto`), and then `has` says yes, and
`read` may copy what is not there (`bounds_exact_iff`). -/
namespace Svfs

namespace SparseVirtualFile

/-- Some block has all of the range, with its end taken as it is. -/
def InBlock (s : SparseVirtualFile) (fpos len : Nat) : Prop :=
  ∃ iter ∈ s.svf.entries, iter.1 ≤ fpos ∧ fpos + len ≤ iter.1 + iter.2.data.length

/-- The range runs out of the `size_t` range, and what is left of its end there is no more
than the end of the last block to begin at or before it. -/
def WrapsInto (s : SparseVirtualFile) (fpos len : Nat) : Prop :=
  ∃ iter, s.svf.LastAt fpos iter ∧ 2 ^ 64 ≤ fpos + len ∧
    fpos + len ≤ iter.1 + iter.2.data.length + 2 ^ 64

section Has
variable {s : SparseVirtualFile} {fpos len : Nat}

/-- `has` looks at the last block to begin at or before the position. -/
theorem has_iff_lastAt : s.has fpos len = true ↔
    ∃ iter, s.svf.LastAt fpos iter ∧ sizeAdd fpos len ≤ filePositionImmediatlyAfterBlock iter := by
  obtain ⟨pre, rest, hcut, hpre, hrest⟩ := s.svf.cut_at fpos
  rcases List.eq_nil_or_concat' pre with rfl | ⟨front, iter, rfl⟩
  · rw [List.nil_append] at hcut
    have hnone : ∀ iter ∈ s.svf.entries, fpos < iter.1 := fun iter hiter => hrest iter (hcut ▸ hiter)
    rw [has_of_none hnone]
    refine iff_of_false Bool.false_ne_true ?_
    rintro ⟨iter, hlast, _⟩
    exact absurd hlast.le (not_le.mpr (hnone iter hlast.mem))
  · rw [List.append_assoc, List.singleton_append] at hcut
    have hle := hpre iter (by simp)
    have hlast := OrderedMap.lastAt_of_cut hcut hle hrest
    rw [has_of_cut hcut hle hrest, decide_eq_true_eq]
    refine ⟨fun h => ⟨iter, hlast, h⟩, ?_⟩
    rintro ⟨t, ht, hend⟩
    rwa [hlast.unique ht] at hend

/-- The check of `has` lets a range pass that is in a block, or wraps into one. -/
theorem has_cases (hwithin : ∀ iter ∈ s.svf.entries, iter.1 + iter.2.data.length < 2 ^ 64)
    (hfpos : fpos < 2 ^ 64) (hlen : len < 2 ^ 64) (h : s.has fpos len = true) :
    s.InBlock fpos len ∨ s.WrapsInto fpos len := by
  obtain ⟨iter, hlast, hend⟩ := has_iff_lastAt.mp h
  rw [filePositionImmediatlyAfterBlock_of_lt (hwithin iter hlast.mem)] at hend
  rcases Nat.lt_or_ge (fpos + len) (2 ^ 64) with hfit | hwraps
  · rw [sizeAdd_of_lt hfit] at hend
    exact .inl ⟨iter, hlast.mem, hlast.le, hend⟩
  · rw [sizeAdd, Wrap.add_of_ge hfpos hlen hwraps, Nat.sub_le_iff_le_add] at hend
    exact .inr ⟨iter, hlast, hwraps, hend⟩

/-- What wraps into a block passes, -/
theorem WrapsInto.has (h : s.WrapsInto fpos len)
    (hwithin : ∀ iter ∈ s.svf.entries, iter.1 + iter.2.data.length < 2 ^ 64)
    (hfpos : fpos < 2 ^ 64) (hlen : len < 2 ^ 64) : s.has fpos len = true := by
  obtain ⟨iter, hlast, hwraps, hend⟩ := h
  refine has_iff_lastAt.mpr ⟨iter, hlast, ?_⟩
  rwa [filePositionImmediatlyAfterBlock_of_lt (hwithin iter hlast.mem), sizeAdd,
    Wrap.add_of_ge hfpos hlen hwraps, Nat.sub_le_iff_le_add]

/-- and no block has it. -/
theorem WrapsInto.not_inBlock (h : s.WrapsInto fpos len)
    (hwithin : ∀ iter ∈ s.svf.entries, iter.1 + iter.2.data.length < 2 ^ 64) : ¬ s.InBlock fpos len := by
  obtain ⟨_, _, hwraps, _⟩ := h
  rintro ⟨iter, hiter, _, hend⟩
  have := hwithin iter hiter
  omega

end Has
end SparseVirtualFile

section Read
variable {w : World} {now : Int} {fpos len : Nat}

/-- A read that returns copies from the last block to begin at or before its position, out
of that block or past it. -/
theorem World.read_returns_iff (hfpos : fpos < 2 ^ 64) : (w.read now fpos len).Returns ↔
    ∃ iter, w.file.svf.LastAt fpos iter ∧ sizeAdd (fpos - iter.1) len ≤ iter.2.data.length := by
  constructor
  · rintro ⟨data, hdata⟩
    rcases World.read_cases now fpos len w with ⟨_, m, heq⟩ | ⟨pre, iter, rest, hcut, hle, hrest, _⟩
    · rw [heq] at hdata
      cases hdata
    · have hlast := OrderedMap.lastAt_of_cut hcut hle hrest
      refine ⟨iter, hlast, not_lt.mp fun hover => ?_⟩
      rw [World.read_of_lastAt hlast hfpos, World.readFrom_throws hover] at hdata
      cases hdata
  · rintro ⟨iter, hlast, hfits⟩
    rw [World.read_of_lastAt hlast hfpos, World.readFrom_returns hfits]
    exact ⟨_, rfl⟩

/-- The check of `read` lets a range pass that is in a block, or wraps into one. -/
theorem World.read_returns_cases (hfpos : fpos < 2 ^ 64) (hlen : len < 2 ^ 64)
    (h : (w.read now fpos len).Returns) :
    w.file.InBlock fpos len ∨ w.file.WrapsInto fpos len := by
  obtain ⟨iter, hlast, hfits⟩ := (World.read_returns_iff hfpos).mp h
  have hle := hlast.le
  rcases Nat.lt_or_ge (fpos - iter.1 + len) (2 ^ 64) with hfit | hwraps
  · rw [sizeAdd_of_lt hfit] at hfits
    exact .inl ⟨iter, hlast.mem, hle, by omega⟩
  · have hoffset : fpos - iter.1 < 2 ^ 64 := (Nat.sub_le ..).trans_lt hfpos
    rw [sizeAdd, Wrap.add_of_ge hoffset hlen hwraps, Nat.sub_le_iff_le_add] at hfits
    exact .inr ⟨iter, hlast, by omega, by omega⟩

/-- A read copies from inside the block it reads, where the range does not wrap. -/
theorem World.sound_read (hfpos : fpos < 2 ^ 64) (hlen : len < 2 ^ 64) (h : ¬ w.file.WrapsInto fpos len) :
    SoundLog w (w.read now fpos len).world := by
  rcases World.read_cases now fpos len w with ⟨_, m, heq⟩ | ⟨pre, iter, rest, hcut, hle, hrest, _⟩
  · rw [heq]
    exact .refl w
  · have hlast := OrderedMap.lastAt_of_cut hcut hle hrest
    rw [World.read_of_lastAt hlast hfpos]
    rcases Nat.lt_or_ge iter.2.data.length (sizeAdd (fpos - iter.1) len) with hover | hfits
    · rw [World.readFrom_throws hover]
      exact .refl w
    · rw [World.readFrom_returns hfits]
      refine ⟨[_], rfl, fun e he => ?_⟩
      rw [List.mem_singleton.mp he]
      show fpos - iter.1 + len ≤ iter.2.data.length
      rcases Nat.lt_or_ge (fpos - iter.1 + len) (2 ^ 64) with hfit | hwraps
      · rwa [sizeAdd_of_lt hfit] at hfits
      · have hoffset : fpos - iter.1 < 2 ^ 64 := (Nat.sub_le ..).trans_lt hfpos
        rw [ge_iff_le, sizeAdd, Wrap.add_of_ge hoffset hlen hwraps, Nat.sub_le_iff_le_add] at hfits
        exact absurd ⟨iter, hlast, by omega, by omega⟩ h

end Read

/-- What the bounds checks are to let through: ranges that some block has all of, so that
nothing is copied from past a block. -/
structure BoundsExact (w : World) (now : Int) (fpos len : Nat) : Prop where
  within : w.file.has fpos len = true ∨ (w.read now fpos len).Returns → w.file.InBlock fpos len
  copies : SoundLog w (w.read now fpos len).world

/-- **The bounds checks are exact** unless the range wraps into the block. -/
theorem bounds_exact_iff (w : World) (now : Int) (fpos len : Nat)
    (hwithin : ∀ iter ∈ w.file.svf.entries, iter.1 + iter.2.data.length < 2 ^ 64)
    (hfpos : fpos < 2 ^ 64) (hlen : len < 2 ^ 64) :
    BoundsExact w now fpos len ↔ ¬ w.file.WrapsInto fpos len := by
  constructor
  · intro h hwraps
    exact hwraps.not_inBlock hwithin (h.within (.inl (hwraps.has hwithin hfpos hlen)))
  · intro h
    refine ⟨fun hpasses => ?_, World.sound_read hfpos hlen h⟩
    rcases hpasses with hhas | hread
    · exact (SparseVirtualFile.has_cases hwithin hfpos hlen hhas).resolve_right h
    · exact (World.read_returns_cases hfpos hlen hread).resolve_right h

/-- A file of ten bytes at its beginning. -/
def tenBytes : World := Run.run Command.step (World.new [] 0) [.write 0 0 (List.replicate 10 1)]

theorem within_tenBytes : ∀ iter ∈ tenBytes.file.svf.entries, iter.1 + iter.2.data.length < 2 ^ 64 := by
  decide

theorem bounds_exact_iff_inside : BoundsExact tenBytes 0 5 5 ↔ ¬ tenBytes.file.WrapsInto 5 5 :=
  bounds_exact_iff tenBytes 0 5 5 within_tenBytes (by simp) (by simp)

/-- A length just short of `2 ^ 64` brings the end round to the beginning. -/
theorem not_bounds_exact : ¬ ∀ (w : World) (now : Int) (fpos len : Nat), Tidy w.file → fpos < 2 ^ 64 →
    len < 2 ^ 64 → 1 ≤ len → BoundsExact w now fpos len := by
  intro h
  have htidy : Tidy tenBytes.file := ⟨⟨⟨by decide, by decide⟩, by decide⟩, within_tenBytes⟩
  have hexact := h tenBytes 0 5 (2 ^ 64 - 5) htidy (by simp) (by simp) (by simp)
  obtain ⟨iter, hiter, _, hend⟩ := hexact.within (.inl (by decide))
  have := within_tenBytes iter hiter
  omega

end Svfs
