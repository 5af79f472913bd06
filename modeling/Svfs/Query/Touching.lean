import Svfs.Query.Exact
import Svfs.Query.Range

/-! What the queries say of blocks that touch.

After a write that was rejected in the middle there may be blocks of which one begins where
the one before it ends. `need` and `need_many` are not misled by that (`need_exact_of_placed`,
`needMany_exact_of_placed`), but `has` and `read` look at one block only: they say yes of what
is held exactly where no block begins inside the range (`has_iff_of_placed`). -/
namespace Svfs
namespace SparseVirtualFile

/-- Some block begins inside the range. -/
def BeginsWithin (s : SparseVirtualFile) (fpos len : Nat) : Prop :=
  ∃ iter ∈ s.svf.entries, fpos < iter.1 ∧ iter.1 < fpos + len

variable {s : SparseVirtualFile} {fpos len greedyLength : Nat} {rs : List SeekRead} {iter t : Nat × Val}

/-- Of two blocks one ends before the other begins. -/
theorem cases_of_placed (hplaced : Segments.Placed s.segments) (hiter : iter ∈ s.svf.entries)
    (ht : t ∈ s.svf.entries) :
    t = iter ∨ t.1 + t.2.data.length ≤ iter.1 ∨ iter.1 + iter.2.data.length ≤ t.1 := by
  obtain ⟨pre, rest, hcut⟩ := List.append_of_mem hiter
  obtain ⟨hbefore, hafter⟩ := le_of_placed hplaced hcut
  rw [hcut] at ht
  rcases List.mem_append.mp ht with ht | ht
  · exact .inr (.inl (hbefore t ht))
  · exact (List.mem_cons.mp ht).imp_right fun ht => .inr (hafter t ht)

theorem held_ne_none_iff {p : Nat} :
    s.held p ≠ none ↔ ∃ iter ∈ s.svf.entries, iter.1 ≤ p ∧ p < iter.1 + iter.2.data.length := by
  constructor
  · intro hne
    obtain ⟨b, hb⟩ := Option.ne_none_iff_exists'.mp hne
    exact mem_of_held hb
  · rintro ⟨iter, hiter, hp⟩
    exact Segments.lookup_ne_none_iff.mpr ⟨_, mem_segments hiter, hp⟩

/-- One block has all of the range exactly where it is held and no block begins inside it. -/
theorem inBlock_iff_of_placed (hplaced : Segments.Placed s.segments) (hlen : 0 < len) :
    s.InBlock fpos len ↔ s.AllHeld fpos len ∧ ¬ s.BeginsWithin fpos len := by
  constructor
  · rintro ⟨iter, hiter, hle, hend⟩
    refine ⟨fun p hp hp' => held_ne_none_iff.mpr ⟨iter, hiter, by omega, by omega⟩, ?_⟩
    rintro ⟨t, ht, hlt, hin⟩
    rcases cases_of_placed hplaced hiter ht with rfl | hbefore | hafter
    · omega
    · omega
    · omega
  · rintro ⟨hall, hnone⟩
    obtain ⟨iter, hiter, hle, hlt⟩ := held_ne_none_iff.mp (hall fpos (le_refl _) (by omega))
    refine ⟨iter, hiter, hle, ?_⟩
    -- Were the end of the block inside the range, the block there would begin inside it.
    by_contra hshort
    obtain ⟨t, ht, hle', hlt'⟩ := held_ne_none_iff.mp (hall (iter.1 + iter.2.data.length) (by omega) (by omega))
    rcases cases_of_placed hplaced hiter ht with rfl | hbefore | hafter
    · omega
    · omega
    · exact hnone ⟨t, ht, by omega, by omega⟩

/-- **has** says yes of what one block has. -/
theorem has_iff_of_placed (hplaced : Segments.Placed s.segments)
    (hwithin : ∀ iter ∈ s.svf.entries, iter.1 + iter.2.data.length < 2 ^ 64) (hlen : 0 < len)
    (hfit : fpos + len < 2 ^ 64) :
    s.has fpos len = true ↔ s.AllHeld fpos len ∧ ¬ s.BeginsWithin fpos len := by
  rw [← inBlock_iff_of_placed hplaced hlen, has_iff_lastAt]
  constructor
  · rintro ⟨iter, hlast, hend⟩
    rw [sizeAdd_of_lt hfit, filePositionImmediatlyAfterBlock_of_lt (hwithin iter hlast.mem)] at hend
    exact ⟨iter, hlast.mem, hlast.le, hend⟩
  · rintro ⟨iter, hiter, hle, hend⟩
    refine ⟨iter, ⟨hiter, hle, fun t ht htle => ?_⟩, ?_⟩
    · rcases cases_of_placed hplaced hiter ht with rfl | hbefore | hafter
      · exact le_refl _
      · omega
      · omega
    · rwa [sizeAdd_of_lt hfit, filePositionImmediatlyAfterBlock_of_lt (hwithin iter hiter)]

/-- **need_many is exact** even so. -/
theorem needMany_exact_of_placed (hplaced : Segments.Placed s.segments) (hrs : ∀ r ∈ rs, 0 < r.2)
    (h : NoOverflow s rs greedyLength) :
    ManyExact s rs greedyLength (s.needMany rs greedyLength) := by
  have hcover := needMany_isCover_of_placed hplaced hrs h
  refine ⟨hcover.sorted, fun t ht => hcover.start_mem ht, fun t ht => hcover.le_length ht,
    fun p hp => hcover.covers hp, fun hzero p => ⟨?_, fun hp => hcover.covers hp⟩⟩
  rintro ⟨t, ht, hp, hp'⟩
  subst hzero
  exact hcover.inside ht hp hp'

end SparseVirtualFile

namespace World
variable {w : World}

/-- **read** returns what **has** says yes of. -/
theorem read_returns_iff_has (hwithin : ∀ iter ∈ w.file.svf.entries, iter.1 + iter.2.data.length < 2 ^ 64)
    (now : Int) {fpos len : Nat} (hlen : 0 < len) (hfit : fpos + len < 2 ^ 64) :
    (w.read now fpos len).Returns ↔ w.file.has fpos len = true := by
  rw [read_returns_iff (by omega), SparseVirtualFile.has_iff_lastAt]
  apply exists_congr
  intro iter
  apply and_congr_right
  intro hlast
  have hle := hlast.le
  rw [sizeAdd_of_lt hfit, sizeAdd_of_lt (by omega), filePositionImmediatlyAfterBlock_of_lt (hwithin iter hlast.mem)]
  omega

/-- What is asked of a file, and what it answers: of the positions that are missing the truth,
and of those that are there only if no block begins among them. -/
structure Truthful (w : World) : Prop where
  need : ∀ fpos len, 0 < len → fpos + len < 2 ^ 64 → w.file.NeedExact fpos len
  needMany : ∀ rs greedyLength, (∀ r ∈ rs, 0 < r.2) → w.file.NoOverflow rs greedyLength →
    w.file.ManyExact rs greedyLength (w.file.needMany rs greedyLength)
  has : ∀ fpos len, 0 < len → fpos + len < 2 ^ 64 →
    (w.file.has fpos len = true ↔ w.file.AllHeld fpos len ∧ ¬ w.file.BeginsWithin fpos len)
  read : ∀ now fpos len, 0 < len → fpos + len < 2 ^ 64 →
    ((w.read now fpos len).Returns ↔ w.file.has fpos len = true)

theorem truthful_of_placed (hplaced : Segments.Placed w.file.segments)
    (hwithin : ∀ iter ∈ w.file.svf.entries, iter.1 + iter.2.data.length < 2 ^ 64) : w.Truthful where
  need _ _ hlen hfit :=
    SparseVirtualFile.need_exact_of_placed hplaced (fun iter hiter _ => hwithin iter hiter) hlen hfit
  needMany _ _ hrs h := SparseVirtualFile.needMany_exact_of_placed hplaced hrs h
  has _ _ hlen hfit := SparseVirtualFile.has_iff_of_placed hplaced hwithin hlen hfit
  read now _ _ hlen hfit := read_returns_iff_has hwithin now hlen hfit

end World
end Svfs
