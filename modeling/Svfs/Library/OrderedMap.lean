import Mathlib.Data.List.Basic
import Mathlib.Data.List.Pairwise
import Mathlib.Data.List.TakeWhile
import Mathlib.Order.Defs.LinearOrder
import Mathlib.Order.Lattice

/-! Ordered maps with cursors.

An `OrderedMap` is an association list kept strictly increasing in its keys, the
contract of a balanced-tree map with the tree left out. A `Cursor` is a place
between two entries: what comes before it and what comes from it on, so that the
head of `after` is the entry an iterator designates and an empty `after` is the
end.

Every operation is described on a map already cut at the key it works at
(`entries = pre ++ (k, v) :: post`): the cut survives, and only the entry in the
middle moves. Loops that walk a map carry such a cut. -/

universe u v

/-- An association list strictly increasing in its keys. -/
structure OrderedMap (κ : Type u) (α : Type v) [LinearOrder κ] where
  entries : List (κ × α)
  sorted : entries.Pairwise fun a b => a.1 < b.1

namespace OrderedMap

/-- A place in a map: the entries before it, and those from it on. -/
structure Cursor (κ : Type u) (α : Type v) where
  before : List (κ × α)
  after : List (κ × α)

variable {κ : Type u} {α : Type v}

/-- One entry back; the first place stays where it is. -/
def Cursor.prev (c : Cursor κ α) : Cursor κ α :=
  match c.before.getLast? with
  | none => c
  | some e => ⟨c.before.dropLast, e :: c.after⟩

theorem Cursor.prev_nil (after : List (κ × α)) : (Cursor.mk [] after).prev = ⟨[], after⟩ := rfl

theorem Cursor.prev_append (pre : List (κ × α)) (e : κ × α) (after : List (κ × α)) :
    (Cursor.mk (pre ++ [e]) after).prev = ⟨pre, e :: after⟩ := by
  simp [Cursor.prev]

variable [LinearOrder κ]

@[ext] theorem ext {m n : OrderedMap κ α} (h : m.entries = n.entries) : m = n := by
  cases m
  cases n
  cases h
  rfl

def empty : OrderedMap κ α := ⟨[], .nil⟩

@[simp] theorem entries_empty : (empty : OrderedMap κ α).entries = [] := rfl

instance : Inhabited (OrderedMap κ α) := ⟨empty⟩

def isEmpty (m : OrderedMap κ α) : Bool := m.entries.isEmpty

def size (m : OrderedMap κ α) : Nat := m.entries.length

@[simp] theorem isEmpty_iff (m : OrderedMap κ α) : m.isEmpty = true ↔ m.entries = [] :=
  List.isEmpty_iff

theorem isEmpty_eq_false {m : OrderedMap κ α} (h : m.entries ≠ []) : m.isEmpty = false :=
  List.isEmpty_eq_false_iff.mpr h

theorem isEmpty_of_cut {m : OrderedMap κ α} {pre rest : List (κ × α)} {e : κ × α}
    (h : m.entries = pre ++ e :: rest) : m.isEmpty = false :=
  isEmpty_eq_false (by simp [h])

def find? (m : OrderedMap κ α) (k : κ) : Option α :=
  (m.entries.find? fun e => e.1 == k).map Prod.snd

/-- The first place whose key is above `k`. -/
def upperBound (m : OrderedMap κ α) (k : κ) : Cursor κ α :=
  ⟨m.entries.takeWhile fun e => e.1 ≤ k, m.entries.dropWhile fun e => e.1 ≤ k⟩

/-- The first place whose key is not below `k`. -/
def lowerBound (m : OrderedMap κ α) (k : κ) : Cursor κ α :=
  ⟨m.entries.takeWhile fun e => e.1 < k, m.entries.dropWhile fun e => e.1 < k⟩

/-- Apply `f` to the value at `k`, if there is one. -/
def modify (m : OrderedMap κ α) (k : κ) (f : α → α) : OrderedMap κ α where
  entries := m.entries.map fun e => if e.1 = k then (e.1, f e.2) else e
  sorted := by
    refine List.pairwise_map.mpr (m.sorted.imp fun {a b} h => ?_)
    split <;> split <;> exact h

def erase (m : OrderedMap κ α) (k : κ) : OrderedMap κ α where
  entries := m.entries.filter fun e => e.1 ≠ k
  sorted := m.sorted.filter _

/-! ### Cuts -/

theorem takeWhile_cut {β : Type*} {p : β → Bool} {l pre post : List β} (h : l = pre ++ post)
    (hpre : ∀ x ∈ pre, p x = true) (hpost : ∀ x ∈ post, p x = false) : l.takeWhile p = pre := by
  rw [h, List.takeWhile_append_of_pos hpre]
  cases post with
  | nil => simp
  | cons x rest => simp [hpost x (List.mem_cons_self ..)]

theorem dropWhile_cut {β : Type*} {p : β → Bool} {l pre post : List β} (h : l = pre ++ post)
    (hpre : ∀ x ∈ pre, p x = true) (hpost : ∀ x ∈ post, p x = false) : l.dropWhile p = post := by
  have hsplit : l.takeWhile p ++ l.dropWhile p = pre ++ post :=
    List.takeWhile_append_dropWhile.trans h
  rw [takeWhile_cut h hpre hpost] at hsplit
  exact List.append_cancel_left hsplit

/-- What a sorted list says about the two sides of an entry. -/
theorem cut_lt {l pre post : List (κ × α)} {e : κ × α}
    (hs : l.Pairwise fun a b => a.1 < b.1) (h : l = pre ++ e :: post) :
    (∀ x ∈ pre, x.1 < e.1) ∧ (∀ x ∈ post, e.1 < x.1) := by
  subst h
  obtain ⟨_, hpost, hcross⟩ := List.pairwise_append.mp hs
  exact ⟨fun x hx => hcross x hx e (List.mem_cons_self ..), fun x hx => List.rel_of_pairwise_cons hpost hx⟩

theorem cut_key_ne {l pre post : List (κ × α)} {e : κ × α}
    (hs : l.Pairwise fun a b => a.1 < b.1) (h : l = pre ++ e :: post) :
    (∀ x ∈ pre, x.1 ≠ e.1) ∧ (∀ x ∈ post, x.1 ≠ e.1) := by
  obtain ⟨hpre, hpost⟩ := cut_lt hs h
  exact ⟨fun x hx => (hpre x hx).ne, fun x hx => (hpost x hx).ne'⟩

section Cut
variable {m : OrderedMap κ α} {pre post : List (κ × α)} {k : κ} {a : α}

theorem find?_cut (h : m.entries = pre ++ (k, a) :: post) : m.find? k = some a := by
  have hne := (cut_key_ne m.sorted h).1
  have hpre : pre.find? (fun e => e.1 == k) = none := by
    rw [List.find?_eq_none]
    intro x hx
    simpa using hne x hx
  simp [find?, h, List.find?_append, hpre]

/-- A key that is found cuts the entries. -/
theorem cut_of_find? (h : m.find? k = some a) :
    ∃ pre post, m.entries = pre ++ (k, a) :: post := by
  simp only [find?, Option.map_eq_some_iff] at h
  obtain ⟨⟨k', a'⟩, hfind, rfl⟩ := h
  have hk : k' = k := by simpa using List.find?_some hfind
  subst hk
  obtain ⟨pre, post, h⟩ := List.append_of_mem (List.mem_of_find?_eq_some hfind)
  exact ⟨pre, post, h⟩

theorem find?_eq_none_iff : m.find? k = none ↔ ∀ e ∈ m.entries, e.1 ≠ k := by
  simp [find?, List.find?_eq_none]

theorem mem_of_find? (h : m.find? k = some a) : (k, a) ∈ m.entries := by
  obtain ⟨pre, post, h⟩ := cut_of_find? h
  simp [h]

theorem find?_of_mem (h : (k, a) ∈ m.entries) : m.find? k = some a := by
  obtain ⟨pre, post, h⟩ := List.append_of_mem h
  exact find?_cut h

theorem entries_modify (h : m.entries = pre ++ (k, a) :: post) (f : α → α) :
    (m.modify k f).entries = pre ++ (k, f a) :: post := by
  obtain ⟨hpre, hpost⟩ := cut_key_ne m.sorted h
  have hmap : ∀ l : List (κ × α), (∀ x ∈ l, x.1 ≠ k) →
      l.map (fun e => if e.1 = k then (e.1, f e.2) else e) = l := by
    intro l hl
    exact (List.map_congr_left fun x hx => if_neg (hl x hx)).trans (List.map_id' l)
  simp only [modify, h, List.map_append, List.map_cons, if_true, hmap pre hpre, hmap post hpost]

theorem entries_erase (h : m.entries = pre ++ (k, a) :: post) :
    (m.erase k).entries = pre ++ post := by
  obtain ⟨hpre, hpost⟩ := cut_key_ne m.sorted h
  have hfilter : ∀ l : List (κ × α), (∀ x ∈ l, x.1 ≠ k) →
      l.filter (fun e => decide (e.1 ≠ k)) = l := by
    intro l hl
    exact List.filter_eq_self.mpr fun x hx => by simpa using hl x hx
  simp only [erase, h, List.filter_append, hfilter pre hpre]
  rw [List.filter_cons_of_neg (by simp), hfilter post hpost]

end Cut

/-! ### Where the bounds cut -/

theorem upperBound_cut {m : OrderedMap κ α} {pre post : List (κ × α)} {k : κ}
    (h : m.entries = pre ++ post) (hpre : ∀ e ∈ pre, e.1 ≤ k) (hpost : ∀ e ∈ post, k < e.1) :
    m.upperBound k = ⟨pre, post⟩ := by
  have hp : ∀ e ∈ pre, decide (e.1 ≤ k) = true := fun e he => by simpa using hpre e he
  have hq : ∀ e ∈ post, decide (e.1 ≤ k) = false := fun e he => by simpa using hpost e he
  simp only [upperBound, takeWhile_cut h hp hq, dropWhile_cut h hp hq]

theorem lowerBound_cut {m : OrderedMap κ α} {pre post : List (κ × α)} {k : κ}
    (h : m.entries = pre ++ post) (hpre : ∀ e ∈ pre, e.1 < k) (hpost : ∀ e ∈ post, k ≤ e.1) :
    m.lowerBound k = ⟨pre, post⟩ := by
  have hp : ∀ e ∈ pre, decide (e.1 < k) = true := fun e he => by simpa using hpre e he
  have hq : ∀ e ∈ post, decide (e.1 < k) = false := fun e he => by simpa using hpost e he
  simp only [lowerBound, takeWhile_cut h hp hq, dropWhile_cut h hp hq]

/-- With all keys past `k` both searches stop at the first. -/
theorem upperBound_first {m : OrderedMap κ α} {k : κ} (h : ∀ e ∈ m.entries, k < e.1) :
    m.upperBound k = ⟨[], m.entries⟩ :=
  upperBound_cut (List.nil_append _).symm nofun h

theorem lowerBound_first {m : OrderedMap κ α} {k : κ} (h : ∀ e ∈ m.entries, k ≤ e.1) :
    m.lowerBound k = ⟨[], m.entries⟩ :=
  lowerBound_cut (List.nil_append _).symm nofun h

/-- What lies before the first key lies before them all. -/
theorem lt_of_first {m : OrderedMap κ α} {e : κ × α} {rest : List (κ × α)} {k : κ}
    (h : m.entries = e :: rest) (hk : k < e.1) : ∀ t ∈ e :: rest, k < t.1 := by
  intro t ht
  have hsorted := m.sorted
  rw [h] at hsorted
  rcases List.mem_cons.mp ht with rfl | ht
  · exact hk
  · exact hk.trans (List.rel_of_pairwise_cons hsorted ht)

/-- What lies past a key lies past those before it. -/
theorem lt_of_last {m : OrderedMap κ α} {pre post : List (κ × α)} {e : κ × α} {k : κ}
    (h : m.entries = pre ++ e :: post) (hk : e.1 < k) : ∀ t ∈ pre ++ [e], t.1 < k :=
  List.forall_mem_append.mpr
    ⟨fun t ht => ((cut_lt m.sorted h).1 t ht).trans hk, List.forall_mem_singleton.mpr hk⟩

/-- A predicate that, once false, stays false cuts a list in two. -/
theorem cut_of_pairwise {β : Type*} {r : β → β → Prop} {p : β → Prop} [DecidablePred p] {l : List β}
    (hl : l.Pairwise r) (hp : ∀ a b, r a b → p b → p a) :
    ∃ pre post, l = pre ++ post ∧ (∀ x ∈ pre, p x) ∧ ∀ x ∈ post, ¬ p x := by
  induction l with
  | nil => exact ⟨[], [], rfl, by simp, by simp⟩
  | cons x rest ih =>
    by_cases hx : p x
    · obtain ⟨pre, post, h, hpre, hpost⟩ := ih hl.of_cons
      refine ⟨x :: pre, post, by rw [h, List.cons_append], ?_, hpost⟩
      intro y hy
      rcases List.mem_cons.mp hy with rfl | hy
      · exact hx
      · exact hpre y hy
    · refine ⟨[], x :: rest, rfl, by simp, ?_⟩
      intro y hy
      rcases List.mem_cons.mp hy with rfl | hy
      · exact hx
      · exact fun h => hx (hp x y (List.rel_of_pairwise_cons hl hy) h)

/-- Every key cuts the entries: those at or below it, and those above. -/
theorem cut_at (m : OrderedMap κ α) (k : κ) :
    ∃ pre post, m.entries = pre ++ post ∧ (∀ e ∈ pre, e.1 ≤ k) ∧ ∀ e ∈ post, k < e.1 := by
  obtain ⟨pre, post, h, hpre, hpost⟩ :=
    cut_of_pairwise (p := fun e => e.1 ≤ k) m.sorted fun a b hab hb => hab.le.trans hb
  exact ⟨pre, post, h, hpre, fun e he => not_le.mp (hpost e he)⟩

/-- The last entry at or below a key. -/
structure LastAt (m : OrderedMap κ α) (k : κ) (e : κ × α) : Prop where
  mem : e ∈ m.entries
  le : e.1 ≤ k
  last : ∀ t ∈ m.entries, t.1 ≤ k → t.1 ≤ e.1

section LastAt
variable {m : OrderedMap κ α} {k : κ} {e t : κ × α}

theorem LastAt.cut (h : m.LastAt k e) :
    ∃ pre post, m.entries = pre ++ e :: post ∧ ∀ x ∈ post, k < x.1 := by
  obtain ⟨pre, post, hcut⟩ := List.append_of_mem h.mem
  refine ⟨pre, post, hcut, fun x hx => lt_of_not_ge fun hle => ?_⟩
  have hlt := (cut_lt m.sorted hcut).2 x hx
  exact absurd (h.last x (by simp [hcut, hx]) hle) (not_le.mpr hlt)

theorem lastAt_of_cut {pre post : List (κ × α)} (hcut : m.entries = pre ++ e :: post) (hle : e.1 ≤ k)
    (hpost : ∀ x ∈ post, k < x.1) : m.LastAt k e := by
  refine ⟨by simp [hcut], hle, fun x hx hxle => ?_⟩
  rw [hcut] at hx
  rcases List.mem_append.mp hx with hx | hx
  · exact ((cut_lt m.sorted hcut).1 x hx).le
  · rcases List.mem_cons.mp hx with rfl | hx
    · exact le_refl _
    · exact absurd hxle (not_le.mpr (hpost x hx))

theorem LastAt.unique (h : m.LastAt k e) (ht : m.LastAt k t) : t = e := by
  have hkey : t.1 = e.1 := le_antisymm (h.last t ht.mem ht.le) (ht.last e h.mem h.le)
  have hvalue := find?_of_mem ht.mem
  rw [hkey, find?_of_mem h.mem] at hvalue
  exact Prod.ext hkey (Option.some.inj hvalue).symm

end LastAt

/-! ### Insertion -/

/-- Where a key that is absent goes. -/
theorem cut_of_absent {m : OrderedMap κ α} {k : κ} (h : m.find? k = none) :
    m.entries = (m.lowerBound k).before ++ (m.lowerBound k).after ∧
      (∀ e ∈ (m.lowerBound k).before, e.1 < k) ∧ ∀ e ∈ (m.lowerBound k).after, k < e.1 := by
  obtain ⟨pre, post, hm, hpre, hpost⟩ :=
    cut_of_pairwise (p := fun e => e.1 < k) m.sorted fun a b hab hb => hab.trans hb
  rw [lowerBound_cut hm hpre fun e he => not_lt.mp (hpost e he)]
  refine ⟨hm, hpre, fun e he => ?_⟩
  have hne := find?_eq_none_iff.mp h e (by rw [hm]; exact List.mem_append_right _ he)
  exact lt_of_le_of_ne (not_lt.mp (hpost e he)) hne.symm

/-- Insert `a` at `k`, unless the key is there already. -/
def insert (m : OrderedMap κ α) (k : κ) (a : α) : OrderedMap κ α :=
  if h : m.find? k = none then
    { entries := (m.lowerBound k).before ++ (k, a) :: (m.lowerBound k).after
      sorted := by
        obtain ⟨hsplit, hbefore, hafter⟩ := cut_of_absent h
        obtain ⟨hpre, hpost, hcross⟩ := List.pairwise_append.mp (hsplit ▸ m.sorted)
        refine List.pairwise_append.mpr ⟨hpre, List.pairwise_cons.mpr ⟨hafter, hpost⟩, ?_⟩
        intro x hx y hy
        rcases List.mem_cons.mp hy with rfl | hy
        · exact hbefore x hx
        · exact hcross x hx y hy }
  else m

/-- Insert `a` at `k`, over what the key may hold already. -/
def assign (m : OrderedMap κ α) (k : κ) (a : α) : OrderedMap κ α :=
  (m.modify k fun _ => a).insert k a

theorem insert_of_find? {m : OrderedMap κ α} {k : κ} {a b : α} (h : m.find? k = some b) :
    m.insert k a = m := by
  simp [insert, h]

/-- A map that is cut around the key does not have it. -/
theorem find?_of_cut {m : OrderedMap κ α} {pre post : List (κ × α)} {k : κ} (h : m.entries = pre ++ post)
    (hpre : ∀ e ∈ pre, e.1 < k) (hpost : ∀ e ∈ post, k < e.1) : m.find? k = none := by
  rw [find?_eq_none_iff, h]
  intro e he
  rcases List.mem_append.mp he with he | he
  · exact (hpre e he).ne
  · exact (hpost e he).ne'

theorem find?_of_first {m : OrderedMap κ α} {e : κ × α} {rest : List (κ × α)} {k : κ}
    (h : m.entries = e :: rest) (hk : k < e.1) : m.find? k = none := by
  rw [find?_eq_none_iff, h]
  exact fun t ht => (lt_of_first h hk t ht).ne'

/-- Inserting into a map cut around the key puts the entry in the cut. -/
theorem entries_insert {m : OrderedMap κ α} {pre post : List (κ × α)} {k : κ}
    (h : m.entries = pre ++ post) (hpre : ∀ e ∈ pre, e.1 < k) (hpost : ∀ e ∈ post, k < e.1)
    (a : α) : (m.insert k a).entries = pre ++ (k, a) :: post := by
  have hnone := find?_of_cut h hpre hpost
  have hcut := lowerBound_cut h hpre fun e he => (hpost e he).le
  simp [insert, hnone, hcut]

/-- An insertion that adds an entry found the key absent. -/
theorem size_insert_eq_iff (m : OrderedMap κ α) (k : κ) (a : α) :
    (m.insert k a).size = 1 + m.size ↔ m.find? k = none := by
  cases h : m.find? k with
  | some b =>
    rw [insert_of_find? h]
    simp
  | none =>
    simp only [insert, h, dif_pos, size, iff_true]
    rw [(cut_of_absent h).1]
    simp only [List.length_append, List.length_cons]
    omega

/-! ### Looking up after a change -/

theorem find?_eq_some_iff {m : OrderedMap κ α} {k : κ} {a : α} :
    m.find? k = some a ↔ (k, a) ∈ m.entries := ⟨mem_of_find?, find?_of_mem⟩

theorem mem_modify {m : OrderedMap κ α} {k j : κ} {f : α → α} {a : α} :
    (j, a) ∈ (m.modify k f).entries ↔
      (j = k ∧ ∃ b, (k, b) ∈ m.entries ∧ f b = a) ∨ (j ≠ k ∧ (j, a) ∈ m.entries) := by
  simp only [modify, List.mem_map]
  constructor
  · rintro ⟨⟨i, b⟩, he, heq⟩
    by_cases hi : i = k
    · rw [if_pos hi] at heq
      obtain ⟨rfl, rfl⟩ := Prod.mk.inj heq
      exact .inl ⟨hi, b, hi ▸ he, rfl⟩
    · rw [if_neg hi] at heq
      obtain ⟨rfl, rfl⟩ := Prod.mk.inj heq
      exact .inr ⟨hi, he⟩
  · rintro (⟨rfl, b, he, rfl⟩ | ⟨hne, he⟩)
    · exact ⟨_, he, if_pos rfl⟩
    · exact ⟨_, he, if_neg hne⟩

theorem mem_erase {m : OrderedMap κ α} {k : κ} {e : κ × α} :
    e ∈ (m.erase k).entries ↔ e ∈ m.entries ∧ e.1 ≠ k := by
  simp [erase]

/-- Without the entry at `k`. -/
theorem entries_erase_of_mem [DecidableEq α] {m : OrderedMap κ α} {k : κ} {a : α} (h : (k, a) ∈ m.entries) :
    (m.erase k).entries = m.entries.filter (· ≠ (k, a)) := by
  refine List.filter_congr fun e he => ?_
  by_cases hk : e.1 = k
  · have hsame : e = (k, a) := by
      have hfind := find?_of_mem (show (k, e.2) ∈ m.entries from hk ▸ he)
      exact Prod.ext hk (Option.some.inj (hfind.symm.trans (find?_of_mem h)))
    simp [hsame]
  · have hne : e ≠ (k, a) := fun heq => hk (congrArg Prod.fst heq)
    simp [hk, hne]

/-- The entries of a map are known by what they are: their keys give their order. -/
theorem entries_eq_of_mem_iff {m : OrderedMap κ α} {l : List (κ × α)} (hl : l.Pairwise fun a b => a.1 < b.1)
    (h : ∀ e, e ∈ m.entries ↔ e ∈ l) : m.entries = l := by
  have hnodup : ∀ {l : List (κ × α)}, l.Pairwise (fun a b => a.1 < b.1) → l.Nodup := fun hsorted =>
    hsorted.imp fun hlt heq => hlt.ne (congrArg Prod.fst heq)
  refine List.Perm.eq_of_pairwise (fun a b _ _ hab hba => absurd hab hba.asymm) m.sorted hl ?_
  exact (List.perm_ext_iff_of_nodup (hnodup m.sorted) (hnodup hl)).mpr h

theorem find?_erase_of_ne {m : OrderedMap κ α} {k j : κ} (h : j ≠ k) : (m.erase k).find? j = m.find? j := by
  apply Option.ext
  intro a
  rw [find?_eq_some_iff, find?_eq_some_iff, mem_erase]
  simp [h]

theorem size_erase_of_find? {m : OrderedMap κ α} {k : κ} {a : α} (h : m.find? k = some a) :
    (m.erase k).size = m.size - 1 := by
  obtain ⟨pre, post, hcut⟩ := cut_of_find? h
  simp only [size, entries_erase hcut, hcut, List.length_append, List.length_cons]
  omega

theorem mem_insert_of_absent {m : OrderedMap κ α} {k : κ} (h : m.find? k = none) {a : α} {e : κ × α} :
    e ∈ (m.insert k a).entries ↔ e = (k, a) ∨ e ∈ m.entries := by
  obtain ⟨hsplit, hbefore, hafter⟩ := cut_of_absent h
  rw [entries_insert hsplit hbefore hafter]
  conv_rhs => rw [hsplit]
  simp only [List.mem_append, List.mem_cons]
  tauto

theorem find?_assign (m : OrderedMap κ α) (k j : κ) (a : α) :
    (m.assign k a).find? j = if j = k then some a else m.find? j := by
  have hmem : ∀ b, (j, b) ∈ (m.assign k a).entries ↔
      (j = k ∧ b = a) ∨ (j ≠ k ∧ (j, b) ∈ m.entries) := by
    intro b
    cases hk : (m.modify k fun _ => a).find? k with
    | none =>
      have habsent : ∀ b, (k, b) ∉ m.entries := by
        intro b hb
        exact find?_eq_none_iff.mp hk (k, a) (mem_modify.mpr (.inl ⟨rfl, b, hb, rfl⟩)) rfl
      rw [assign, mem_insert_of_absent hk, mem_modify]
      by_cases hj : j = k
      · subst hj
        simp [habsent]
      · simp [hj]
    | some c =>
      have hc : c = a := by
        rcases mem_modify.mp (mem_of_find? hk) with ⟨_, b, _, rfl⟩ | ⟨hne, _⟩
        · rfl
        · exact absurd rfl hne
      obtain ⟨b', hb'⟩ : ∃ b', (k, b') ∈ m.entries := by
        rcases mem_modify.mp (mem_of_find? hk) with ⟨_, b, hb, _⟩ | ⟨hne, _⟩
        · exact ⟨b, hb⟩
        · exact absurd rfl hne
      rw [assign, insert_of_find? hk, mem_modify]
      constructor
      · rintro (⟨hj, _, _, rfl⟩ | h)
        · exact .inl ⟨hj, rfl⟩
        · exact .inr h
      · rintro (⟨hj, rfl⟩ | h)
        · exact .inl ⟨hj, b', hb', rfl⟩
        · exact .inr h
  split
  · rename_i hj
    exact find?_eq_some_iff.mpr ((hmem a).mpr (.inl ⟨hj, rfl⟩))
  · rename_i hj
    apply Option.ext
    intro b
    rw [find?_eq_some_iff, find?_eq_some_iff, hmem b]
    simp [hj]

theorem size_modify (m : OrderedMap κ α) (k : κ) (f : α → α) : (m.modify k f).size = m.size := by
  simp [size, modify]

theorem size_assign_of_absent {m : OrderedMap κ α} {k : κ} (h : m.find? k = none) (a : α) :
    (m.assign k a).size = 1 + m.size := by
  rw [assign, ← size_modify m k fun _ => a, size_insert_eq_iff, find?_eq_none_iff]
  rintro ⟨j, b⟩ he rfl
  rcases mem_modify.mp he with ⟨_, c, hc, _⟩ | ⟨hne, _⟩
  · exact find?_eq_none_iff.mp h (j, c) hc rfl
  · exact hne rfl

/-! ### Assigning one after another -/

section Fold
variable {β : Type*} {key : β → κ} {val : β → α}

theorem find?_foldl_assign_of_absent {l : List β} {k : κ} (h : ∀ b ∈ l, key b ≠ k)
    (m : OrderedMap κ α) : (l.foldl (fun m b => m.assign (key b) (val b)) m).find? k = m.find? k := by
  induction l generalizing m with
  | nil => rfl
  | cons b rest ih =>
    rw [List.foldl_cons, ih (fun c hc => h c (List.mem_cons_of_mem _ hc)), find?_assign,
      if_neg (h b (List.mem_cons_self ..)).symm]

/-- Under a key used once stands the value assigned to it. -/
theorem find?_foldl_assign {l : List β} (h : l.Pairwise fun a b => key a ≠ key b) {b : β} (hb : b ∈ l)
    (m : OrderedMap κ α) :
    (l.foldl (fun m b => m.assign (key b) (val b)) m).find? (key b) = some (val b) := by
  induction l generalizing m with
  | nil => cases hb
  | cons c rest ih =>
    rw [List.foldl_cons]
    rcases List.mem_cons.mp hb with rfl | hb
    · rw [find?_foldl_assign_of_absent fun c hc => (List.rel_of_pairwise_cons h hc).symm, find?_assign,
        if_pos rfl]
    · exact ih h.of_cons hb _

theorem size_foldl_assign {l : List β} (h : l.Pairwise fun a b => key a ≠ key b)
    {m : OrderedMap κ α} (hm : ∀ b ∈ l, m.find? (key b) = none) :
    (l.foldl (fun m b => m.assign (key b) (val b)) m).size = l.length + m.size := by
  induction l generalizing m with
  | nil => simp
  | cons c rest ih =>
    have hrest : ∀ b ∈ rest, (m.assign (key c) (val c)).find? (key b) = none := by
      intro b hb
      rw [find?_assign, if_neg (List.rel_of_pairwise_cons h hb).symm]
      exact hm b (List.mem_cons_of_mem _ hb)
    rw [List.foldl_cons, ih h.of_cons hrest, size_assign_of_absent (hm c (List.mem_cons_self ..)),
      List.length_cons]
    omega

/-- Nothing stands in the map that was not there or was assigned. -/
theorem mem_foldl_assign {l : List β} {m : OrderedMap κ α} {e : κ × α}
    (h : e ∈ (l.foldl (fun m b => m.assign (key b) (val b)) m).entries) :
    e ∈ m.entries ∨ ∃ b ∈ l, (key b, val b) = e := by
  induction l generalizing m with
  | nil => exact .inl h
  | cons c rest ih =>
    rcases ih h with hmem | ⟨b, hb, rfl⟩
    · have hfind := find?_of_mem (k := e.1) (a := e.2) hmem
      rw [find?_assign] at hfind
      split at hfind
      · rename_i heq
        exact .inr ⟨c, List.mem_cons_self .., Prod.ext heq.symm (Option.some.inj hfind)⟩
      · exact .inl (mem_of_find? hfind)
    · exact .inr ⟨b, List.mem_cons_of_mem _ hb, rfl⟩

end Fold

/-! ### Stepping back -/

/-- Stepping back from the upper bound lands on the last entry at or below the
key; with none there, on the first entry of the map. -/
theorem prev_upperBound (m : OrderedMap κ α) (k : κ) :
    ((m.upperBound k).prev = ⟨[], m.entries⟩ ∧ ∀ e ∈ m.entries, k < e.1) ∨
      ∃ pre e post, m.entries = pre ++ e :: post ∧ e.1 ≤ k ∧ (∀ x ∈ post, k < x.1) ∧
        (m.upperBound k).prev = ⟨pre, e :: post⟩ := by
  obtain ⟨pre, post, h, hpre, hpost⟩ := m.cut_at k
  have hcut := upperBound_cut h hpre hpost
  rcases List.eq_nil_or_concat' pre with rfl | ⟨front, e, rfl⟩
  · left
    rw [List.nil_append] at h
    rw [hcut, Cursor.prev_nil, h]
    exact ⟨rfl, hpost⟩
  · right
    refine ⟨front, e, post, by rw [h, List.append_assoc, List.singleton_append],
      hpre e (by simp), hpost, ?_⟩
    rw [hcut, Cursor.prev_append]

/-! ### A view of the values

What the searches find and the changes leave does not depend on more of the values than
is put in or taken out. -/

section MapVal
variable {β : Type*} (f : α → β)

/-- The same keys, and under each of them what `f` sees of its value. -/
def mapVal (m : OrderedMap κ α) : OrderedMap κ β where
  entries := m.entries.map fun e => (e.1, f e.2)
  sorted := List.pairwise_map.mpr m.sorted

omit [LinearOrder κ] in
/-- The same place. -/
def Cursor.mapVal (c : Cursor κ α) : Cursor κ β :=
  ⟨c.before.map fun e => (e.1, f e.2), c.after.map fun e => (e.1, f e.2)⟩

variable (m : OrderedMap κ α) (k : κ)

theorem size_mapVal : (m.mapVal f).size = m.size := List.length_map ..

theorem find?_mapVal : (m.mapVal f).find? k = (m.find? k).map f := by
  simp only [find?, mapVal, List.find?_map, Option.map_map]
  rfl

theorem lowerBound_mapVal : (m.mapVal f).lowerBound k = (m.lowerBound k).mapVal f := by
  simp only [lowerBound, mapVal, Cursor.mapVal, List.takeWhile_map, List.dropWhile_map]
  rfl

theorem upperBound_mapVal : (m.mapVal f).upperBound k = (m.upperBound k).mapVal f := by
  simp only [upperBound, mapVal, Cursor.mapVal, List.takeWhile_map, List.dropWhile_map]
  rfl

omit [LinearOrder κ] in
theorem Cursor.prev_mapVal (c : Cursor κ α) : (c.mapVal f).prev = c.prev.mapVal f := by
  obtain ⟨before, after⟩ := c
  rcases List.eq_nil_or_concat' before with rfl | ⟨front, e, rfl⟩
  · rfl
  · rw [Cursor.prev_append]
    simp only [Cursor.mapVal, List.map_append, List.map_cons, List.map_nil, Cursor.prev_append]

theorem erase_mapVal : (m.erase k).mapVal f = (m.mapVal f).erase k := by
  apply OrderedMap.ext
  simp only [erase, mapVal, List.filter_map]
  rfl

theorem insert_mapVal (a : α) : (m.insert k a).mapVal f = (m.mapVal f).insert k (f a) := by
  have hfind := find?_mapVal f m k
  cases hm : m.find? k with
  | some b =>
    rw [hm] at hfind
    rw [insert_of_find? hm, insert_of_find? hfind]
  | none =>
    obtain ⟨hcut, hpre, hpost⟩ := cut_of_absent hm
    have hcut' : (m.mapVal f).entries = (m.lowerBound k).before.map (fun e => (e.1, f e.2)) ++
        (m.lowerBound k).after.map fun e => (e.1, f e.2) := by
      rw [← List.map_append, ← hcut]
      rfl
    apply OrderedMap.ext
    rw [entries_insert hcut' ?_ ?_ (f a)]
    · simp only [mapVal, entries_insert hcut hpre hpost, List.map_append, List.map_cons]
    · intro e he
      obtain ⟨old, hold, rfl⟩ := List.mem_map.mp he
      exact hpre old hold
    · intro e he
      obtain ⟨old, hold, rfl⟩ := List.mem_map.mp he
      exact hpost old hold

variable {f}

/-- A change of the values that shows only as another change of what is seen. -/
theorem modify_mapVal {g : α → α} {g' : β → β} (h : ∀ a, f (g a) = g' (f a)) :
    (m.modify k g).mapVal f = (m.mapVal f).modify k g' := by
  apply OrderedMap.ext
  simp only [modify, mapVal, List.map_map]
  apply List.map_congr_left
  intro e _
  simp only [Function.comp]
  split
  · rw [h]
  · rfl

/-- One that does not show. -/
theorem modify_mapVal_same {g : α → α} (h : ∀ a, f (g a) = f a) : (m.modify k g).mapVal f = m.mapVal f := by
  apply OrderedMap.ext
  simp only [modify, mapVal, List.map_map]
  apply List.map_congr_left
  intro e _
  simp only [Function.comp]
  split
  · rw [h]
  · rfl

end MapVal

theorem erase_modify (m : OrderedMap κ α) (k : κ) (g : α → α) : (m.modify k g).erase k = m.erase k := by
  apply OrderedMap.ext
  simp only [erase, modify, List.filter_map]
  have hkeys : ∀ e : κ × α, (if e.1 = k then (e.1, g e.2) else e).1 = e.1 := fun e => by split <;> rfl
  simp only [Function.comp_def, hkeys]
  refine (List.map_congr_left fun e he => ?_).trans (List.map_id _)
  have hne : e.1 ≠ k := by simpa using (List.mem_filter.mp he).2
  rw [if_neg hne, id]

end OrderedMap
