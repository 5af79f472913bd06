import Svfs.Python.Object

/-! Ids on their way through C++.

The unit `s` takes an id to its UTF-8 bytes; what hands it back makes one character of each
byte. A code point below 128 is one byte with its own value, and any other is two or more bytes,
none of them below 128, so that exactly the ids of ASCII characters come back as they went
(`oneByte_utf8_iff`). UTF-8 itself loses nothing (`utf8_injective`). -/
namespace Svfs

def Ascii (codePoints : List Nat) : Prop := ∀ c ∈ codePoints, c < 128

instance (codePoints : List Nat) : Decidable (Ascii codePoints) :=
  inferInstanceAs (Decidable (∀ c ∈ codePoints, c < 128))

/-- The code points of a `str`, none of them NUL. -/
def NulFree (codePoints : List Nat) : Prop := ∀ c ∈ codePoints, c ≠ 0 ∧ c < 0x110000

instance (codePoints : List Nat) : Decidable (NulFree codePoints) :=
  inferInstanceAs (Decidable (∀ c ∈ codePoints, c ≠ 0 ∧ c < 0x110000))

section Utf8
variable {c : Nat} {cs cs' : List Nat} {bs : List Byte}

theorem toNat_byte (n : Nat) (h : n < 256) : (UInt8.ofNat n).toNat = n := by
  rw [UInt8.toNat_ofNat', Nat.mod_eq_of_lt h]

/-- Bytes made of numbers from 128 on are not below 128. -/
theorem high_of_eq (ns : List Nat) (hns : ∀ n ∈ ns, 128 ≤ n ∧ n < 256)
    (h : some (ns.map UInt8.ofNat) = some bs) : bs.length = ns.length ∧ ∀ b ∈ bs, 128 ≤ b.toNat := by
  obtain rfl := Option.some.inj h
  refine ⟨List.length_map .., fun b hb => ?_⟩
  obtain ⟨n, hn, rfl⟩ := List.mem_map.mp hb
  rw [toNat_byte n (hns n hn).2]
  exact (hns n hn).1

/-- A code point below 128 is its own byte; the bytes of any other are not below 128. -/
theorem utf8Char_cases (hc : c < 0x110000) (h : utf8Char c = some bs) :
    c < 128 ∧ bs = [.ofNat c] ∨ 128 ≤ c ∧ 2 ≤ bs.length ∧ ∀ b ∈ bs, 128 ≤ b.toNat := by
  unfold utf8Char at h
  split at h
  · exact .inl ⟨by assumption, (Option.some.inj h).symm⟩
  · right
    refine ⟨by omega, ?_⟩
    split at h
    · obtain ⟨hlength, hhigh⟩ := high_of_eq [0xC0 + c / 64, 0x80 + c % 64] (by simp; omega) h
      exact ⟨hlength.ge, hhigh⟩
    · split at h
      · cases h
      · split at h
        · obtain ⟨hlength, hhigh⟩ := high_of_eq [0xE0 + c / 4096, 0x80 + c / 64 % 64, 0x80 + c % 64]
            (by simp; omega) h
          exact ⟨by rw [hlength]; simp, hhigh⟩
        · obtain ⟨hlength, hhigh⟩ := high_of_eq [0xF0 + c / 262144, 0x80 + c / 4096 % 64,
            0x80 + c / 64 % 64, 0x80 + c % 64] (by simp; omega) h
          exact ⟨by rw [hlength]; simp, hhigh⟩

/-- The code point that UTF-8 bytes begin with, and the bytes after it. -/
def readChar : List Byte → Option (Nat × List Byte)
  | [] => none
  | b :: rest =>
    if b.toNat < 0x80 then some (b.toNat, rest)
    else if b.toNat < 0xE0 then
      match rest with
      | b₁ :: rest => some ((b.toNat - 0xC0) * 64 + (b₁.toNat - 0x80), rest)
      | _ => none
    else if b.toNat < 0xF0 then
      match rest with
      | b₁ :: b₂ :: rest =>
        some ((b.toNat - 0xE0) * 4096 + (b₁.toNat - 0x80) * 64 + (b₂.toNat - 0x80), rest)
      | _ => none
    else
      match rest with
      | b₁ :: b₂ :: b₃ :: rest =>
        some ((b.toNat - 0xF0) * 262144 + (b₁.toNat - 0x80) * 4096 + (b₂.toNat - 0x80) * 64 +
          (b₃.toNat - 0x80), rest)
      | _ => none

/-- The first byte tells how many there are. -/
theorem readChar_utf8Char (hc : c < 0x110000) (h : utf8Char c = some bs) (rest : List Byte) :
    readChar (bs ++ rest) = some (c, rest) := by
  unfold utf8Char at h
  split at h
  · obtain rfl := Option.some.inj h
    simp only [readChar, List.cons_append, List.nil_append]
    rw [toNat_byte c (by omega), if_pos (by assumption)]
  · split at h
    · obtain rfl := Option.some.inj h
      simp only [readChar, List.cons_append, List.nil_append]
      rw [toNat_byte (0xC0 + c / 64) (by omega), toNat_byte (0x80 + c % 64) (by omega),
        if_neg (by omega), if_pos (by omega)]
      exact congrArg (fun n => some (n, rest)) (by omega)
    · split at h
      · cases h
      · split at h
        · obtain rfl := Option.some.inj h
          simp only [readChar, List.cons_append, List.nil_append]
          rw [toNat_byte (0xE0 + c / 4096) (by omega), toNat_byte (0x80 + c / 64 % 64) (by omega),
            toNat_byte (0x80 + c % 64) (by omega), if_neg (by omega), if_neg (by omega), if_pos (by omega)]
          exact congrArg (fun n => some (n, rest)) (by omega)
        · obtain rfl := Option.some.inj h
          simp only [readChar, List.cons_append, List.nil_append]
          rw [toNat_byte (0xF0 + c / 262144) (by omega), toNat_byte (0x80 + c / 4096 % 64) (by omega),
            toNat_byte (0x80 + c / 64 % 64) (by omega), toNat_byte (0x80 + c % 64) (by omega),
            if_neg (by omega), if_neg (by omega), if_neg (by omega)]
          exact congrArg (fun n => some (n, rest)) (by omega)

theorem utf8_cons_eq_some : utf8 (c :: cs) = some bs ↔
    ∃ b rest, utf8Char c = some b ∧ utf8 cs = some rest ∧ b ++ rest = bs := by
  simp only [utf8, Option.bind_eq_some_iff, Option.map_eq_some_iff]
  constructor
  · rintro ⟨b, hb, rest, hrest, heq⟩
    exact ⟨b, rest, hb, hrest, heq⟩
  · rintro ⟨b, rest, hb, hrest, heq⟩
    exact ⟨b, hb, rest, hrest, heq⟩

/-- **UTF-8 loses nothing.** -/
theorem utf8_injective (hcs : ∀ c ∈ cs, c < 0x110000) (hcs' : ∀ c ∈ cs', c < 0x110000)
    (h : utf8 cs = some bs) (h' : utf8 cs' = some bs) : cs = cs' := by
  induction cs generalizing cs' bs with
  | nil =>
    obtain rfl := Option.some.inj h
    cases cs' with
    | nil => rfl
    | cons c' cs' =>
      obtain ⟨b, rest, hb, _, heq⟩ := utf8_cons_eq_some.mp h'
      have hread := readChar_utf8Char (hcs' c' (List.mem_cons_self ..)) hb rest
      rw [heq] at hread
      cases hread
  | cons c cs ih =>
    obtain ⟨b, rest, hb, hrest, rfl⟩ := utf8_cons_eq_some.mp h
    have hread := readChar_utf8Char (hcs c (List.mem_cons_self ..)) hb rest
    cases cs' with
    | nil =>
      rw [← Option.some.inj h'] at hread
      cases hread
    | cons c' cs' =>
      obtain ⟨b', rest', hb', hrest', heq⟩ := utf8_cons_eq_some.mp h'
      have hread' := readChar_utf8Char (hcs' c' (List.mem_cons_self ..)) hb' rest'
      rw [heq, hread] at hread'
      obtain ⟨rfl, rfl⟩ := Prod.mk.inj (Option.some.inj hread')
      rw [ih (fun d hd => hcs d (List.mem_cons_of_mem _ hd)) (fun d hd => hcs' d (List.mem_cons_of_mem _ hd))
        hrest hrest']

/-- ASCII characters are their own bytes. -/
theorem utf8_of_ascii (h : Ascii cs) : utf8 cs = some (cs.map UInt8.ofNat) := by
  induction cs with
  | nil => rfl
  | cons c cs ih =>
    obtain ⟨hc, hcs⟩ := List.forall_mem_cons.mp h
    have hchar : utf8Char c = some [.ofNat c] := if_pos hc
    exact utf8_cons_eq_some.mpr ⟨_, _, hchar, ih hcs, rfl⟩

/-- One character for each byte: the same characters if they are ASCII, and otherwise more of
them, some still not ASCII. -/
theorem oneByte_of_utf8 (hcs : ∀ c ∈ cs, c < 0x110000) (h : utf8 cs = some bs) :
    Ascii cs ∧ bs.map UInt8.toNat = cs ∨
      ¬ Ascii cs ∧ ¬ Ascii (bs.map UInt8.toNat) ∧ cs.length < (bs.map UInt8.toNat).length := by
  induction cs generalizing bs with
  | nil =>
    obtain rfl := Option.some.inj h
    exact .inl ⟨by simp [Ascii], rfl⟩
  | cons c cs ih =>
    obtain ⟨b, rest, hb, hrest, rfl⟩ := utf8_cons_eq_some.mp h
    have hrestCases := ih (fun d hd => hcs d (List.mem_cons_of_mem _ hd)) hrest
    have hascii : ∀ (d : Nat) (ds : List Nat), Ascii (d :: ds) ↔ d < 128 ∧ Ascii ds := fun d ds =>
      List.forall_mem_cons
    have hlength : cs.length ≤ (rest.map UInt8.toNat).length := by
      rcases hrestCases with ⟨_, heq⟩ | ⟨_, _, hlt⟩
      · rw [heq]
      · exact hlt.le
    rcases utf8Char_cases (hcs c (List.mem_cons_self ..)) hb with ⟨hlow, rfl⟩ | ⟨hhigh, htwo, hbytes⟩
    · have hbyte : (UInt8.ofNat c).toNat = c := by
        rw [UInt8.toNat_ofNat', Nat.mod_eq_of_lt (by omega)]
      simp only [List.cons_append, List.nil_append, List.map_cons, hbyte, hascii, List.length_cons]
      rcases hrestCases with ⟨hall, heq⟩ | ⟨hnot, hnot', hlt⟩
      · exact .inl ⟨⟨hlow, hall⟩, by rw [heq]⟩
      · exact .inr ⟨fun h => hnot h.2, fun h => hnot' h.2, by omega⟩
    · refine .inr ⟨fun h => by have := ((hascii c cs).mp h).1; omega, fun h => ?_, ?_⟩
      · obtain ⟨b₀, hb₀⟩ := List.exists_mem_of_length_pos (show 0 < b.length by omega)
        have := h b₀.toNat (List.mem_map_of_mem (List.mem_append_left _ hb₀))
        have := hbytes b₀ hb₀
        omega
      · rw [List.map_append, List.length_append, List.length_map, List.length_cons]
        omega

/-- **Ids of ASCII characters** come back as they went, and no others. -/
theorem oneByte_utf8_iff (hcs : ∀ c ∈ cs, c < 0x110000) (h : utf8 cs = some bs) :
    bs.map UInt8.toNat = cs ↔ Ascii cs := by
  rcases oneByte_of_utf8 hcs h with ⟨hall, heq⟩ | ⟨hnot, _, hlt⟩
  · exact ⟨fun _ => hall, fun _ => heq⟩
  · refine ⟨fun heq => ?_, fun hall => absurd hall hnot⟩
    rw [heq] at hlt
    exact absurd hlt (lt_irrefl _)

theorem utf8_of_parseString (h : parseString (.str cs) = some bs) : utf8 cs = some bs :=
  (Option.filter_eq_some_iff.mp h).1

theorem parseString_of_ascii (hnul : NulFree cs) (h : Ascii cs) :
    parseString (.str cs) = some (cs.map UInt8.ofNat) := by
  refine Option.filter_eq_some_iff.mpr ⟨utf8_of_ascii h, ?_⟩
  simp only [Bool.not_eq_true', List.contains_eq_mem, decide_eq_false_iff_not, List.mem_map, not_exists,
    not_and]
  intro c hc hzero
  have hnat := congrArg UInt8.toNat hzero
  rw [UInt8.toNat_ofNat', Nat.mod_eq_of_lt (by have := h c hc; omega), UInt8.toNat_zero] at hnat
  exact (hnul c hc).1 hnat

end Utf8
end Svfs
