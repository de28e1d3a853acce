/-
  Lumen.Proofs.Encoding.CodePoints — well-formed text is encoded characters.

  A character has a number, and the number tells its bytes: the lead byte has the
  high bits, and six bits are in each byte after it.  In the other direction the ranges
  after a lead byte are just so narrow that each sequence in them is the encoding of
  a character: no number has a shorter form, is one of a surrogate, or is too large.

  So the texts that count as well-formed here are those that are valid for the strings
  of the logic.

  Main statements:
    * `following?_one` … `following?_none` — the table of lead bytes, row by row;
    * `after_encodeChar` — nothing is owed after a character;
    * `exists_char_of_after` — a well-formed text starts with one;
    * `isWellFormed_iff_isValidUTF8` — the two notions are one;
    * `take_announcedLength` — the lead byte tells how long the first one is.
-/
import Lumen.Token.Scan
import Lumen.Proofs.Encoding.Machine

namespace Lumen.Utf8

/-! ## §1. Lead bytes -/

section
variable {lead : UInt8}

theorem following?_one (h : lead.toNat < 0x80) : following? lead = some [] := by
  simp only [following?, UInt8.lt_iff_toNat_lt, UInt8.reduceToNat]
  rw [if_pos h]

theorem following?_two (h : 0xC2 ≤ lead.toNat ∧ lead.toNat < 0xE0) :
    following? lead = some [trailing] := by
  simp only [following?, UInt8.lt_iff_toNat_lt, UInt8.reduceToNat]
  rw [if_neg (by omega), if_neg (by omega), if_pos h.2]

/-- Of three bytes, the second keeps out shorter forms and surrogates. -/
theorem following?_three (h : 0xE0 ≤ lead.toNat ∧ lead.toNat < 0xF0) :
    following? lead = some [⟨if lead.toNat = 0xE0 then 0xA0 else 0x80,
      if lead.toNat = 0xED then 0x9F else 0xBF⟩, trailing] := by
  simp only [following?, UInt8.lt_iff_toNat_lt, beq_iff_eq, ← UInt8.toNat_inj, UInt8.reduceToNat]
  rw [if_neg (by omega), if_neg (by omega), if_neg (by omega)]
  split
  · next hfirst => simp [hfirst]
  · split
    · simp
    · rw [if_pos h.2]
      rfl

/-- Of four bytes, the second keeps out shorter forms and what is too large. -/
theorem following?_four (h : 0xF0 ≤ lead.toNat ∧ lead.toNat < 0xF5) :
    following? lead = some [⟨if lead.toNat = 0xF0 then 0x90 else 0x80,
      if lead.toNat = 0xF4 then 0x8F else 0xBF⟩, trailing, trailing] := by
  simp only [following?, UInt8.lt_iff_toNat_lt, beq_iff_eq, ← UInt8.toNat_inj, UInt8.reduceToNat]
  rw [if_neg (by omega), if_neg (by omega), if_neg (by omega), if_neg (by omega),
    if_neg (by omega), if_neg (by omega)]
  split
  · next hfirst => simp [hfirst]
  · split
    · next hlt =>
      have hne : lead.toNat ≠ 0xF4 := by omega
      rw [if_neg hne]
      rfl
    · have hlast : lead.toNat = 0xF4 := by omega
      simp [hlast]

theorem following?_none (h : 0x80 ≤ lead.toNat ∧ lead.toNat < 0xC2 ∨ 0xF5 ≤ lead.toNat) :
    following? lead = none := by
  simp only [following?, UInt8.lt_iff_toNat_lt, beq_iff_eq, ← UInt8.toNat_inj, UInt8.reduceToNat]
  rw [if_neg (by omega)]
  split
  · rfl
  · rw [if_neg (by omega), if_neg (by omega), if_neg (by omega), if_neg (by omega),
      if_neg (by omega), if_neg (by omega), if_neg (by omega)]

theorem after_of_following? {owed : List ByteRange} (h : following? lead = some owed) (s : Bytes) :
    after [] (lead :: s) = after owed s := by
  rw [after_cons, next, h]
  rfl

end

theorem ByteRange.contains_iff {r : ByteRange} {b : UInt8} :
    r.contains b = true ↔ r.low.toNat ≤ b.toNat ∧ b.toNat ≤ r.high.toNat := by
  simp [ByteRange.contains, UInt8.le_iff_toNat_le]

theorem trailing_contains {b : UInt8} :
    trailing.contains b = true ↔ 0x80 ≤ b.toNat ∧ b.toNat ≤ 0xBF := ByteRange.contains_iff

theorem after_of_contains {r : ByteRange} {b : UInt8} (h : r.contains b = true)
    (owed : List ByteRange) (s : Bytes) : after (r :: owed) (b :: s) = after owed s := by
  rw [after_cons, next, if_pos h]
  rfl

/-- If nothing is owed in the end, then what is owed comes first. -/
theorem exists_of_after_cons {r : ByteRange} {owed : List ByteRange} {s : Bytes}
    (h : after (r :: owed) s = some []) :
    ∃ b t, s = b :: t ∧ r.contains b = true ∧ after owed t = some [] := by
  cases s with
  | nil => cases h
  | cons b t =>
    rw [after_cons, next] at h
    split at h
    · next hb => exact ⟨b, t, rfl, hb, h⟩
    · cases h

/-! ## §2. From characters to bytes -/

/-- The six bits in a byte after the lead byte. -/
theorem trailing_contains_ofNat (n : Nat) :
    trailing.contains (UInt8.ofNat (n % 0x40 + 0x80)) = true := by
  rw [trailing_contains, UInt8.toNat_ofNat']
  omega

theorem after_encodeChar (c : Char) : after [] (String.utf8EncodeChar c) = some [] := by
  have hv : c.val.toNat < 0xD800 ∨ 0xDFFF < c.val.toNat ∧ c.val.toNat < 0x110000 := c.valid
  unfold String.utf8EncodeChar
  dsimp only
  generalize c.val.toNat = v at hv ⊢
  split
  · rw [after_of_following? (following?_one (by rw [UInt8.toNat_ofNat']; omega))]
    rfl
  split
  · rw [after_of_following? (following?_two (by rw [UInt8.toNat_ofNat']; omega)),
      after_of_contains (trailing_contains_ofNat v)]
    rfl
  split
  · rw [after_of_following? (following?_three (by rw [UInt8.toNat_ofNat']; omega)),
      after_of_contains, after_of_contains (trailing_contains_ofNat v)]
    · rfl
    · simp only [ByteRange.contains_iff, UInt8.toNat_ofNat', apply_ite UInt8.toNat,
        UInt8.reduceToNat]
      split <;> split <;> omega
  · rw [after_of_following? (following?_four (by rw [UInt8.toNat_ofNat']; omega)),
      after_of_contains, after_of_contains (trailing_contains_ofNat (v / 64)),
      after_of_contains (trailing_contains_ofNat v)]
    · rfl
    · simp only [ByteRange.contains_iff, UInt8.toNat_ofNat', apply_ite UInt8.toNat,
        UInt8.reduceToNat]
      split <;> split <;> omega

/-! ## §3. From bytes to characters -/

/-- Every number that is none of a surrogate and not too large is one of a character. -/
theorem exists_char {v : Nat} (h : v < 0xD800 ∨ 0xDFFF < v ∧ v < 0x110000) :
    ∃ c : Char, c.val.toNat = v := ⟨Char.ofNatAux v h, rfl⟩

section
variable {b₀ b₁ b₂ b₃ : UInt8}

theorem exists_encodeChar_one (h₀ : b₀.toNat < 0x80) :
    ∃ c : Char, String.utf8EncodeChar c = [b₀] := by
  obtain ⟨c, hc⟩ := exists_char (v := b₀.toNat) (by omega)
  refine ⟨c, ?_⟩
  unfold String.utf8EncodeChar
  simp only [hc]
  rw [if_pos (by omega), UInt8.ofNat_toNat]

variable (h₁ : 0x80 ≤ b₁.toNat ∧ b₁.toNat ≤ 0xBF)
include h₁

theorem exists_encodeChar_two (h₀ : 0xC2 ≤ b₀.toNat ∧ b₀.toNat < 0xE0) :
    ∃ c : Char, String.utf8EncodeChar c = [b₀, b₁] := by
  obtain ⟨c, hc⟩ := exists_char (v := (b₀.toNat - 0xC0) * 64 + (b₁.toNat - 0x80)) (by omega)
  refine ⟨c, ?_⟩
  unfold String.utf8EncodeChar
  simp only [hc]
  rw [if_neg (by omega), if_pos (by omega)]
  simp only [List.cons.injEq, ← UInt8.toNat_inj, UInt8.toNat_ofNat', and_true]
  omega

variable (h₂ : 0x80 ≤ b₂.toNat ∧ b₂.toNat ≤ 0xBF)
include h₂

theorem exists_encodeChar_three (h₀ : 0xE0 ≤ b₀.toNat ∧ b₀.toNat < 0xF0)
    (hlow : b₀.toNat = 0xE0 → 0xA0 ≤ b₁.toNat) (hhigh : b₀.toNat = 0xED → b₁.toNat ≤ 0x9F) :
    ∃ c : Char, String.utf8EncodeChar c = [b₀, b₁, b₂] := by
  obtain ⟨c, hc⟩ := exists_char
    (v := (b₀.toNat - 0xE0) * 4096 + (b₁.toNat - 0x80) * 64 + (b₂.toNat - 0x80)) (by omega)
  refine ⟨c, ?_⟩
  unfold String.utf8EncodeChar
  simp only [hc]
  rw [if_neg (by omega), if_neg (by omega), if_pos (by omega)]
  simp only [List.cons.injEq, ← UInt8.toNat_inj, UInt8.toNat_ofNat', and_true]
  omega

theorem exists_encodeChar_four (h₃ : 0x80 ≤ b₃.toNat ∧ b₃.toNat ≤ 0xBF)
    (h₀ : 0xF0 ≤ b₀.toNat ∧ b₀.toNat < 0xF5) (hlow : b₀.toNat = 0xF0 → 0x90 ≤ b₁.toNat)
    (hhigh : b₀.toNat = 0xF4 → b₁.toNat ≤ 0x8F) :
    ∃ c : Char, String.utf8EncodeChar c = [b₀, b₁, b₂, b₃] := by
  obtain ⟨c, hc⟩ := exists_char
    (v := (b₀.toNat - 0xF0) * 262144 + (b₁.toNat - 0x80) * 4096 + (b₂.toNat - 0x80) * 64
      + (b₃.toNat - 0x80)) (by omega)
  refine ⟨c, ?_⟩
  unfold String.utf8EncodeChar
  simp only [hc]
  rw [if_neg (by omega), if_neg (by omega), if_neg (by omega)]
  simp only [List.cons.injEq, ← UInt8.toNat_inj, UInt8.toNat_ofNat', and_true]
  omega

end

/-- **A well-formed text that is not empty starts with an encoded character**, and goes
    on with a well-formed text.  The cases are the rows of the table of lead bytes. -/
theorem exists_char_of_after {lead : UInt8} {s : Bytes} (h : after [] (lead :: s) = some []) :
    ∃ c rest, lead :: s = String.utf8EncodeChar c ++ rest ∧ after [] rest = some [] := by
  rw [after_cons, next] at h
  by_cases h₁ : lead.toNat < 0x80
  · rw [following?_one h₁] at h
    obtain ⟨c, hc⟩ := exists_encodeChar_one h₁
    exact ⟨c, s, by rw [hc]; rfl, h⟩
  by_cases h₂ : 0xC2 ≤ lead.toNat ∧ lead.toNat < 0xE0
  · rw [following?_two h₂] at h
    obtain ⟨b₁, s, rfl, hb₁, h⟩ := exists_of_after_cons h
    obtain ⟨c, hc⟩ := exists_encodeChar_two (trailing_contains.mp hb₁) h₂
    exact ⟨c, s, by rw [hc]; rfl, h⟩
  by_cases h₃ : 0xE0 ≤ lead.toNat ∧ lead.toNat < 0xF0
  · rw [following?_three h₃] at h
    obtain ⟨b₁, s, rfl, hb₁, h⟩ := exists_of_after_cons h
    obtain ⟨b₂, s, rfl, hb₂, h⟩ := exists_of_after_cons h
    simp only [ByteRange.contains_iff, apply_ite UInt8.toNat, UInt8.reduceToNat] at hb₁
    -- some lead bytes narrow the range of the byte that follows
    have htrailing : 0x80 ≤ b₁.toNat ∧ b₁.toNat ≤ 0xBF := by
      split at hb₁ <;> split at hb₁ <;> omega
    obtain ⟨c, hc⟩ := exists_encodeChar_three htrailing (trailing_contains.mp hb₂) h₃
      (fun hlead => by rw [if_pos hlead] at hb₁; exact hb₁.1)
      (fun hlead => by rw [if_pos hlead] at hb₁; exact hb₁.2)
    exact ⟨c, s, by rw [hc]; rfl, h⟩
  by_cases h₄ : 0xF0 ≤ lead.toNat ∧ lead.toNat < 0xF5
  · rw [following?_four h₄] at h
    obtain ⟨b₁, s, rfl, hb₁, h⟩ := exists_of_after_cons h
    obtain ⟨b₂, s, rfl, hb₂, h⟩ := exists_of_after_cons h
    obtain ⟨b₃, s, rfl, hb₃, h⟩ := exists_of_after_cons h
    simp only [ByteRange.contains_iff, apply_ite UInt8.toNat, UInt8.reduceToNat] at hb₁
    have htrailing : 0x80 ≤ b₁.toNat ∧ b₁.toNat ≤ 0xBF := by
      split at hb₁ <;> split at hb₁ <;> omega
    obtain ⟨c, hc⟩ := exists_encodeChar_four htrailing (trailing_contains.mp hb₂)
      (trailing_contains.mp hb₃) h₄
      (fun hlead => by rw [if_pos hlead] at hb₁; exact hb₁.1)
      (fun hlead => by rw [if_pos hlead] at hb₁; exact hb₁.2)
    exact ⟨c, s, by rw [hc]; rfl, h⟩
  · rw [following?_none (by omega)] at h
    cases h

/-! ## §4. Texts -/

/-- By induction on the length: the first character is followed by a shorter text. -/
theorem exists_chars_of_after {s : Bytes} (h : after [] s = some []) :
    ∃ cs : List Char, s = cs.flatMap String.utf8EncodeChar := by
  induction hn : s.length using Nat.strongRecOn generalizing s with
  | ind n ih =>
    cases s with
    | nil => exact ⟨[], rfl⟩
    | cons lead s =>
      obtain ⟨c, rest, hs, hrest⟩ := exists_char_of_after h
      have hlt : rest.length < n := by
        have hpos : 0 < (String.utf8EncodeChar c).length :=
          List.length_pos_iff.mpr String.utf8EncodeChar_ne_nil
        rw [← hn, hs, List.length_append]
        omega
      obtain ⟨cs, rfl⟩ := ih rest.length hlt hrest rfl
      exact ⟨c :: cs, hs⟩

theorem after_flatMap_encodeChar (cs : List Char) :
    after [] (cs.flatMap String.utf8EncodeChar) = some [] := by
  induction cs with
  | nil => rfl
  | cons c cs ih =>
    rw [List.flatMap_cons, after_append, after_encodeChar]
    exact ih

/-- **A text is well-formed if it is valid for strings**: it is the encoding of some
    characters. -/
theorem isWellFormed_iff_isValidUTF8 {s : Bytes} :
    isWellFormed s = true ↔ s.toByteArray.IsValidUTF8 := by
  rw [isWellFormed_iff]
  constructor
  · intro h
    obtain ⟨cs, rfl⟩ := exists_chars_of_after h
    exact .intro cs rfl
  · rintro ⟨cs, hcs⟩
    have hbytes : s = cs.flatMap String.utf8EncodeChar := by
      simpa [List.utf8Encode] using congrArg ByteArray.data hcs
    rw [hbytes]
    exact after_flatMap_encodeChar cs

/-- A text that is one whole code point. -/
def IsCodePoint (s : Bytes) : Prop := ∃ c : Char, s = String.utf8EncodeChar c

theorem IsCodePoint.isWellFormed {s : Bytes} (h : IsCodePoint s) : isWellFormed s = true := by
  obtain ⟨c, rfl⟩ := h
  exact isWellFormed_iff.mpr (after_encodeChar c)

end Lumen.Utf8

namespace Lumen

/-- The lead byte of a character announces how many bytes it has. -/
theorem announcedLength_encodeChar (c : Char) :
    ∃ lead tail, String.utf8EncodeChar c = lead :: tail
      ∧ announcedLength lead = (String.utf8EncodeChar c).length := by
  have hv : c.val.toNat < 0x110000 := by
    have hvalid : c.val.toNat < 0xD800 ∨ 0xDFFF < c.val.toNat ∧ c.val.toNat < 0x110000 := c.valid
    omega
  -- one, two, three or four bytes, by the size of the code point
  unfold String.utf8EncodeChar
  dsimp only
  generalize c.val.toNat = v at hv ⊢
  simp only [announcedLength, UInt8.le_iff_toNat_le, UInt8.lt_iff_toNat_lt, UInt8.reduceToNat,
    Bool.and_eq_true, decide_eq_true_eq]
  split
  · refine ⟨_, _, rfl, ?_⟩
    rw [UInt8.toNat_ofNat', if_neg (by omega), if_neg (by omega), if_neg (by omega)]
    rfl
  split
  · refine ⟨_, _, rfl, ?_⟩
    rw [UInt8.toNat_ofNat', if_neg (by omega), if_neg (by omega), if_pos (by omega)]
    rfl
  split
  · refine ⟨_, _, rfl, ?_⟩
    rw [UInt8.toNat_ofNat', if_neg (by omega), if_pos (by omega)]
    rfl
  · refine ⟨_, _, rfl, ?_⟩
    rw [UInt8.toNat_ofNat', if_pos (by omega)]
    rfl

/-- As many bytes as the first byte of a well-formed text announces are its first
    character. -/
theorem take_announcedLength {lead : UInt8} {s : Bytes}
    (h : Utf8.isWellFormed (lead :: s) = true) :
    Utf8.IsCodePoint ((lead :: s).take (announcedLength lead)) := by
  obtain ⟨c, rest, hs, -⟩ := Utf8.exists_char_of_after (Utf8.isWellFormed_iff.mp h)
  obtain ⟨lead', tail, hc, hlen⟩ := announcedLength_encodeChar c
  have hlead : lead = lead' := by
    rw [hc] at hs
    exact (List.cons.inj hs).1
  exact ⟨c, by rw [hlead, hlen, ← hlead, hs, List.take_left]⟩

end Lumen
