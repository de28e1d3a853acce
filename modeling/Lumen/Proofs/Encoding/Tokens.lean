/-
  Lumen.Proofs.Encoding.Tokens — what is cut out of well-formed text.

  A text is cut byte by byte, and so are strings, whose escapes are replaced one by one.
  But each cut is made beside a byte of ASCII: a blank, a slash, the byte of a word, of
  a number or of a mark, a quote, or the line feed that ends a comment.  And an escape
  puts ASCII in the place of ASCII; where it stands for itself, the byte after the
  backslash may be the first of many, and these stay as they are.

  So the lexemes of a well-formed text carry well-formed texts, and so do the errors in
  it.  A character that starts nothing is taken out as a whole.

  Main statements:
    * `Gap.isWellFormed_after` — what follows a gap is well-formed;
    * `Decodes.after_eq` — a string owes as much as the bytes it is written with;
    * `Denotes.encoded` — what a run denotes is well-formed, and what follows it;
    * `tokensFrom_encoded` / `tokenize_encoded` — the tokens of a well-formed text.
-/
import Lumen.Proofs.Lexing.Tiling
import Lumen.Proofs.Checking.Judged
import Lumen.Proofs.Encoding.CodePoints

namespace Lumen

open Utf8

/-! ## §1. Classes of bytes -/

namespace Byte

variable {b : UInt8}

theorem isAscii_of_isBlank (h : isBlank b = true) : isAscii b = true := by
  simp [isBlank, space, tab, carriageReturn, lineFeed] at h
  obtain ((rfl | rfl) | rfl) | rfl := h <;> decide

theorem isAscii_of_inWord (h : inWord b = true) : isAscii b = true := by
  simp [inWord, isLetter, isDigit, underscore, UInt8.le_iff_toNat_le, ← UInt8.toNat_inj] at h
  simp [isAscii, UInt8.lt_iff_toNat_lt]
  omega

theorem isAscii_of_startsWord (h : startsWord b = true) : isAscii b = true := by
  apply isAscii_of_inWord
  unfold startsWord at h
  unfold inWord
  simp only [Bool.or_eq_true] at h ⊢
  exact h.imp_left .inl

theorem isAscii_of_isDigit (h : isDigit b = true) : isAscii b = true := by
  apply isAscii_of_inWord
  simp [inWord, h]

end Byte

theorem isAscii_of_inNumber {b : UInt8} (h : inNumber b = true) : Byte.isAscii b = true := by
  simp only [inNumber, Bool.or_eq_true, beq_iff_eq] at h
  obtain h | rfl := h
  · exact Byte.isAscii_of_isDigit h
  · decide

theorem isAscii_of_isName {run : Bytes} (h : isName run = true) : run.IsAscii := by
  cases run with
  | nil => cases h
  | cons b rest =>
    simp only [isName, Bool.and_eq_true, List.all_eq_true] at h
    exact List.forall_mem_cons.mpr
      ⟨Byte.isAscii_of_startsWord h.1, fun c hc => Byte.isAscii_of_inWord (h.2 c hc)⟩

theorem isAscii_of_isNumeral {run : Bytes} (h : isNumeral run = true) : run.IsAscii := by
  cases run with
  | nil => cases h
  | cons b rest =>
    simp only [isNumeral, Bool.and_eq_true, List.all_eq_true] at h
    exact List.forall_mem_cons.mpr
      ⟨Byte.isAscii_of_isDigit h.1, fun c hc => isAscii_of_inNumber (h.2 c hc)⟩

theorem Mark.isAscii_bytes (m : Mark) : Bytes.IsAscii m.bytes := by
  cases m <;> decide

/-! ## §2. Gaps -/

/-- Before some text there may be a byte of ASCII, or none. -/
theorem isWellFormed_of_head {front s : Bytes} (hhead : ∀ b ∈ s.head?, Byte.isAscii b = true)
    (h : isWellFormed (front ++ s) = true) : isWellFormed s = true := by
  cases s with
  | nil => exact isWellFormed_nil
  | cons b s =>
    have hb : Byte.isAscii b = true := hhead b rfl
    rw [isWellFormed_cons hb]
    exact (isWellFormed_cut hb h).2

/-- What follows a gap in a well-formed text is well-formed. -/
theorem Gap.isWellFormed_after {gap after : Bytes} (h : Gap gap after)
    (hwf : isWellFormed (gap ++ after) = true) : isWellFormed after = true := by
  induction h with
  | nil => exact hwf
  | blank hb h ih =>
    rw [List.cons_append, isWellFormed_cons (Byte.isAscii_of_isBlank hb)] at hwf
    exact ih hwf
  | @comment body gap after hbody hend h ih =>
    -- a comment ends with the text, or before a line feed
    have htext : Byte.slash :: Byte.slash :: (body ++ gap) ++ after
        = (Byte.slash :: Byte.slash :: body) ++ (gap ++ after) := by
      simp only [List.cons_append, List.append_assoc]
    rw [htext] at hwf
    apply ih
    apply isWellFormed_of_head _ hwf
    intro b hb
    rw [hend b hb]
    decide

/-! ## §3. Strings -/

/-- **A string owes as much as the bytes it is written with.**  Where something is owed,
    no escape may follow, neither as it is written nor as what it stands for. -/
theorem Decodes.after_eq {body value : Bytes} (h : Decodes body value) {owed : List ByteRange}
    (howed : Beyond owed) : after owed body = after owed value := by
  -- one byte before texts that owe alike
  have hcons : ∀ {owed s t} (b : UInt8), Beyond owed →
      (∀ owed, Beyond owed → after owed s = after owed t) →
      after owed (b :: s) = after owed (b :: t) := by
    intro owed s t b howed heq
    rw [after_cons, after_cons]
    apply Option.bind_congr
    intro owed' hnext
    exact heq owed' (howed.next hnext)
  -- two bytes of ASCII that are replaced by one
  have hescape : ∀ {owed s t} (e : UInt8) (b : UInt8), Byte.isAscii e = true →
      Byte.isAscii b = true → Beyond owed → (after [] s = after [] t) →
      after owed (Byte.backslash :: e :: s) = after owed (b :: t) := by
    intro owed s t e b he hb howed heq
    rw [after_cons, after_cons]
    cases owed with
    | nil =>
      rw [next_nil_of_isAscii hb, next_nil_of_isAscii (by decide)]
      show after [] (e :: s) = _
      rw [after_cons, next_nil_of_isAscii he]
      exact heq
    | cons r owed =>
      rw [next_cons_of_isAscii hb howed, next_cons_of_isAscii (by decide) howed]
      rfl
  induction h generalizing owed with
  | nil => rfl
  | plain _ _ _ ih => exact hcons _ howed fun _ => ih
  | quote _ ih | backslash _ ih | lineFeed _ ih | tab _ ih =>
    exact hescape _ _ (by decide) (by decide) howed (ih beyond_nil)
  | other _ _ ih => exact hcons _ howed fun _ howed' => hcons _ howed' fun _ => ih

theorem Decodes.isWellFormed {body value : Bytes} (h : Decodes body value)
    (hbody : isWellFormed body = true) : isWellFormed value = true := by
  rw [isWellFormed_iff] at hbody ⊢
  rwa [← h.after_eq beyond_nil]

/-! ## §4. Lexemes and errors -/

/-- The text that a lexeme carries: a name or a string. -/
def Lexeme.payload? : Lexeme → Option Bytes
  | ident name => some name
  | literal (.str s) => some s
  | _ => none

/-- Whether a lexeme carries well-formed text, if any. -/
def Lexeme.Encoded (l : Lexeme) : Prop := ∀ s ∈ l.payload?, isWellFormed s = true

/-- Whether the text that an error blames is well-formed; a character, if it is one, is
    there as a whole. -/
structure LexError.Encoded (e : LexError) : Prop where
  text : isWellFormed e.text = true
  character : e.kind = .unexpectedCharacter → IsCodePoint e.text

theorem Lexeme.encoded_of_none {l : Lexeme} (h : l.payload? = none) : l.Encoded := by
  intro s hs
  rw [h] at hs
  cases hs

/-- **What a run of a well-formed text denotes is well-formed**, and so is what follows. -/
theorem Denotes.encoded {run after : Bytes} {l : Lexeme} (h : Denotes run after l)
    (hwf : isWellFormed (run ++ after) = true) : l.Encoded ∧ isWellFormed after = true := by
  have hascii : run.IsAscii → isWellFormed after = true := by
    intro hrun
    rwa [isWellFormed_of_isAscii_append hrun] at hwf
  cases h with
  | truth b h => exact ⟨Lexeme.encoded_of_none rfl, hascii (isAscii_of_isName h.belongs)⟩
  | word w h => exact ⟨Lexeme.encoded_of_none rfl, hascii (isAscii_of_isName h.belongs)⟩
  | name h =>
    have hrun : run.IsAscii := isAscii_of_isName h.belongs
    refine ⟨?_, hascii hrun⟩
    intro s hs
    obtain rfl := Option.some.inj hs
    exact isWellFormed_of_isAscii hrun
  | int h =>
    exact ⟨Lexeme.encoded_of_none rfl, hascii (isAscii_of_isNumeral h.belongs.isNumeral)⟩
  | float h =>
    exact ⟨Lexeme.encoded_of_none rfl, hascii (isAscii_of_isNumeral h.belongs.isNumeral)⟩
  | @str body value after h =>
    -- the quotes are cut off on both sides
    have htext : Byte.quote :: (body ++ [Byte.quote]) ++ after
        = Byte.quote :: (body ++ Byte.quote :: after) := by
      simp only [List.cons_append, List.append_assoc, List.nil_append]
    rw [htext, isWellFormed_cons (by decide)] at hwf
    obtain ⟨hbody, hafter⟩ := isWellFormed_cut (by decide) hwf
    refine ⟨?_, hafter⟩
    intro s hs
    obtain rfl := Option.some.inj hs
    exact h.isWellFormed hbody
  | mark m => exact ⟨Lexeme.encoded_of_none rfl, hascii m.isAscii_bytes⟩

/-- The text to blame is a number, the rest of the source, or one character. -/
theorem encoded_of_scanAt {b : UInt8} {rest : Bytes} (hwf : isWellFormed (b :: rest) = true)
    {kind : LexErrorKind} {text : Bytes} (h : scanAt b rest = .bad kind text) (p : Pos) :
    LexError.Encoded ⟨kind, text, p⟩ := by
  obtain hblank | ⟨rfl, hslash⟩ | hword | hdigit | rfl | hmark := piece_cases b rest
  · -- blanks, comments and words are never to blame
    rw [scanAt_blank hblank] at h
    cases h
  · rw [scanAt_comment hslash] at h
    cases h
  · rw [scanAt_word hword] at h
    cases h
  · rw [scanAt_number hdigit] at h
    split at h <;> cases h
    have hnumber : isNumeral (b :: numberRun rest) = true := by
      simp [isNumeral, hdigit, all_inNumber_numberRun]
    exact ⟨isWellFormed_of_isAscii (isAscii_of_isNumeral hnumber), fun hkind => by cases hkind⟩
  · rw [scanAt_quote] at h
    split at h <;> cases h
    exact ⟨hwf, fun hkind => by cases hkind⟩
  · rw [hmark.scanAt] at h
    split at h <;> cases h
    have hcharacter := take_announcedLength hwf
    exact ⟨hcharacter.isWellFormed, fun _ => hcharacter⟩

/-! ## §5. Tokens -/

/-- By induction on the length of the text, of which every piece takes at least one
    byte; what is left to read is well-formed. -/
theorem tokensFrom_encoded (p : Pos) {text : Bytes} (hwf : isWellFormed text = true) :
    Gives (tokensFrom 0 p text) (fun tokens => ∀ t ∈ tokens, t.lexeme.Encoded)
      LexError.Encoded := by
  induction hn : text.length using Nat.strongRecOn generalizing p text with
  | ind n ih =>
    cases text with
    | nil =>
      rw [tokensFrom_nil]
      exact List.forall_mem_singleton.mpr (Lexeme.encoded_of_none rfl)
    | cons b rest =>
      rw [List.length_cons] at hn
      -- the rest of the text, after a piece that starts with `b`
      have hgo : ∀ tail left, rest = tail ++ left → isWellFormed left = true →
          Gives (tokensFrom tail.length (p.step b) rest)
            (fun tokens => ∀ t ∈ tokens, t.lexeme.Encoded) LexError.Encoded := by
        intro tail left hrest hleft
        have hlen := congrArg List.length hrest
        rw [List.length_append] at hlen
        rw [hrest, tokensFrom_append]
        exact ih left.length (by omega) _ hleft rfl
      cases hscan : scanAt b rest with
      | gap more =>
        rw [tokensFrom_cons_gap p hscan]
        obtain ⟨tail, left, hrest, rfl, hgap⟩ := gap_of_scanAt hscan
        apply hgo tail left hrest
        apply (hgap [] left rfl .nil).isWellFormed_after
        rwa [List.append_nil, List.cons_append, ← hrest]
      | lexeme l more =>
        rw [tokensFrom_cons_lexeme p hscan]
        obtain ⟨tail, left, hrest, rfl, hdenotes⟩ := denotes_of_scanAt hscan
        obtain ⟨hl, hleft⟩ := hdenotes.encoded (by rwa [List.cons_append, ← hrest])
        have hgives := hgo tail left hrest hleft
        cases hrun : tokensFrom tail.length (p.step b) rest with
        | error e => exact hgives.of_error hrun
        | ok tokens => exact List.forall_mem_cons.mpr ⟨hl, hgives.of_ok hrun⟩
      | bad kind text =>
        rw [tokensFrom_cons_bad p hscan]
        exact encoded_of_scanAt hwf hscan p

/-- **The tokens of a well-formed text carry well-formed texts**, and an error in it
    blames one. -/
theorem tokenize_encoded {source : Bytes} (hwf : isWellFormed source = true) :
    Gives (tokenize source) (fun tokens => ∀ t ∈ tokens, t.lexeme.Encoded) LexError.Encoded :=
  tokensFrom_encoded .start hwf

end Lumen
