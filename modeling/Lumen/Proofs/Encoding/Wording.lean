/-
  Lumen.Proofs.Encoding.Wording — what messages say is well-formed.

  A message is put together from fixed wordings, numbers, types, and texts of the
  source.  The first three are ASCII.  A name stands in a message as it is; a string is
  quoted again, and the quoted string decodes to it, so it is well-formed as well.

  Hence an error says well-formed texts only, if the tokens and the names that it is
  about carry such texts.

  Main statements:
    * `isAscii_text` — numbers are ASCII;
    * `isWellFormed_quoted` — a string that is quoted again;
    * `Lexeme.Encoded.describe` — a token, as messages speak of it;
    * `LexError.Encoded.message` / `ParseError.Encoded.worded` — what errors say.
-/
import Lumen.Proofs.Encoding.Tokens

namespace Lumen

open Utf8

/-! ## §1. Fixed wordings, numbers and types -/

section
variable {s t : Bytes}

theorem Bytes.IsAscii.append (hs : s.IsAscii) (ht : t.IsAscii) : Bytes.IsAscii (s ++ t) :=
  List.forall_mem_append.mpr ⟨hs, ht⟩

theorem ascii_append (a b : String) : ascii (a ++ b) = ascii a ++ ascii b := by
  simp [ascii]

theorem isAscii_decimal (n : Nat) : (decimal n).IsAscii :=
  isAscii_of_isNumeral (isNumeral_decimal n)

theorem isAscii_decimalInt (n : Int) : (decimalInt n).IsAscii := by
  unfold decimalInt
  split
  · exact List.forall_mem_cons.mpr ⟨by decide, isAscii_decimal _⟩
  · exact isAscii_decimal _

theorem Binary64.isAscii_text (x : Binary64) : x.text.IsAscii := by
  have hunsigned : x.unsignedText.IsAscii := by
    unfold unsignedText
    split
    · decide
    split
    · decide
    split
    · exact isAscii_of_isNumeral (isNumeral_plain _)
    · exact isAscii_of_isNumeral (isNumeral_fixed _ _)
  unfold text
  split
  · exact List.forall_mem_cons.mpr ⟨by decide, hunsigned⟩
  · exact hunsigned

theorem Ty.isAscii_text (t : Ty) : (ascii t.text).IsAscii := by
  induction t with
  | list elem ih =>
    rw [text, ascii_append, ascii_append]
    exact (Bytes.IsAscii.append (by decide) ih).append (by decide)
  | _ => decide

theorem Word.isAscii_spelling (w : Word) : (ascii w.spelling).IsAscii := by
  cases w <;> decide

theorem Lexeme.isAscii_kindName (l : Lexeme) : (ascii l.kindName).IsAscii := by
  have hquote : (ascii "'").IsAscii := by decide
  have hfixed : ∀ name ∈ ["end of input", "identifier", "integer literal", "float literal",
      "string literal", "boolean literal"], (ascii name).IsAscii := by decide
  cases l with
  | eof | ident => exact hfixed _ (by simp [kindName])
  | literal v => exact hfixed _ (by cases v <;> simp [kindName])
  | word w =>
    rw [kindName, ascii_append, ascii_append]
    exact (hquote.append w.isAscii_spelling).append hquote
  | mark m =>
    rw [kindName, ascii_append, ascii_append]
    exact (hquote.append m.isAscii_bytes).append hquote

/-! ## §2. Strings -/

/-- What stands between the quotes of a quoted string decodes to it. -/
theorem decodes_quotedBody (s : Bytes) : Decodes (quotedBody s) s := by
  obtain ⟨body, rest, htext, hlen, hdecodes⟩ :=
    decodes_of_stringBody? (stringBody?_quotedBody s [])
  obtain ⟨rfl, -⟩ := List.append_inj htext (Nat.succ.inj hlen)
  exact hdecodes

theorem isWellFormed_quoted (hs : isWellFormed s = true) : isWellFormed (quoted s) = true := by
  have hbody : isWellFormed (quotedBody s) = true := by
    rw [isWellFormed_iff] at hs ⊢
    rwa [(decodes_quotedBody s).after_eq beyond_nil]
  unfold quoted
  rw [isWellFormed_cons (by decide)]
  exact isWellFormed_append hbody (isWellFormed_of_isAscii (by decide))

/-! ## §3. Tokens -/

/-- Something well-formed after a fixed wording. -/
theorem isWellFormed_ascii_append (wording : String) (hwording : (ascii wording).IsAscii)
    (ht : isWellFormed t = true) : isWellFormed (ascii wording ++ t) = true := by
  rwa [isWellFormed_of_isAscii_append hwording]

end

/-- A literal carries well-formed text if its text is. -/
theorem Lexeme.Encoded.text {v : Literal} (h : (literal v).Encoded) :
    isWellFormed v.text = true := by
  cases v with
  | int n => exact isWellFormed_of_isAscii (isAscii_decimalInt _)
  | float x => exact isWellFormed_of_isAscii x.isAscii_text
  | str s => exact isWellFormed_quoted (h s rfl)
  | bool b => cases b <;> exact isWellFormed_of_isAscii (by decide)

theorem Lexeme.Encoded.describe {l : Lexeme} (h : l.Encoded) : isWellFormed l.describe = true := by
  cases l with
  | ident name =>
    have hname : isWellFormed name = true := h name rfl
    exact isWellFormed_append (isWellFormed_ascii_append _ (by decide) hname)
      (isWellFormed_of_isAscii (by decide))
  | literal v => cases v <;> exact isWellFormed_ascii_append _ (by decide) h.text
  | eof | word | mark => exact isWellFormed_of_isAscii (isAscii_kindName _)

/-! ## §4. Errors -/

theorem LexErrorKind.isAscii_name (k : LexErrorKind) : (ascii k.name).IsAscii := by
  cases k <;> decide

theorem ParseError.isAscii_kindName (e : ParseError) : (ascii e.kindName).IsAscii := by
  have hall : ∀ kind ∈ ["unexpected-token", "unknown-statement", "malformed-block",
      "undeclared-variable", "type-mismatch", "duplicate-function", "arity-mismatch"],
      (ascii kind).IsAscii := by decide
  apply hall
  cases e with
  | refused name why pos => cases why <;> simp [kindName]
  | _ => simp [kindName]

/-- **The message of an error in the text.** -/
theorem LexError.Encoded.message {e : LexError} (h : e.Encoded) :
    isWellFormed e.message = true := by
  unfold LexError.message
  split
  · exact isWellFormed_append (isWellFormed_ascii_append _ (by decide) h.text)
      (isWellFormed_of_isAscii (by decide))
  · exact isWellFormed_of_isAscii (by decide)
  · exact isWellFormed_append (isWellFormed_append (isWellFormed_ascii_append _ (by decide) h.text)
      (isWellFormed_of_isAscii (by decide))) (isWellFormed_of_isAscii (isAscii_decimal _))

/-- Whether a literal that stands in the wrong place carries well-formed text. -/
def Got.Encoded : Got → Prop
  | literal v => (Lexeme.literal v).Encoded
  | type _ | list => True

/-- Whether the tokens and the names that an error is about carry well-formed texts. -/
def ParseError.Encoded : ParseError → Prop
  | unexpected _ met => ∀ t ∈ met, t.lexeme.Encoded
  | unknownStatement met | strayTerminator met => met.lexeme.Encoded
  | mismatch name _ got _ => isWellFormed name = true ∧ got.Encoded
  | undeclared name _ | duplicateFunction name _ | arity name _ _ _ => isWellFormed name = true
  | refused name .unbound _ => isWellFormed name = true
  | refused name (.misfit _ part) _ => isWellFormed name = true ∧ isWellFormed part.named = true

/-- Whether all that an error says is well-formed. -/
structure ParseError.Worded (e : ParseError) : Prop where
  message : isWellFormed e.message = true
  expected : isWellFormed e.expectedText = true
  found : isWellFormed e.foundText = true
  name : isWellFormed e.name = true

theorem Expected.isAscii_text (e : Expected) : e.text.IsAscii := by
  cases e with
  | word w => exact (Lexeme.word w).isAscii_kindName
  | mark m => exact (Lexeme.mark m).isAscii_kindName
  | _ => decide

theorem Wanted.isAscii_text (w : Wanted) : w.text.IsAscii := by
  cases w with
  | type t => exact t.isAscii_text
  | _ => decide

theorem Got.Encoded.text {got : Got} (h : got.Encoded) : isWellFormed got.text = true := by
  cases got with
  | type t => exact isWellFormed_of_isAscii t.isAscii_text
  | list => exact isWellFormed_of_isAscii (by decide)
  | literal v =>
    have hshapes : ∀ name ∈ ["int", "float", "string", "bool"], (ascii name).IsAscii := by decide
    have hshape : (ascii v.typeName).IsAscii :=
      hshapes _ (by cases v <;> simp [Literal.typeName])
    have htext : isWellFormed v.text = true := Lexeme.Encoded.text h
    exact isWellFormed_append (isWellFormed_append (isWellFormed_of_isAscii hshape)
      (isWellFormed_of_isAscii (by decide))) htext

namespace ParseError.Encoded

variable {e : ParseError}

theorem name (h : e.Encoded) : isWellFormed e.name = true := by
  cases e with
  | unexpected | unknownStatement | strayTerminator => exact isWellFormed_nil
  | mismatch => exact h.1
  | undeclared | duplicateFunction | arity => exact h
  | refused name why =>
    cases why with
    | unbound => exact h
    | misfit => exact h.1

theorem expected (h : e.Encoded) : isWellFormed e.expectedText = true := by
  cases e with
  | unexpected expected => exact isWellFormed_of_isAscii expected.isAscii_text
  | unknownStatement | strayTerminator =>
    have hstatement : (ascii "statement").IsAscii := by decide
    exact isWellFormed_of_isAscii hstatement
  | mismatch name wanted => exact isWellFormed_of_isAscii wanted.isAscii_text
  | arity => exact isWellFormed_of_isAscii (isAscii_decimal _)
  | undeclared | duplicateFunction => exact isWellFormed_nil
  | refused name why =>
    cases why with
    | unbound => exact isWellFormed_nil
    | misfit declared => exact isWellFormed_of_isAscii declared.isAscii_text

theorem found (h : e.Encoded) : isWellFormed e.foundText = true := by
  cases e with
  | unexpected expected met =>
    unfold foundText
    dsimp only
    split
    · next t ht =>
      have hmet : t ∈ met := (Option.filter_eq_some_iff.mp ht).1
      exact (h t hmet).describe
    · exact isWellFormed_of_isAscii (by decide)
  | unknownStatement met | strayTerminator met => exact Lexeme.Encoded.describe h
  | mismatch => exact h.2.text
  | arity => exact isWellFormed_of_isAscii (isAscii_decimal _)
  | undeclared | duplicateFunction => exact isWellFormed_nil
  | refused name why =>
    cases why with
    | unbound => exact isWellFormed_nil
    | misfit => exact h.2

theorem message (h : e.Encoded) : isWellFormed e.message = true := by
  have hname := h.name
  have hexpected := h.expected
  have hfound := h.found
  -- a name, between two wordings
  have hnamed : ∀ before after : String, (ascii before).IsAscii → (ascii after).IsAscii →
      isWellFormed (ascii before ++ e.name ++ ascii after) = true := by
    intro before after hbefore hafter
    exact isWellFormed_append (isWellFormed_ascii_append before hbefore hname)
      (isWellFormed_of_isAscii hafter)
  -- what was expected, and what was found
  have hboth : ∀ before between : String, (ascii before).IsAscii → (ascii between).IsAscii →
      isWellFormed (ascii before ++ e.expectedText ++ ascii between ++ e.foundText) = true := by
    intro before between hbefore hbetween
    have hfront := isWellFormed_append (isWellFormed_ascii_append before hbefore hexpected)
      (isWellFormed_of_isAscii hbetween)
    exact isWellFormed_append hfront hfound
  have hmismatch : isWellFormed (ascii "type mismatch"
      ++ (if e.name.isEmpty then [] else ascii " for '" ++ e.name ++ ascii "'")
      ++ ascii ": expected " ++ e.expectedText ++ ascii ", found " ++ e.foundText) = true := by
    have hfor : isWellFormed (ascii "type mismatch"
        ++ (if e.name.isEmpty then [] else ascii " for '" ++ e.name ++ ascii "'")) = true := by
      apply isWellFormed_ascii_append _ (by decide)
      split
      · exact isWellFormed_nil
      · exact hnamed _ _ (by decide) (by decide)
    have hrest := isWellFormed_append hfor (hboth ": expected " ", found " (by decide) (by decide))
    simpa only [List.append_assoc] using hrest
  cases e with
  | unexpected => exact hboth _ _ (by decide) (by decide)
  | unknownStatement => exact isWellFormed_ascii_append _ (by decide) hfound
  | strayTerminator => exact isWellFormed_append hfound (isWellFormed_of_isAscii (by decide))
  | undeclared => exact hnamed _ _ (by decide) (by decide)
  | mismatch => exact hmismatch
  | duplicateFunction => exact hnamed _ _ (by decide) (by decide)
  | arity name expected found =>
    have htakes := isWellFormed_append (hnamed "function '" "' takes " (by decide) (by decide))
      hexpected
    exact isWellFormed_append (isWellFormed_append (isWellFormed_append htakes
      (isWellFormed_of_isAscii (by decide))) hfound) (isWellFormed_of_isAscii (by decide))
  | refused name why =>
    cases why with
    | unbound => exact hnamed _ _ (by decide) (by decide)
    | misfit => exact hmismatch

/-- **What an error of the program says is well-formed.** -/
theorem worded (h : e.Encoded) : e.Worded where
  message := h.message
  expected := h.expected
  found := h.found
  name := h.name

end ParseError.Encoded

end Lumen
