/-
  Lumen.Proofs.Checking.Located — where errors stand.

  A parser stops either at a token that it did not want, and then that token stands
  at the cursor, or at a check, which blames the place of a token that was read.
  The end token is never passed, so there is always a token at the cursor.  And
  nothing else goes wrong: scopes are closed as often as they are opened, tokens
  are there when they are read, steps do not run out, and no binding refuses a
  value.

  So an error always has a place.  It is that of a token in the parser's list, where
  each `>=` that closed a type has become two tokens; and for a source text it is
  a place of that text.

  Main statements:
    * `exists_token_of_meets` — an error from tokens has the place of one;
    * `whole_located` — the errors of a source text.
-/
import Lumen.Proofs.Checking.Inline
import Lumen.Proofs.Lexing.Tiling
import Lumen.Proofs.Reading.StmtDrawn

namespace Lumen
namespace Parse

/-! ## §1. Errors have places -/

/-- An error has the place of the token at the cursor, or it blames another one. -/
theorem exists_token_of_meets {T : Token → Prop} {c : Cursor} {e : ParseError}
    (heof : ∃ t ∈ c.ahead, t.isEof = true) (h : Meets (Blamed T) c (.error e))
    (hrefused : e.isRefused = false) :
    ∃ t, e.pos? = some t.pos
      ∧ (c.current? = some t ∨ T t ∧ e.kindName ≠ "unexpected-token") := by
  -- what is met stands at the cursor; what is judged stands where a token was
  cases e with
  | unexpected expected met =>
    obtain ⟨before, ahead⟩ := c
    obtain rfl : ahead.head? = met := h
    obtain ⟨t, ht, -⟩ := heof
    cases ahead with
    | nil => cases ht
    | cons first rest => exact ⟨first, rfl, .inl rfl⟩
  | unknownStatement met => exact ⟨met, rfl, .inl h⟩
  | strayTerminator met => exact ⟨met, rfl, .inl h⟩
  | undeclared name pos => exact ⟨_, rfl, .inr ⟨h, by simp [ParseError.kindName]⟩⟩
  | mismatch name wanted got pos =>
    obtain ⟨t, ht, rfl⟩ := h
    exact ⟨t, rfl, .inr ⟨ht, by simp [ParseError.kindName]⟩⟩
  | duplicateFunction name pos =>
    obtain ⟨t, ht, rfl⟩ := h
    exact ⟨t, rfl, .inr ⟨ht, by simp [ParseError.kindName]⟩⟩
  | arity name expected found pos =>
    obtain ⟨t, ht, rfl⟩ := h
    exact ⟨t, rfl, .inr ⟨ht, by simp [ParseError.kindName]⟩⟩
  | refused => cases hrefused

/-! ## §2. Errors of a source text -/

/-- Every token that a parser has of a source, the halves of a `>=` too, has a place
    there. -/
theorem isIn_of_reaches {source : Bytes} {tokens : List Token} (h : Tiled [] source tokens)
    {ls : List Lexeme} {c : Cursor} (hreach : (Cursor.ofTokens tokens).Reaches ls c) {t : Token}
    (ht : t ∈ c.tokens) : t.pos.IsIn source := by
  rcases hreach.mem_tokens t ht with hold | ⟨p, hge, rfl | rfl⟩
  · exact (h.place t hold).2
  · exact (h.place _ hge).2
  · exact h.right_place _ hge rfl

/-- What is missing where a token was not wanted is told by whether the text has
    ended. -/
theorem found_of_current {c : Cursor} {B : ParseError → Prop} {e : ParseError} {t : Token}
    (h : Meets B c (.error e)) (hkind : e.kindName = "unexpected-token")
    (ht : c.current? = some t) :
    (e.found? = none ↔ t.isEof = true)
      ∧ (t.isEof = true → e.foundText = ascii "end of input") := by
  cases e with
  | unexpected expected met =>
    obtain rfl : c.current? = met := h
    rw [ht]
    have hfound : (ParseError.unexpected expected (some t)).found?
        = if t.isEof = true then none else some t := by
      by_cases heof : t.isEof = true
      · simp [ParseError.found?, heof]
      · simp [ParseError.found?, heof]
    refine ⟨by rw [hfound]; simp, ?_⟩
    intro heof
    unfold ParseError.foundText
    dsimp only
    rw [hfound, if_pos heof]
    rfl
  | refused name why pos => cases why <;> simp [ParseError.kindName] at hkind
  | _ => simp [ParseError.kindName] at hkind

/-- **Errors are located.**  Whatever a fresh parser reports of a source text,
    checked or not, is an error in it.  It has the place of a token in the parser's
    list, and that is a place of the source.  If a token was not wanted, it is the
    one at the cursor; no token was found just if that is the end, and then the end
    of the input is what is named. -/
theorem whole_located {source : Bytes} {tokens : List Token} (htokens : tokenize source = .ok tokens)
    (o : Options) {f : Failure} {s : State} (hrun : whole o tokens = .error f s) :
    ∃ e t, f = .error e ∧ t ∈ s.cursor.tokens ∧ e.pos? = some t.pos ∧ t.pos.IsIn source
      ∧ (e.kindName = "unexpected-token" → s.cursor.current? = some t
        ∧ (e.found? = none ↔ t.isEof = true)
        ∧ (t.isEof = true → e.foundText = ascii "end of input")) := by
  obtain ⟨htiled, ⟨front, last, hlast, hlexeme, -⟩, -⟩ := tokenize_tiles htokens
  have hcases := (program_error_cases o tokens #[]).of_error hrun
  obtain ⟨⟨ls, hreach⟩, hmeets⟩ :=
    (program_blamed (supplies_reached (.ofTokens tokens)) o _ ⟨[], .refl⟩).of_error hrun
  have heof : ∃ t ∈ s.cursor.ahead, t.isEof = true := by
    apply hreach.exists_eof
    refine ⟨last, ?_, by simp [Token.isEof, hlexeme]⟩
    show last ∈ tokens
    simp [hlast]
  cases f with
  | error e =>
    -- a refusal would have no place, but no value is refused after the checks
    obtain ⟨t, hpos, ht⟩ := exists_token_of_meets heof hmeets (not_refused_of_cases hcases)
    rcases ht with hcurrent | ⟨⟨u, hu, hsame⟩, hkind⟩
    · have hmem := Cursor.mem_tokens_of_current? hcurrent
      exact ⟨e, t, rfl, hmem, hpos, isIn_of_reaches htiled hreach hmem,
        fun hkind => ⟨hcurrent, found_of_current hmeets hkind hcurrent⟩⟩
    -- the place is that of a token from the start, and splitting has kept it
    · obtain ⟨v, hv, hplace⟩ := hreach.exists_pos u hu
      rw [← hsame, ← hplace] at hpos
      exact ⟨e, v, rfl, hv, hpos, isIn_of_reaches htiled hreach hv,
        fun h => absurd h hkind⟩
  | _ => rcases hcases with h | h <;> cases h

/-- The place of the error that a fresh parser reports of a source text. -/
def errorPlace? (o : Options) (source : Bytes) : Option Pos :=
  match tokenize source with
  | .error _ => none
  | .ok tokens =>
    match whole o tokens with
    | .error (.error e) _ => e.pos?
    | _ => none

theorem exists_of_errorPlace? {o : Options} {source : Bytes} {p : Pos}
    (h : errorPlace? o source = some p) :
    ∃ tokens e s, tokenize source = .ok tokens ∧ whole o tokens = .error (.error e) s
      ∧ e.pos? = some p := by
  unfold errorPlace? at h
  split at h
  · cases h
  · next tokens htokens =>
    split at h
    · next e s hrun => exact ⟨tokens, e, s, htokens, hrun, h⟩
    · cases h

/-- The `>=` closes a type where no value may follow. -/
def halved : Bytes := ascii "fn f(x: list<int>=1)"

/-- The error stands at the second half, which is a token of its own by then. -/
theorem whole_located_half :
    ∃ tokens e s t, tokenize halved = .ok tokens
      ∧ whole { checked := true, trace := false } tokens = .error (.error e) s
      ∧ t ∈ s.cursor.tokens ∧ t.pos = ⟨17, 1, 18⟩ ∧ e.pos? = some t.pos ∧ t.pos.IsIn halved := by
  have hplace : errorPlace? { checked := true, trace := false } halved = some ⟨17, 1, 18⟩ := by
    decide +kernel
  obtain ⟨tokens, e, s, htokens, hrun, hp⟩ := exists_of_errorPlace? hplace
  obtain ⟨e', t, hf, ht, hpos, hin, -⟩ := whole_located htokens _ hrun
  obtain rfl : e = e' := Failure.error.inj hf
  have hsame : t.pos = ⟨17, 1, 18⟩ := Option.some.inj (hpos.symm.trans hp)
  exact ⟨tokens, e, s, t, htokens, hrun, ht, hsame, hpos, hin⟩

end Parse
end Lumen
