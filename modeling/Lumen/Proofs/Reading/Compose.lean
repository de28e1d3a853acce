/-
  Lumen.Proofs.Reading.Compose — programs one after the other.

  Where a program ends, no token with which a statement starts goes on with it: neither
  an expression nor a type, nor the semicolon that is not there.  So a program that is put
  behind another is read as if it stood alone, in the environment that the first has left.

  Only a `return` at the end of the first program could go on: it would take what comes
  next for its value.

  Main statements:
    * `Reaches.getLast?` — the last token stays what it is;
    * `resumes_of_program` — what a program starts with;
    * `programs_compose` — two programs are read as one.
-/
import Lumen.Proofs.Checking.Effects
import Lumen.Proofs.Reading.Forward

namespace Lumen

/-! ## §1. The last token -/

/-- The last token is what it was, unless it was split. -/
theorem Cursor.Reaches.getLast? {c c' : Cursor} {ls : List Lexeme} (h : c.Reaches ls c')
    {l : Lexeme} (hl : l ≠ .mark .equal) (hlast : c'.tokens.getLast?.map Token.lexeme = some l) :
    c.tokens.getLast?.map Token.lexeme = some l := by
  induction h with
  | refl => exact hlast
  | past h ht ih =>
    rw [tokens_past (Option.filter_eq_some_iff.mp ht).1] at hlast
    exact ih hlast
  | @split c' ls h ih =>
    rcases c'.tokens_splitGe with hsame | ⟨p, rest, hwhole, hsplit⟩
    · rw [hsame] at hlast
      exact ih hlast
    · apply ih
      rw [hsplit] at hlast
      rw [hwhole]
      cases rest with
      | nil =>
        -- a split at the end would leave a `=` as the last token
        simp at hlast
        exact absurd hlast.symm hl
      | cons x rest => simpa [List.getLast?_append, List.getLast?_cons_cons] using hlast

namespace Parse

/-! ## §2. One program -/

section
variable (o : Options) {s t : State} {p : Program}

/-- Where a program is read, a statement starts or the text ends. -/
theorem resumes_of_program (h : program o s = .ok p t) : Resumes s.cursor.lexemes :=
  Stmt.resumes_of_allSpell (spells_of_program o h) resumes_nil

/-- Without an end token all tokens are read, and the last of them was read last. -/
theorem allRead_of_program {A : List Token} {env : Env} (hA : ∀ x ∈ A, x.isEof = false)
    (h : program o { cursor := .ofTokens A, env } = .ok p t) :
    t.cursor.ahead = [] ∧ ∀ l, l ≠ .mark .equal → lastRead? t = some l →
      A.getLast?.map Token.lexeme = some l := by
  obtain ⟨ls, hreach⟩ := (program_reaches o _).of_ok h
  have hend := (program_atEnd o _).of_ok h
  have hahead : t.cursor.ahead = [] := by
    cases hahead : t.cursor.ahead with
    | nil => rfl
    | cons x rest =>
      have hmem : x ∈ t.cursor.tokens := List.mem_append_right _ (by simp [hahead])
      -- no token of the text is an end token, and neither is a half of one
      have heof : x.isEof = false := by
        rcases hreach.mem_tokens x hmem with hold | ⟨q, -, rfl | rfl⟩
        · exact hA x hold
        · rfl
        · rfl
      rw [token?_of_ahead hahead heof] at hend
      cases hend
  refine ⟨hahead, fun l hl hlast => hreach.getLast? hl ?_⟩
  show (t.cursor.before.reverse ++ t.cursor.ahead).getLast?.map Token.lexeme = some l
  rw [hahead, List.append_nil, List.getLast?_reverse]
  exact hlast

end

/-! ## §3. Two programs -/

section
variable (o : Options) {A B : List Token} {env : Env} {P Q : Program} {s₁ s₂ : State}

/-- **Programs compose.**  Let some tokens without an end token be read as a program, of which
    the last is not `return`, and others as a program in the environment that this one leaves.
    Then all of them are read as the one program and the other after it, and they leave the
    environment that the other leaves. -/
theorem programs_compose (hA : ∀ x ∈ A, x.isEof = false)
    (hlast : A.getLast?.map Token.lexeme ≠ some (.word .return_))
    (hP : program o { cursor := .ofTokens A, env } = .ok P s₁)
    (hQ : program o { cursor := .ofTokens B, env := s₁.env } = .ok Q s₂) :
    ∃ s, program o { cursor := .ofTokens (A ++ B), env } = .ok (P ++ Q) s ∧ s.env = s₂.env := by
  obtain ⟨n, hn⟩ := exists_steps [{ cursor := .ofTokens A, env },
    { cursor := .ofTokens B, env := s₁.env }]
  obtain ⟨u, trace₁, hu, hagain⟩ := program_again o (hn _ (by simp)) hP
  obtain ⟨trace₂, hrunQ⟩ := steps_of_program o (hn _ (by simp)) hQ
  obtain ⟨hahead, hread⟩ := allRead_of_program o hA hP
  -- the first program is read again in front of the second
  have hall : A = u := hu.trans ((congrArg (u ++ ·) hahead).trans (List.append_nil u))
  have hsuits : Suits s₁ B :=
    ⟨resumes_of_program o hQ, fun hreturn => absurd (hread _ (by decide) hreturn) hlast⟩
  have hafter := hagain B hsuits n
  -- what is behind the second is of no consequence for it
  have hagree : State.AgreesAhead { cursor := .ofTokens B, env := s₁.env }
      (facing { s₁ with trace := trace₁ } B) := ⟨rfl, rfl⟩
  have hforward := topStmts_forward o n n _ _ hagree
  rw [hrunQ] at hforward
  cases hrun : topStmts o n n (facing { s₁ with trace := trace₁ } B) with
  | error f s =>
    rw [hrun] at hforward
    cases hforward
  | ok Q' s =>
    rw [hrun] at hforward
    cases hforward with
    | ok hview hstate =>
      obtain rfl : Q = Q' := hview
      obtain ⟨trace, hprogram⟩ := program_of_steps o (hafter.trans (bind_of_ok hrun))
      rw [← hall] at hprogram
      exact ⟨_, hprogram, hstate.env.symm⟩

end

/-- `let x: bool = true`, and then `print x`, which needs what the first declares. -/
theorem programs_compose_print :
    let A : List Token :=
      [⟨.word .let_, ⟨0, 1, 1⟩⟩, ⟨.ident [120], ⟨4, 1, 5⟩⟩, ⟨.mark .colon, ⟨5, 1, 6⟩⟩,
        ⟨.word .bool, ⟨7, 1, 8⟩⟩, ⟨.mark .equal, ⟨12, 1, 13⟩⟩, ⟨.literal (.bool true), ⟨14, 1, 15⟩⟩]
    let B : List Token :=
      [⟨.word .print, ⟨0, 1, 1⟩⟩, ⟨.ident [120], ⟨6, 1, 7⟩⟩, ⟨.eof, ⟨7, 1, 8⟩⟩]
    (∀ x ∈ A, x.isEof = false) ∧ A.getLast?.map Token.lexeme ≠ some (.word .return_)
      ∧ (∃ f s, program {} { cursor := .ofTokens B, env := {} } = .error f s)
      ∧ ∃ P s₁ Q s₂ s, program {} { cursor := .ofTokens A, env := {} } = .ok P s₁
        ∧ program {} { cursor := .ofTokens B, env := s₁.env } = .ok Q s₂
        ∧ program {} { cursor := .ofTokens (A ++ B), env := {} } = .ok (P ++ Q) s
        ∧ s.env = s₂.env := by
  intro A B
  have hA : ∀ x ∈ A, x.isEof = false := by decide
  have hlast : A.getLast?.map Token.lexeme ≠ some (.word .return_) := by decide
  have halone : ∃ f s, program {} { cursor := .ofTokens B, env := {} } = .error f s :=
    Ends.fails (by decide +kernel)
  obtain ⟨P, s₁, hP, hthen⟩ : ∃ P s₁, program {} { cursor := .ofTokens A, env := {} } = .ok P s₁
      ∧ Ends (program {}) { cursor := .ofTokens B, env := s₁.env } (fun _ _ => True)
        fun _ _ => False :=
    Ends.exists_ok (by decide +kernel)
  obtain ⟨Q, s₂, hQ⟩ := hthen.gives
  obtain ⟨s, hrun, henv⟩ := programs_compose {} hA hlast hP hQ
  exact ⟨hA, hlast, halone, P, s₁, Q, s₂, s, hP, hQ, hrun, henv⟩

end Parse
end Lumen
