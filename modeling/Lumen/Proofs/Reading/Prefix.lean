/-
  Lumen.Proofs.Reading.Prefix — a text is rejected as soon as nothing can go on.

  A parse without checking that fails has stopped at some token.  The tokens before it
  are the beginning of a program, so the text is not rejected before it has to be
  and not after it either.

  There is one exception.  The type of a loop variable is read to its end, though
  nothing but `int` may stand there.  Where it is not `int`, no program goes on
  from its first token on; and the parse stops before the type is over, or just
  after it.

  Main statements:
    * `lexemes_take_append` — what has been read and what is put behind it;
    * `prefix_completes` — what a failed parse has read can go on, but for the
      exception, where it cannot.
-/
import Lumen.Proofs.Grammar.Loops
import Lumen.Proofs.Reading.StmtComplete
import Lumen.Proofs.Reading.StmtViable

namespace Lumen

/-! ## §1. Lexemes of token lists -/

/-- Lexemes as tokens that stand nowhere in particular. -/
def Token.ofLexemes (ls : List Lexeme) : List Token := ls.map (Token.mk · {})

theorem Token.isEof_of_mem_ofLexemes {ls : List Lexeme} (h : .eof ∉ ls) :
    ∀ t ∈ Token.ofLexemes ls, t.isEof = false := by
  intro t ht
  obtain ⟨l, hl, rfl⟩ := List.mem_map.mp ht
  have hne : l ≠ .eof := fun heq => h (heq ▸ hl)
  simpa [Token.isEof] using hne

/-- The end token is not one of the lexemes. -/
theorem Token.lexemes_ofLexemes {ls : List Lexeme} (h : .eof ∉ ls) :
    Token.lexemes (Token.ofLexemes ls ++ [⟨.eof, {}⟩]) = ls := by
  have hne : ∀ l ∈ ls, (l != .eof) = true := by
    intro l hl
    rw [bne_iff_ne]
    rintro rfl
    exact h hl
  have hmap : (Token.ofLexemes ls ++ [Token.mk .eof {}]).map Token.lexeme = ls ++ [.eof] := by
    simp [Token.ofLexemes, Function.comp_def]
  unfold Token.lexemes
  rw [hmap, List.takeWhile_append_of_pos hne]
  simp

/-- The tokens that have been read, with others behind them. -/
theorem Cursor.lexemes_take_append {c : Cursor} {ls : List Lexeme}
    (hbefore : c.before.reverse.map Token.lexeme = ls) (hls : .eof ∉ ls) (more : List Token) :
    Token.lexemes (c.tokens.take c.position ++ more) = ls ++ Token.lexemes more := by
  have htake : c.tokens.take c.position = c.before.reverse := by
    unfold Cursor.tokens Cursor.position
    rw [← List.length_reverse, List.take_left]
  have hne : ∀ l ∈ ls, (l != .eof) = true := by
    intro l hl
    rw [bne_iff_ne]
    rintro rfl
    exact hls hl
  unfold Token.lexemes
  rw [htake, List.map_append, hbefore, List.takeWhile_append_of_pos hne]

namespace Parse

/-! ## §2. Prefixes of programs -/

/-- A type that is not `int` does not start with it. -/
theorem ne_int_of_prefix {ty : Ty} {l : Lexeme} {ls : List Lexeme} (h : l :: ls <+: ty.lexemes)
    (hdecl : ty.isDeclarable = true) (hne : ty ≠ .int) : l ≠ .word .int := by
  rintro rfl
  cases ty with
  | int => exact hne rfl
  | any => cases hdecl
  | _ => simp [Ty.lexemes, List.cons_prefix_cons] at h

/-- In the type of a loop variable that is not `int` nothing can go on. -/
theorem not_accepted_of_inLoopType {c : Cursor} (h : InLoopType c) {trace : Bool}
    (hread : .eof ∉ c.before.reverse.map Token.lexeme) (more : List Token) (p : Program)
    (t : State) :
    whole { checked := false, trace } (c.tokens.take c.position ++ more) ≠ .ok p t := by
  intro hrun
  obtain ⟨-, hspells⟩ := (program_accepts_iff _ trace p).mp ⟨p, t, hrun, rfl⟩
  obtain ⟨front, var, ty, ls, hbefore, hls, hty, hdecl, hne⟩ := h
  rw [Cursor.lexemes_take_append hbefore (hbefore ▸ hread)] at hspells
  cases ls with
  | nil => exact hls rfl
  -- the first lexeme of the type stands where a program has `int`
  | cons l ls =>
    apply ne_int_of_prefix hty hdecl hne
    exact Program.loopsOverInt_of_spells hspells front (.ident var) (.mark .colon) l
      (ls ++ Token.lexemes more) (by simp)

/-- **What has been read can go on.**  If a parse without checking fails, and not in
    the type of a loop variable, then the tokens before the cursor are the beginning
    of a program: with some others behind them, and then the end, they are accepted.
    In the type of a loop variable they are not, whatever is put behind them. -/
theorem prefix_completes (tokens : List Token) (trace : Bool) {f : Failure} {s : State}
    (h : whole { checked := false, trace } tokens = .error f s) :
    (¬ InLoopType s.cursor → ∃ more p t, (∀ u ∈ more, u.isEof = false)
        ∧ whole { checked := false, trace }
            (s.cursor.tokens.take s.cursor.position ++ (more ++ [⟨.eof, {}⟩])) = .ok p t)
      ∧ (InLoopType s.cursor → ∀ more p t,
        whole { checked := false, trace }
          (s.cursor.tokens.take s.cursor.position ++ more) ≠ .ok p t) := by
  have hoff : ({ checked := false, trace } : Options).checked = false := rfl
  obtain ⟨ls, hreach, hstop⟩ := (program_viable hoff _).of_error h
  have hbefore : s.cursor.before.reverse.map Token.lexeme = ls := hreach.before
  have hread := hreach.eof_notMem
  constructor
  · intro hloop
    obtain ⟨p, more, hmore, -, hlevel, hspells⟩ := hstop.resolve_left hloop
    -- what was read, and what can come after it, is the text of a program
    have hwritten : Program.Spells p (ls ++ more) := by
      have hend := hspells [] rfl
      rwa [List.append_nil] at hend
    rw [← Token.lexemes_ofLexemes hmore, ← Cursor.lexemes_take_append hbefore hread] at hwritten
    obtain ⟨p', t, hrun, -⟩ := (program_accepts_iff _ trace p).mpr ⟨hlevel, hwritten⟩
    exact ⟨Token.ofLexemes more, p', t, Token.isEof_of_mem_ofLexemes hmore, hrun⟩
  · exact fun hloop => not_accepted_of_inLoopType hloop (hbefore ▸ hread)

/-- `while f(x, end`. -/
def brokenCall : List Token :=
  Token.ofLexemes [.word .while_, .ident [102], .mark .lparen, .ident [120], .mark .comma,
    .word .end_]

/-- `for x: float = 1 .. 2 end`. -/
def floatLoop : List Token :=
  Token.ofLexemes [.word .for_, .ident [120], .mark .colon, .word .float, .mark .equal,
    .literal (.int 1), .mark .dotDot, .literal (.int 2), .word .end_]

/-- In the first an argument is missing, and up to there it goes on to a program; up to
    the type in the second nothing does. -/
theorem prefix_completes_two :
    (∃ f s more p t, whole { checked := false, trace := false } brokenCall = .error f s
        ∧ s.cursor.position = 5
        ∧ whole { checked := false, trace := false }
            (s.cursor.tokens.take s.cursor.position ++ (more ++ [⟨.eof, {}⟩])) = .ok p t)
      ∧ ∃ f s, whole { checked := false, trace := false } floatLoop = .error f s
        ∧ s.cursor.position = 4
        ∧ ∀ more p t, whole { checked := false, trace := false }
            (s.cursor.tokens.take s.cursor.position ++ more) ≠ .ok p t := by
  constructor
  · obtain ⟨f, s, hrun, hread⟩ :
        ∃ f s, whole { checked := false, trace := false } brokenCall = .error f s
          ∧ s.cursor.before.reverse.map Token.lexeme
            = [.word .while_, .ident [102], .mark .lparen, .ident [120], .mark .comma] :=
      Ends.exists_error (by decide +kernel)
    have hnot : ¬ InLoopType s.cursor := by
      rintro ⟨front, var, ty, ls, hbefore, -⟩
      have hfor : .word .for_ ∈ s.cursor.before.reverse.map Token.lexeme := by simp [hbefore]
      rw [hread] at hfor
      revert hfor
      decide
    obtain ⟨more, p, t, -, hdone⟩ := (prefix_completes brokenCall false hrun).1 hnot
    have hlength := congrArg List.length hread
    simp only [List.length_map, List.length_reverse] at hlength
    exact ⟨f, s, more, p, t, hrun, hlength, hdone⟩
  · obtain ⟨f, s, hrun, hread⟩ :
        ∃ f s, whole { checked := false, trace := false } floatLoop = .error f s
          ∧ s.cursor.before.reverse.map Token.lexeme
            = [.word .for_, .ident [120], .mark .colon, .word .float] :=
      Ends.exists_error (by decide +kernel)
    have hin : InLoopType s.cursor :=
      ⟨[], [120], .float, [.word .float], hread, List.cons_ne_nil _ _, List.prefix_refl _, rfl,
        by decide⟩
    have hlength := congrArg List.length hread
    simp only [List.length_map, List.length_reverse] at hlength
    exact ⟨f, s, hrun, hlength, (prefix_completes floatLoop false hrun).2 hin⟩

end Parse
end Lumen
