/-
  Lumen.Proofs.Reading.Strays — where the end of a block is not wanted.

  Within a block, `end` and `else` are what the statements of it stop at.  So they are
  found not to be wanted only between two statements of a program, where no block is
  open: what stands before is a program of its own.  And wherever one of them comes
  after a program, it is found not to be wanted, for nothing of the program goes on
  there.

  Main statements:
    * `topStmt_stray`, `topStmts_of_terminator` — the statement that is not there;
    * `program_of_stray`, `stray_of_program` — what stands before a stray terminator;
    * `blocks_balance` — balanced blocks, and which terminators are stray.
-/
import Lumen.Proofs.Checking.Effects
import Lumen.Proofs.Grammar.Balance
import Lumen.Proofs.Reading.StmtRecurs
import Lumen.Proofs.Reading.StmtSpans

namespace Lumen

namespace Parse

/-! ## §1. Statements -/

section
variable (o : Options) {n : Nat} {s : State} {t : Token}

theorem topStmts_of_terminator (ht : s.cursor.token? = some t) (hl : t.IsTerminator) (n k : Nat) :
    ∃ trace, topStmts o (n + 1) (k + 1) s
      = .error (.error (.strayTerminator t)) { s with trace } := by
  have hlook : (HasCursor.cursor s).token? = some t := ht
  obtain ⟨trace, hnote⟩ := note_ok o (.statement t.pos.line t.lexeme) s
  refine ⟨trace, ?_⟩
  rw [topStmts, looks_bind token?_looks.lift, id, hlook]
  show (note o _ >>= _) s = _
  rw [bind_of_ok hnote]
  exact bind_of_error (stmt_of_terminator (s := { s with trace }) o ht hl n)

/-- A terminator is found not to be wanted where a statement is to start, and it is at the
    cursor then. -/
theorem topStmt_stray (n : Nat) (s : State) :
    Ends (topStmt o n) s (fun _ _ => True) fun f t => f.isStray = true →
      ∃ x, s.cursor.token? = some x ∧ x.IsTerminator ∧ f = .error (.strayTerminator x)
        ∧ t.cursor = s.cursor := by
  unfold topStmt
  rw [ends_looks token?_looks.lift]
  split
  · exact fun h => by cases h
  · rw [ends_bind]
    apply ends_note
    intro trace
    rw [ends_bind]
    apply (stmt_ends o n ⟨s.cursor, s.env, trace⟩).mono
    · intro a t _
      rw [ends_bind]
      apply Ends.mono ((enactTop_aside o a).takesAt t)
      · exact fun _ _ _ => trivial
      · -- what takes effect may fail, but not over a terminator
        intro f t' hapart hstray
        rw [hapart] at hstray
        cases hstray
    · intro f t hends hstray
      obtain ⟨x, hx, hl, rfl, rfl⟩ := hends hstray
      exact ⟨x, hx, hl, rfl, rfl⟩

end

/-! ## §2. Programs -/

/-- Where the first end token stands last, what comes before an end token is all the rest. -/
theorem eq_of_append_eof {pre u rest : List Token} {e x : Token} (h : pre ++ [e] = u ++ x :: rest)
    (hpre : ∀ y ∈ pre, y.isEof = false) (hx : x.isEof = true) : u = pre := by
  obtain ⟨as, rfl, has⟩ | ⟨bs, rfl, hbs⟩ := List.append_eq_append_iff.mp h
  · obtain ⟨rfl, -⟩ := List.append_eq_singleton_iff.mp has.symm |>.resolve_right (by simp)
    exact List.append_nil pre
  · cases bs with
    | nil => exact (List.append_nil u).symm
    | cons y bs =>
      obtain rfl : x = y := (List.cons.inj hbs).1
      rw [hpre x (by simp)] at hx
      cases hx

theorem lexemes_of_terminated {body : List Token} {e : Token}
    (hbody : ∀ x ∈ body, x.isEof = false) (he : e.isEof = true) :
    Token.lexemes (body ++ [e]) = body.map Token.lexeme := by
  have hne : ∀ l ∈ body.map Token.lexeme, (l != .eof) = true := by
    intro l hl
    obtain ⟨x, hx, rfl⟩ := List.mem_map.mp hl
    rw [bne, ← Token.isEof, hbody x hx]
    rfl
  have heof : e.lexeme = .eof := eq_of_beq he
  rw [Token.lexemes, List.map_append, List.takeWhile_append_of_pos hne]
  simp [heof]

theorem closes_of_terminator {t : Token} (hl : t.IsTerminator) (rest : List Token) :
    closes (Token.lexemes (t :: rest)) = true := by
  obtain ⟨l, p⟩ := t
  rcases hl with hl | hl
  · obtain rfl : l = .word .end_ := hl
    rfl
  · obtain rfl : l = .word .else_ := hl
    rfl

theorem isEof_of_terminator {t : Token} (hl : t.IsTerminator) : t.isEof = false := by
  rcases hl with hl | hl
  · simp [Token.isEof, hl]
  · simp [Token.isEof, hl]

theorem closes_eof {e : Token} (he : e.isEof = true) : closes (Token.lexemes [e]) = true := by
  obtain ⟨l, p⟩ := e
  obtain rfl : l = .eof := eq_of_beq he
  rfl

section
variable (o : Options) {s c : State} {t e : Token} {pre post : List Token}

/-- What stands before a stray terminator is a program. -/
theorem program_of_stray (h : program o s = .error (.error (.strayTerminator t)) c) :
    t.IsTerminator ∧ ∃ pre post, s.cursor.ahead = pre ++ t :: post
      ∧ c.cursor.ahead = t :: post
      ∧ ∀ e : Token, e.isEof = true → ∃ p c', program o (facing s (pre ++ [e])) = .ok p c' := by
  have hrun := steps_of_program_error o (Nat.lt_succ_self _) h
  obtain hout | ⟨count, p, s₁, hcount, hfirst, hfail⟩ :=
    (topStmts_run o _ _ s).of_error hrun
  · cases hout
  obtain ⟨x, hx, hl, heq, hcursor⟩ := (topStmt_stray o _ s₁).of_error hfail rfl
  cases heq
  obtain ⟨pre, -, hs, -, hagain⟩ := (firstStmts_recurs o _ count s).of_ok hfirst
  have hahead : s₁.cursor.ahead = t :: (s₁.cursor.past t).ahead := ahead_of_token? hx
  refine ⟨hl, pre, (s₁.cursor.past t).ahead, ?_, ?_, fun e he => ?_⟩
  · rw [← hahead]
    exact hs
  · rw [hcursor]
    exact hahead
  -- the same statements are read in front of the end, and there is no other then
  · have hclose : (facing s₁ [e]).cursor.token? = none := by
      show Option.filter _ (some e) = none
      simp [he]
    have hsame := hagain [e] (suits_of_closes (closes_eof he) s₁)
    have hafter := (topStmts_after o _ count _).of_ok hsame 1
    rw [bind_of_ok (topStmts_of_none o _ hclose 0)] at hafter
    obtain ⟨trace, hprogram⟩ := program_of_steps o hafter
    exact ⟨_, _, hprogram⟩

/-- A program is read up to the end token. -/
theorem eof_ahead {p : Program} (h : program o s = .ok p c)
    (heof : ∃ e ∈ s.cursor.ahead, e.isEof = true) :
    ∃ x rest, c.cursor.ahead = x :: rest ∧ x.isEof = true := by
  obtain ⟨ls, hreach⟩ := (program_reaches o s).of_ok h
  have hend := (program_atEnd o s).of_ok h
  obtain ⟨x, hx, hxeof⟩ := isEof_of_token?_eq_none (hreach.exists_eof heof) hend
  obtain ⟨rest, hahead⟩ := List.head?_eq_some_iff.mp hx
  exact ⟨x, rest, hahead, hxeof⟩

/-- Wherever a terminator comes after a program, it is stray. -/
theorem stray_of_program {p : Program} (h : program o (facing s (pre ++ [e])) = .ok p c)
    (hpre : ∀ x ∈ pre, x.isEof = false) (he : e.isEof = true) (hl : t.IsTerminator)
    (post : List Token) :
    ∃ c', program o (facing s (pre ++ t :: post)) = .error (.error (.strayTerminator t)) c'
      ∧ c'.cursor.ahead = t :: post := by
  obtain ⟨u, trace, hs, hagain⟩ := program_again o (Nat.lt_succ_self _) h
  -- the end token stays ahead, so all that stands before it has been read
  obtain ⟨x, rest, hahead, hx⟩ := eof_ahead o h ⟨e, List.mem_append_right pre (by simp), he⟩
  obtain rfl : u = pre := eq_of_append_eof (hs.trans (congrArg (u ++ ·) hahead)) hpre hx
  have hclose : (facing { c with trace } (t :: post)).cursor.token? = some t :=
    token?_of_ahead rfl (isEof_of_terminator hl)
  have hafter := hagain (t :: post) (suits_of_closes (closes_of_terminator hl post) c) 1
  obtain ⟨trace', hstray⟩ := topStmts_of_terminator o hclose hl _ 0
  exact ⟨_, program_of_steps_error o (hafter.trans (bind_of_error hstray)) Failure.noConfusion, rfl⟩

end

/-! ## §3. Whole token lists -/

section
variable (o : Options) {body : List Token} {e : Token} (hbody : ∀ x ∈ body, x.isEof = false)
  (he : e.isEof = true)
include hbody he

/-- The text of what is read as a program is balanced, checked or not. -/
theorem balanced_of_accepted {p : Program} {c : State} (h : whole o (body ++ [e]) = .ok p c) :
    Balanced (body.map Token.lexeme) := by
  have hspells : p.Spells (Token.lexemes (body ++ [e])) := spells_of_program o h
  rw [lexemes_of_terminated hbody he] at hspells
  exact Program.balanced_of_spells hspells

/-- **Blocks are balanced, and stray terminators are those between statements.**  Let an end
    token stand last.  Where the tokens are read as a program, no block is closed in them that
    is not open, and none is left open.  A terminator is stray if and only if what stands
    before it, with an end token after it, is read as a program; so no block is open there.
    Nothing else is ever reported as a stray terminator, and not the end of the text. -/
theorem blocks_balance :
    (∀ p c, whole o (body ++ [e]) = .ok p c → Balanced ((body ++ [e]).map Token.lexeme))
      ∧ (∀ pre t post, body ++ [e] = pre ++ t :: post →
          ((∃ c, whole o (body ++ [e]) = .error (.error (.strayTerminator t)) c
              ∧ c.cursor.ahead = t :: post)
            ↔ t.IsTerminator ∧ ∃ p c, whole o (pre ++ [e]) = .ok p c))
      ∧ ∀ t c, whole o (body ++ [e]) = .error (.error (.strayTerminator t)) c →
          t.IsTerminator ∧ ∃ pre post, body ++ [e] = pre ++ t :: post
            ∧ c.cursor.ahead = t :: post ∧ Balanced (pre.map Token.lexeme) := by
  -- the end token stands last, so there is none in front of any token
  have hinside : ∀ {pre t post}, body ++ [e] = pre ++ t :: post →
      ∀ x ∈ pre, x.isEof = false := by
    intro pre t post heq x hx
    obtain ⟨as, rfl, has⟩ | ⟨bs, rfl, -⟩ := List.append_eq_append_iff.mp heq
    · cases as with
      | nil => exact hbody x (by simpa using hx)
      | cons y as => simp at has
    · exact hbody x (List.mem_append_left bs hx)
  refine ⟨fun p c h => ?_, fun pre t post heq => ⟨?_, ?_⟩, fun t c h => ?_⟩
  · have heof : (e.lexeme).isFlat = true := by
      rw [eq_of_beq (a := e.lexeme) he]
      rfl
    rw [List.map_append]
    exact (balanced_of_accepted o hbody he h).append
      (balanced_of_flat (List.forall_mem_singleton.mpr heof))
  · rintro ⟨c, h, hahead⟩
    obtain ⟨hl, pre', post', hs, hahead', hprogram⟩ := program_of_stray o h
    obtain rfl : post' = post := (List.cons.inj (hahead'.symm.trans hahead)).2
    obtain rfl : pre' = pre := List.append_cancel_right (hs.symm.trans heq)
    exact ⟨hl, hprogram e he⟩
  · rintro ⟨hl, p, c, h⟩
    have hstray := stray_of_program (s := { cursor := .ofTokens [] }) o h (hinside heq) he hl post
    rw [heq]
    exact hstray
  · obtain ⟨hl, pre, post, hs, hahead, hprogram⟩ := program_of_stray o h
    obtain ⟨p, c', hrun⟩ := hprogram e he
    exact ⟨hl, pre, post, hs, hahead, balanced_of_accepted o (hinside hs) he hrun⟩

end

/-- `if true end` is a program, and an `end` after it is stray. -/
theorem blocks_balance_end :
    let body : List Token :=
      [⟨.word .if_, ⟨0, 1, 1⟩⟩, ⟨.literal (.bool true), ⟨3, 1, 4⟩⟩, ⟨.word .end_, ⟨8, 1, 9⟩⟩]
    let stray : Token := ⟨.word .end_, ⟨12, 1, 13⟩⟩
    let e : Token := ⟨.eof, ⟨15, 1, 16⟩⟩
    (∃ p c, whole {} (body ++ [e]) = .ok p c) ∧ Balanced ((body ++ [e]).map Token.lexeme)
      ∧ ∃ c, whole {} ((body ++ [stray]) ++ [e]) = .error (.error (.strayTerminator stray)) c
        ∧ c.cursor.ahead = [stray, e] := by
  intro body stray e
  obtain ⟨p, c, hrun⟩ : ∃ p c, whole {} (body ++ [e]) = .ok p c := Ends.gives (by decide +kernel)
  have hbody : ∀ x ∈ body, x.isEof = false := by decide
  have hboth : ∀ x ∈ body ++ [stray], x.isEof = false := by decide
  refine ⟨⟨p, c, hrun⟩, (blocks_balance {} hbody rfl).1 p c hrun, ?_⟩
  exact ((blocks_balance {} hboth rfl).2.1 body stray [e] rfl).mpr ⟨.inl rfl, p, c, hrun⟩

end Parse
end Lumen
