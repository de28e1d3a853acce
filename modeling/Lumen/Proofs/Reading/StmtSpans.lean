/-
  Lumen.Proofs.Reading.StmtSpans — statements and programs span what was read for them.

  Each kind of statement starts with the token that tells it, and stands there.  A
  block takes its place from the token after its header before anything of it is read:
  that is the first token of its first statement, or, if it has none, the token that
  ends it.

  Where a block ends no statement is asked for, so inside of a statement nothing is
  taken for the end of a block that is not open.

  Main statements:
    * `block_takesAt`, `enclosed_takes` — blocks, and the word that ends them;
    * `letStmt_takesAt` … `fnStmt_takesAt` — the kinds of statements;
    * `stmt_takesAt`, `topStmts_ends` — statements and programs;
    * `pieces_stand_at_first` — every node stands at the first token of its own.
-/
import Lumen.Proofs.Checking.Inline
import Lumen.Proofs.Reading.Spans
import Lumen.Proofs.Reading.StmtLocal

namespace Lumen

/-- Whether a token is the end of a block, or of the first one of two. -/
def Token.IsTerminator (t : Token) : Prop := t.lexeme = .word .end_ ∨ t.lexeme = .word .else_

theorem Failure.isStray_of_isApart {f : Failure} (h : f.isApart = true) : f.isStray = false := by
  cases f with
  | error e => cases e <;> first | rfl | cases h
  | _ => rfl

namespace Parse
open CursorM

/-! ## §1. What statements are made of -/

section
variable {α β : Type} {s : State}

/-- A reader of tokens among readers of statements. -/
theorem TakesAt.lift {m : CursorM α} {Q : α → List Token → Cursor → Prop}
    (h : TakesAt m s.cursor Q) :
    TakesAt (liftM m : ParseM α) s fun a ts t => Q a ts t.cursor := ends_lift.mpr h

theorem Takes.lift {m : CursorM α} {Q : α → List Token → Prop} (h : Takes m Q) :
    Takes (liftM m : ParseM α) Q := fun s => (h s.cursor).lift

/-- What has nothing to do with the tokens reads none. -/
theorem Aside.takesAt {m : ParseM α} (h : Aside m) (s : State) :
    TakesAt m s fun _ ts t => ts = [] ∧ t.cursor = s.cursor := by
  obtain ⟨c, env, trace⟩ := s
  obtain ⟨a, env₁, trace₁, hm⟩ | ⟨f, env₁, trace₁, hf, hm⟩ := h env trace
  · exact (ends_ok (hm c)).mpr ⟨[], read_nil rfl, rfl, rfl⟩
  · exact (ends_error (hm c)).mpr (Failure.isStray_of_isApart hf)

/-- A check or a change, and what is read then. -/
theorem takes_after {m : ParseM α} {k : α → ParseM β} {Q : β → List Token → Prop} (h : Aside m)
    (hk : ∀ a, Takes (k a) Q) : Takes (m >>= k) Q := by
  intro s
  apply (h.takesAt s).bind
  rintro a _ t ⟨rfl, -⟩
  exact hk a t

/-- A statement starts with the token that tells it. -/
theorem started_takesAt {t : Token} (ht : s.cursor.token? = some t) {k : Token → ParseM β}
    {Q : β → List Token → Prop} (hk : Takes (k t) fun b vs => Q b (t :: vs)) :
    TakesAt (liftM advance >>= k) s fun b ts _ => Q b ts ∧ ts.head? = some t := by
  apply (advance_takesAt s.cursor).lift.bind
  rintro t' _ s' ⟨rfl, ht'⟩
  obtain rfl := Option.some.inj (ht.symm.trans ht')
  exact (hk s').mono fun b vs _ hb => ⟨hb, rfl⟩

end

/-! ## §2. Blocks -/

/-- What is read for a statement, with its semicolon, where no block ends. -/
def TakesStmt (m : ParseM Stmt) : Prop :=
  ∀ s : State, closes s.cursor.lexemes = false →
    TakesAt m s fun a ts _ => WithSemicolon a.Spans ts ∧ ts.head? = s.cursor.token?

/-- A block spans some tokens in front of a cursor.  It stands at the first of them, or where
    the cursor does. -/
def Opens (c : Cursor) (b : Block) (ts : List Token) : Prop :=
  Stmt.AllSpan b.stmts ts ∧ ∀ t, c.token? = some t → BeginsAt (ts ++ [t]) b.pos

theorem Opens.encloses {c : Cursor} {b : Block} {ts : List Token} (h : Opens c b ts) {w : Word}
    {p : Pos} (hc : c.token? = some ⟨.word w, p⟩) :
    Encloses (Stmt.AllSpan b.stmts) b.pos w (ts ++ [⟨.word w, p⟩]) :=
  ⟨ts, p, rfl, h.1, h.2 _ hc⟩

section
variable {o : Options} {stmt : ParseM Stmt} (hstmt : TakesStmt stmt)
include hstmt

/-- The first token of some statements is the one at the cursor; if there are none, the cursor
    stays where it is. -/
theorem stmts_takesAt (steps : Nat) (s : State) :
    TakesAt (stmts o stmt steps) s fun ss ts t => Stmt.AllSpan ss ts
      ∧ ∀ x, t.cursor.token? = some x → (ts ++ [x]).head? = s.cursor.token? := by
  induction steps generalizing s with
  | zero => exact rfl
  | succ steps ih =>
    unfold stmts
    rw [TakesAt, ends_bind, ends_lift, ends_blockEnds]
    split
    · exact takesAt_pure ⟨rfl, fun x hx => hx.symm⟩
    · next hends =>
      apply (hstmt s (Bool.eq_false_iff.mpr hends)).bind
      -- the statement has a first token, which is the first of all
      rintro a us s₁ ⟨ha, hfirst⟩
      apply ((updating_aside o fun env => enact_apart env a).takesAt s₁).bind
      rintro _ _ s₂ ⟨rfl, -⟩
      apply (ih s₂).bind
      rintro ss vs s₃ ⟨hss, -⟩
      refine takesAt_pure ⟨⟨us, vs, by simp, ha, hss⟩, fun x _ => ?_⟩
      obtain ⟨u, us, rfl⟩ :=
        List.exists_cons_of_ne_nil (Stmt.first_of_withSemicolon ha).ne_nil
      exact hfirst

omit hstmt in
/-- A scope is entered and left without reading anything. -/
theorem inScope_takesAt {α : Type} (locals : List Param) {body : ParseM α}
    {Q : Cursor → α → List Token → Cursor → Prop}
    (hbody : ∀ s, TakesAt body s fun a ts t => Q s.cursor a ts t.cursor) (s : State) :
    TakesAt (inScope o locals body) s fun a ts t => Q s.cursor a ts t.cursor := by
  unfold inScope
  split
  · apply ((enter_aside o).takesAt s).bind
    rintro _ _ s₁ ⟨rfl, hs₁⟩
    apply ((updating_aside o fun env => declareAll_apart env locals).takesAt s₁).bind
    rintro _ _ s₂ ⟨rfl, hs₂⟩
    apply (hbody s₂).bind
    intro a us s₃ ha
    apply ((leave_aside o).takesAt s₃).bind
    rintro _ _ s₄ ⟨rfl, hs₄⟩
    refine takesAt_pure ?_
    rw [hs₂, hs₁] at ha
    simpa [hs₄] using ha
  · exact hbody s

theorem block_takesAt (steps : Nat) (locals : List Param) (s : State) :
    TakesAt (block o stmt steps locals) s fun b ts t => Opens t.cursor b ts := by
  unfold block
  rw [TakesAt, ends_looks blockPos_looks.lift]
  apply (inScope_takesAt (Q := fun c ss ts c' => Stmt.AllSpan ss ts
    ∧ ∀ x, c'.token? = some x → (ts ++ [x]).head? = c.token?) locals
    (stmts_takesAt hstmt steps) s).bind
  rintro ss us t ⟨hss, hfirst⟩
  refine takesAt_pure ⟨?_, fun x hx => ?_⟩
  · rw [List.append_nil]
    exact hss
  · have hhead : (us ++ [x]).head? = s.cursor.token? := hfirst x hx
    rw [List.append_nil, BeginsAt, hhead]
    show _ = some ((s.cursor.token?.map Token.pos).getD .start)
    -- where no token is left none can come after the block either
    cases htoken : s.cursor.token? with
    | none =>
      rw [htoken] at hhead
      simp at hhead
    | some t => rfl

/-- A block and the `end` after it. -/
theorem enclosed_takes (steps : Nat) (locals : List Param) {X : Block → Stmt}
    {Q : Stmt → List Token → Prop}
    (h : ∀ b ts, Encloses (Stmt.AllSpan b.stmts) b.pos .end_ ts → Q (X b) ts) :
    Takes (do let body ← block o stmt steps locals; word .end_; return X body : ParseM Stmt)
      Q := by
  intro s
  apply (block_takesAt hstmt steps locals s).bind
  intro b us t hb
  apply (word_takesAt .end_ t.cursor).lift.bind
  rintro _ _ t' ⟨p, rfl, ht⟩
  exact takesAt_pure (h b _ (hb.encloses ht))

/-- What may come after the first block of an `if`. -/
theorem elseBlock_takesAt (steps : Nat) (s : State) :
    TakesAt (elseBlock o stmt steps) s fun b? ts t =>
      (b? = none ∧ ts = [] ∧ t.cursor = s.cursor)
        ∨ ∃ b p inner, b? = some b ∧ ts = ⟨.word .else_, p⟩ :: inner
          ∧ s.cursor.token? = some ⟨.word .else_, p⟩ ∧ Opens t.cursor b inner := by
  unfold elseBlock
  apply (accept_takesAt _ s.cursor).lift.bind
  rintro _ _ s₁ (⟨rfl, p, rfl, hs⟩ | ⟨rfl, rfl, hs⟩)
  · rw [if_pos rfl]
    apply (block_takesAt hstmt steps [] s₁).bind
    intro b us t hb
    refine takesAt_pure (.inr ⟨b, p, us, rfl, by simp, hs, hb⟩)
  · rw [if_neg Bool.false_ne_true]
    exact takesAt_pure (.inl ⟨rfl, rfl, hs⟩)

end

/-! ## §3. The kinds of statements -/

section
variable {o : Options} (n : Nat) {s : State} {t : Token} (ht : s.cursor.token? = some t)
include ht

theorem letStmt_takesAt (hl : t.lexeme = .word .let_) : TakesAt (letStmt o n) s fun a ts _ =>
    a.Spans ts ∧ ts.head? = some t := by
  obtain ⟨l, p⟩ := t
  obtain rfl : l = .word .let_ := hl
  apply started_takesAt ht
  apply (identifier_takes _).lift.bind
  rintro name _ ⟨i, rfl⟩
  apply (mark_takes _).lift.bind
  rintro _ _ ⟨c, rfl⟩
  apply (type_takes n).lift.bind
  intro ty us hty
  apply (mark_takes _).lift.bind
  rintro _ _ ⟨q, rfl⟩
  apply (expr_takes n).lift.bind
  intro init vs hinit
  apply takes_after (checking_aside o fun env => checkType_apart env init ty name)
  exact fun _ => takes_pure ⟨i, c, us, q, vs, by simp, hty, hinit⟩

theorem printStmt_takesAt (hl : t.lexeme = .word .print) : TakesAt (printStmt o n) s
    fun a ts _ => a.Spans ts ∧ ts.head? = some t := by
  obtain ⟨l, p⟩ := t
  obtain rfl : l = .word .print := hl
  apply started_takesAt ht
  apply (expr_takes n).lift.bind
  intro value us hvalue
  apply takes_after (checking_aside o fun env => infer_apart env value)
  exact fun _ => takes_pure ⟨us, by simp, hvalue⟩

theorem returnStmt_takesAt (hl : t.lexeme = .word .return_) : TakesAt (returnStmt o n) s
    fun a ts _ => a.Spans ts ∧ ts.head? = some t := by
  obtain ⟨l, p⟩ := t
  obtain rfl : l = .word .return_ := hl
  rw [← returnStmt_eq]
  apply started_takesAt ht
  apply takes_look returnEnds_looks.lift
  intro ends
  split
  · exact takes_pure rfl
  · apply (expr_takes n).lift.bind
    intro value us hvalue
    apply takes_after (checking_aside o fun env => infer_apart env value)
    exact fun _ => takes_pure ⟨us, by simp, hvalue⟩

theorem nameStmt_takesAt {name : Bytes} (hl : t.lexeme = .ident name) :
    TakesAt (nameStmt o n name) s fun a ts _ => a.Spans ts ∧ ts.head? = some t := by
  obtain ⟨l, p⟩ := t
  obtain rfl : l = .ident name := hl
  apply started_takesAt ht
  apply (named_takes (expr_takes n) n p name).lift.bind
  rintro target us ⟨hnamed, hpos, htarget⟩
  apply takes_look (isAt_looks _).lift
  intro isStore
  split
  · split
    · next pos name' path =>
      -- an assignment keeps the tokens of its target, but for the name in front
      obtain ⟨path', hpath', hpath⟩ := htarget
      obtain ⟨hname, rfl⟩ := List.cons.inj hpath'
      cases hname
      apply (mark_takes _).lift.bind
      rintro _ _ ⟨q, rfl⟩
      apply (expr_takes n).lift.bind
      intro value vs hvalue
      apply takes_after (updating_aside o fun env => store_apart env _ _ _ value)
      exact fun _ => takes_pure ⟨us, q, vs, by simp, hpath, hvalue⟩
    · exact (unexpected_takes _ _).lift
  · apply takes_after (checking_aside o fun env => infer_apart env target)
    exact fun _ => takes_pure ⟨hnamed, hpos, by simpa using htarget⟩

section
variable {stmt : ParseM Stmt} (hstmt : TakesStmt stmt)
include hstmt

theorem ifStmt_takesAt (hl : t.lexeme = .word .if_) : TakesAt (ifStmt o stmt n) s
    fun a ts _ => a.Spans ts ∧ ts.head? = some t := by
  obtain ⟨l, p⟩ := t
  obtain rfl : l = .word .if_ := hl
  apply started_takesAt ht
  apply (expr_takes n).lift.bind
  intro cond us hcond
  apply takes_after (checking_aside o fun env => checkTruth_apart env cond)
  intro _ s₁
  apply (block_takesAt hstmt n [] s₁).bind
  rintro ⟨q, ss⟩ body s₂ hbody
  apply (elseBlock_takesAt hstmt n s₂).bind
  rintro _ _ s₃ (⟨rfl, rfl, hs₃⟩ | ⟨⟨q', others⟩, r, inner, rfl, rfl, hs₂, hother⟩)
  · -- the first block is ended by `end`, or by `else` with a block after it
    apply (word_takesAt .end_ s₃.cursor).lift.bind
    rintro _ _ s₄ ⟨e, rfl, hend⟩
    rw [hs₃] at hend
    exact takesAt_pure ⟨us, _, by simp, hcond, hbody.encloses hend⟩
  · apply (word_takesAt .end_ s₃.cursor).lift.bind
    rintro _ _ s₄ ⟨e, rfl, hend⟩
    exact takesAt_pure ⟨us, _, _, by simp, hcond, hbody.encloses hs₂, hother.encloses hend⟩

theorem whileStmt_takesAt (hl : t.lexeme = .word .while_) : TakesAt (whileStmt o stmt n) s
    fun a ts _ => a.Spans ts ∧ ts.head? = some t := by
  obtain ⟨l, p⟩ := t
  obtain rfl : l = .word .while_ := hl
  apply started_takesAt ht
  apply (expr_takes n).lift.bind
  intro cond us hcond
  apply takes_after (checking_aside o fun env => checkTruth_apart env cond)
  intro _
  apply enclosed_takes hstmt
  rintro ⟨q, ss⟩ body hbody
  exact ⟨us, body, rfl, hcond, hbody⟩

theorem forStmt_takesAt (hl : t.lexeme = .word .for_) : TakesAt (forStmt o stmt n) s
    fun a ts _ => a.Spans ts ∧ ts.head? = some t := by
  obtain ⟨l, p⟩ := t
  obtain rfl : l = .word .for_ := hl
  apply started_takesAt ht
  apply (identifier_takes _).lift.bind
  rintro var _ ⟨i, rfl⟩
  apply (mark_takes _).lift.bind
  rintro _ _ ⟨c, rfl⟩
  apply (loopType_takes n var).lift.bind
  rintro _ _ ⟨m, rfl⟩
  apply (mark_takes _).lift.bind
  rintro _ _ ⟨e, rfl⟩
  apply (expr_takes n).lift.bind
  intro start us hstart
  apply (mark_takes _).lift.bind
  rintro _ _ ⟨d, rfl⟩
  apply (expr_takes n).lift.bind
  intro stop vs hstop
  apply takes_after (checking_aside o fun env => checkBounds_apart env var start stop)
  intro _
  apply enclosed_takes hstmt
  rintro ⟨q, ss⟩ body hbody
  exact ⟨i, c, m, e, us, d, vs, body, by simp, hstart, hstop, hbody⟩

theorem fnStmt_takesAt (hl : t.lexeme = .word .fn) : TakesAt (fnStmt o stmt n) s
    fun a ts _ => a.Spans ts ∧ ts.head? = some t := by
  obtain ⟨l, p⟩ := t
  obtain rfl : l = .word .fn := hl
  apply started_takesAt ht
  apply (identifier_takes _).lift.bind
  rintro name _ ⟨i, rfl⟩
  apply (params_takes n).lift.bind
  rintro ps _ ⟨q, list, r, rfl, hlist⟩
  apply enclosed_takes hstmt
  rintro ⟨q', ss⟩ body hbody
  exact ⟨i, q, list, r, body, by simp, hlist, hbody⟩

end

end

/-! ## §4. Statements and programs -/

section
variable (o : Options)

theorem bareStmt_takesAt (n : Nat) {stmt : ParseM Stmt} (hstmt : TakesStmt stmt) {s : State}
    (hs : closes s.cursor.lexemes = false) :
    TakesAt (bareStmt o stmt n) s fun a ts _ => a.Spans ts ∧ ts.head? = s.cursor.token? := by
  unfold bareStmt
  rw [TakesAt, ends_looks token?_looks.lift]
  cases ht : s.cursor.token? with
  | none => exact (unexpected_takes _ _).lift s
  | some t =>
    have hhead : s.cursor.lexemes.head? = some t.lexeme := by
      rw [← Cursor.map_token?, ht]
      rfl
    simp only [id]
    split
    · next hl => exact letStmt_takesAt n ht hl
    · next hl => exact printStmt_takesAt n ht hl
    · next hl => exact ifStmt_takesAt n ht hstmt hl
    · next hl => exact whileStmt_takesAt n ht hstmt hl
    · next hl => exact forStmt_takesAt n ht hstmt hl
    · next hl => exact fnStmt_takesAt n ht hstmt hl
    · next hl => exact returnStmt_takesAt n ht hl
    · next hl => exact nameStmt_takesAt n ht hl
    · next hl =>
      rw [closes, hhead, hl] at hs
      cases hs
    · next hl =>
      rw [closes, hhead, hl] at hs
      cases hs
    · exact rfl

/-- A statement and the semicolon that may follow it. -/
theorem stmt_takesAt (n : Nat) : TakesStmt (stmt o n) := by
  induction n with
  | zero => exact fun _ _ => rfl
  | succ n ih =>
    intro s hs
    rw [stmt_succ]
    apply (bareStmt_takesAt o (n + 1) ih hs).bind
    rintro a us s₁ ⟨ha, hfirst⟩
    apply (accept_takesAt _ s₁.cursor).lift.bind
    rintro _ _ s₂ (⟨-, p, rfl, -⟩ | ⟨-, rfl, -⟩)
    · refine takesAt_pure ⟨.inr ⟨us, p, by simp, ha⟩, ?_⟩
      obtain ⟨u, us, rfl⟩ := List.exists_cons_of_ne_nil ha.first.ne_nil
      exact hfirst
    · exact takesAt_pure ⟨.inl (by simpa using ha), by simpa using hfirst⟩

/-- No statement starts with a terminator. -/
theorem stmt_of_terminator {s : State} {t : Token} (ht : s.cursor.token? = some t)
    (hl : t.IsTerminator) (n : Nat) :
    stmt o (n + 1) s = .error (.error (.strayTerminator t)) s := by
  have hlook : (HasCursor.cursor s).token? = some t := ht
  rw [stmt_succ, bareStmt, bind_assoc, looks_bind token?_looks.lift, id, hlook]
  obtain ⟨l, p⟩ := t
  rcases hl with hl | hl
  · obtain rfl : l = .word .end_ := hl
    rfl
  · obtain rfl : l = .word .else_ := hl
    rfl

/-- Where a block ends no statement is read, and that is the only place where the end of a
    block is found not to be wanted. -/
theorem stmt_of_closes (n : Nat) {s : State} (hs : closes s.cursor.lexemes = true) :
    Ends (stmt o n) s (fun _ _ => False) fun f t => f.isStray = true →
      ∃ x, s.cursor.token? = some x ∧ x.IsTerminator ∧ f = .error (.strayTerminator x)
        ∧ t = s := by
  cases n with
  | zero => exact fun h => by cases h
  | succ n =>
    cases ht : s.cursor.token? with
    | none =>
      have hlook : (HasCursor.cursor s).token? = none := ht
      rw [stmt_succ, ends_bind, bareStmt, ends_looks token?_looks.lift, id, hlook]
      exact fun h => by cases h
    | some t =>
      -- a block is closed by `end` and by `else`, which no statement starts with
      have hends : t.IsTerminator := by
        unfold closes at hs
        rw [← Cursor.map_token?, ht] at hs
        simpa [Token.IsTerminator] using hs
      rw [ends_error (stmt_of_terminator o ht hends n)]
      exact fun _ => ⟨t, rfl, hends, rfl, rfl⟩

/-- A statement, wherever it is asked for. -/
theorem stmt_ends (n : Nat) (s : State) :
    Ends (stmt o n) s (fun a t => ∃ ts, Read s ts t ∧ WithSemicolon a.Spans ts)
      fun f t => f.isStray = true →
        ∃ x, s.cursor.token? = some x ∧ x.IsTerminator ∧ f = .error (.strayTerminator x)
          ∧ t = s := by
  cases hs : closes s.cursor.lexemes with
  | true => exact (stmt_of_closes o n hs).mono (fun _ _ h => h.elim) fun _ _ h => h
  | false =>
    apply Ends.mono (stmt_takesAt o n s hs)
    · rintro a t ⟨ts, hread, ha, -⟩
      exact ⟨ts, hread, ha⟩
    · intro f t hf hstray
      rw [hf] at hstray
      cases hstray

theorem topStmts_ends (n steps : Nat) (s : State) :
    Ends (topStmts o n steps) s (fun p t => ∃ ts, Read s ts t ∧ Stmt.AllSpan p ts)
      fun _ _ => True := by
  induction steps generalizing s with
  | zero => exact trivial
  | succ steps ih =>
    unfold topStmts
    rw [ends_looks token?_looks.lift]
    split
    · exact ⟨[], read_nil rfl, rfl⟩
    · rw [ends_bind]
      apply ends_note
      intro trace
      rw [ends_bind]
      apply (stmt_ends o n ⟨s.cursor, s.env, trace⟩).mono
      · rintro a t ⟨us, hread, ha⟩
        rw [ends_bind]
        apply Ends.mono ((enactTop_aside o a).takesAt t)
        · rintro _ t₁ ⟨_, hread₁, rfl, -⟩
          rw [ends_bind]
          apply (ih t₁).weaken
          rintro p t₂ ⟨vs, hread₂, hp⟩
          have hall := (hread.trans hread₁).trans hread₂
          rw [List.append_nil] at hall
          exact ⟨us ++ vs, hall, us, vs, rfl, ha, hp⟩
        · exact fun _ _ _ => trivial
      · exact fun _ _ _ => trivial

/-! ## §5. Whole operations -/

/-- **Every node stands at its first token.**  Whatever is read, checked or not, spans the
    tokens that were read for it: each token of these belongs to one node, and at any depth
    every expression, every statement and every block spans a part of them, and has the
    place of the first token there.  An operator stands where its left operand does, and a
    block that is empty where the word stands that ends it. -/
theorem pieces_stand_at_first (s : State) :
    (∀ p t, program o s = .ok p t → ∃ ts, Read s ts t ∧ Stmt.AllSpan p ts
        ∧ ∀ piece ∈ Stmt.piecesOf p, piece.StandsIn ts)
      ∧ (∀ a t, statement o s = .ok a t → ∃ ts, Read s ts t ∧ WithSemicolon a.Spans ts
        ∧ ∀ piece ∈ a.pieces, piece.StandsIn ts)
      ∧ ∀ e t, expression s = .ok e t → ∃ ts, Read s ts t ∧ e.Spans ts
        ∧ ∀ d ∈ e.parts, (Piece.expr d).StandsIn ts := by
  refine ⟨fun p t h => ?_, fun a t h => ?_, fun e t h => ?_⟩
  · have hends : Ends (program o) s (fun p t => ∃ ts, Read s ts t ∧ Stmt.AllSpan p ts)
        fun _ _ => True := by
      unfold program withSteps
      rw [ends_bind, ends_bind, ends_get]
      apply (topStmts_ends o _ _ s).weaken
      intro p t hp
      rw [ends_bind, ends_get, ends_bind]
      exact ends_note fun _ => hp
    obtain ⟨ts, hread, hp⟩ := hends.of_ok h
    exact ⟨ts, hread, hp, hp.standsIn⟩
  · obtain ⟨ts, hread, ha⟩ := (stmt_ends o _ s).of_ok h
    exact ⟨ts, hread, ha, Stmt.withSemicolon_standsIn (fun _ hs => hs.standsIn) ha⟩
  · obtain ⟨ts, hread, he⟩ := Ends.of_ok ((expr_takes (s.cursor.weight + 1)).lift s) h
    exact ⟨ts, hread, he, he.standsIn⟩

end

/-- `if a < b end`, on one line. -/
def emptyIf : List Token :=
  [⟨.word .if_, ⟨0, 1, 1⟩⟩, ⟨.ident [97], ⟨3, 1, 4⟩⟩, ⟨.mark .lt, ⟨5, 1, 6⟩⟩,
    ⟨.ident [98], ⟨7, 1, 8⟩⟩, ⟨.word .end_, ⟨9, 1, 10⟩⟩, ⟨.eof, ⟨12, 1, 13⟩⟩]

/-- The statement, its condition, the two names in it and the block, which is empty, each
    with its place; all but the end token is read for them. -/
theorem pieces_stand_at_first_if :
    let ts := emptyIf.take 5
    ∃ p t, whole { checked := false } emptyIf = .ok p t
      ∧ (Stmt.piecesOf p).map Piece.pos
        = [⟨0, 1, 1⟩, ⟨3, 1, 4⟩, ⟨3, 1, 4⟩, ⟨7, 1, 8⟩, ⟨9, 1, 10⟩]
      ∧ Read { cursor := .ofTokens emptyIf } ts t ∧ Stmt.AllSpan p ts
      ∧ ∀ piece ∈ Stmt.piecesOf p, piece.StandsIn ts := by
  intro ts
  obtain ⟨p, t, hrun, hplaces, hbefore⟩ : ∃ p t, whole { checked := false } emptyIf = .ok p t
      ∧ (Stmt.piecesOf p).map Piece.pos
        = [⟨0, 1, 1⟩, ⟨3, 1, 4⟩, ⟨3, 1, 4⟩, ⟨7, 1, 8⟩, ⟨9, 1, 10⟩]
      ∧ t.cursor.before.reverse = ts :=
    Ends.exists_ok (by decide +kernel)
  obtain ⟨us, hread, hp, hpieces⟩ :=
    (pieces_stand_at_first { checked := false } { cursor := .ofTokens emptyIf }).1 p t hrun
  -- a fresh parser has read nothing before
  obtain rfl : us = ts := (List.nil_append us).symm.trans (hread.symm.trans hbefore)
  exact ⟨p, t, hrun, hplaces, hread, hp, hpieces⟩

end Parse
end Lumen
