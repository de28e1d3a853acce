/-
  Lumen.Proofs.Reading.StmtViable — a text is read as far as a program can go.

  Without checking, a statement that is broken off can be completed, whatever its
  kind: an expression that is missing is put in, and so is the `end` of each block
  that is open.  Most statements are written the same whatever comes after them.
  Only a `return` without a value has to end visibly, so it matters what is left
  to read; but nothing is put in there, for the block may just as well end.

  One thing is not read as far as it can go.  The type of a loop variable has to be
  `int`, but any other is read to its end before it is rejected.

  Main statements:
    * `InLoopType` — where the type of a loop variable is read;
    * `WritesStmt`, `WritesBlock` — what statements and blocks are written as;
    * `stmts_viable` / `block_viable` — blocks;
    * `letStmt_viable` … `nameStmt_viable` — the kinds of statements;
    * `stmt_viable` / `program_viable` — statements and programs.
-/
import Lumen.Proofs.Reading.StmtSound
import Lumen.Proofs.Reading.Viable

namespace Lumen.Parse
open CursorM Cursor

/-! ## §1. Readers without checking -/

section
variable {X : Cursor → Prop} {α : Type} {M : α → List Lexeme → Prop}

theorem viableAt_lift {m : CursorM α} {s : State} (h : ViableAt X m s.cursor M) :
    ViableAt X (liftM m : ParseM α) s M := ends_lift.mpr h

theorem viable_lift {m : CursorM α} (h : Viable X m M) : Viable X (liftM m : ParseM α) M where
  canGoOn := h.canGoOn
  viableAt s := viableAt_lift (h.viableAt s.cursor)

/-- A statement is read from its first token on. -/
theorem viableAt_first {l : Lexeme} {s : State} (h : s.cursor.lexeme? = some l) :
    ViableAt X (liftM advance : ParseM Token) s fun _ ls => ls = [l] :=
  viableAt_lift ((advance_reaches h).mono (fun _ _ ht => ⟨[l], ht.2, rfl⟩) fun _ _ h => h.elim)

theorem viableAt_head {l : Lexeme} {s : State} (h : s.cursor.lexeme? = some l)
    {k : Token → ParseM α} (hk : ∀ t, Viable X (k t) fun a v => M a (l :: v)) :
    ViableAt X (liftM advance >>= k) s M := by
  apply (viableAt_first h).bind
  intro t ls hls
  rw [hls]
  exact hk t

section
variable {o : Options} (hoff : o.checked = false)
include hoff

theorem viable_checking (check : Env → Except ParseError α) :
    Viable X (checking o check) fun _ ls => ls = [] where
  canGoOn := ⟨(), [], List.not_mem_nil, rfl⟩
  viableAt _ := (ends_checking_off hoff check).mpr ⟨[], .refl, rfl⟩

theorem viable_updating (change : Env → Except ParseError Env) :
    Viable X (updating o change) fun _ ls => ls = [] where
  canGoOn := ⟨(), [], List.not_mem_nil, rfl⟩
  viableAt _ := (ends_updating_off hoff change).mpr ⟨[], .refl, rfl⟩

end
end

/-! ## §2. What may come after a statement -/

/-- A statement is written so, whatever comes after it. -/
def WritesStmt (a : Stmt) (ls : List Lexeme) : Prop :=
  a.isLevelled = true ∧ ∀ rest, a.Spells (ls ++ rest) rest

/-- A statement is written so before what ends it visibly, if it has been read before
    such. -/
def WritesBefore (next : List Lexeme) (a : Stmt) (ls : List Lexeme) : Prop :=
  a.isLevelled = true ∧ ∀ rest, (visiblyEnds next → visiblyEnds rest) → a.Spells (ls ++ rest) rest

/-- The statements of a block are written so, before what closes the block. -/
def WritesBlock (ss : List Stmt) (ls : List Lexeme) : Prop :=
  Stmt.areLevelled ss = true ∧ ∀ rest, closes rest = true → Stmt.AllSpell ss (ls ++ rest) rest

theorem WritesStmt.before {a : Stmt} {ls : List Lexeme} (h : WritesStmt a ls)
    (next : List Lexeme) : WritesBefore next a ls := ⟨h.1, fun rest _ => h.2 rest⟩

theorem writesBlock_nil : WritesBlock [] [] := ⟨rfl, fun _ _ => rfl⟩

/-- A `print` can always go on. -/
theorem canGoOn_stmt : CanGoOn WritesStmt [] :=
  ⟨.print {} (.literal {} (.bool true)), [.word .print, .literal (.bool true)], by simp, rfl,
    fun _ => rfl⟩

theorem closes_congr {ls ms : List Lexeme} (h : ls.head? = ms.head?) : closes ls = closes ms := by
  unfold closes
  rw [h]

theorem visiblyEnds_of_closes {ls : List Lexeme} (h : closes ls = true) : visiblyEnds ls := by
  intro l hl
  unfold closes at h
  rw [Option.mem_def.mp hl] at h
  simpa [or_assoc] using Or.imp_right Or.inl ((Bool.or_eq_true _ _).mp h)

theorem closes_of_visiblyEnds {ls : List Lexeme} (h : visiblyEnds ls)
    (hsemicolon : ls.head? ≠ some (.mark .semicolon)) : closes ls = true := by
  unfold closes
  cases hhead : ls.head? with
  | none => rfl
  | some l =>
    rcases h l hhead with rfl | rfl | rfl
    · rfl
    · rfl
    · exact absurd hhead hsemicolon

/-- A block that may end at a cursor may end before what is passed from there. -/
theorem closes_of_reaches {c c' : Cursor} {ls : List Lexeme} (h : c.Reaches ls c') :
    closes c.lexemes = closes (ls ++ c'.lexemes) := by
  rcases h.head? with hsame | ⟨hge, hgt⟩
  · exact closes_congr hsame.symm
  · unfold closes
    rw [hge, hgt]
    rfl

/-- Whether some lexemes begin the statements of a block.  Where nothing has been
    read nothing has to be put in. -/
def BlockGoesOn (ls : List Lexeme) : Prop :=
  ∃ ss more, .eof ∉ more ∧ (ls = [] → more = []) ∧ WritesBlock ss (ls ++ more)

theorem blockGoesOn_nil : BlockGoesOn [] :=
  ⟨[], [], List.not_mem_nil, fun _ => rfl, writesBlock_nil⟩

/-- A statement that is broken off is the last one. -/
theorem blockGoesOn_of_stmt {ls : List Lexeme} (h : CanGoOn WritesStmt ls) : BlockGoesOn ls := by
  by_cases hls : ls = []
  · rw [hls]
    exact blockGoesOn_nil
  · obtain ⟨a, more, hmore, hlevel, hspells⟩ := h
    refine ⟨[a], more, hmore, fun h => absurd h hls, by rw [Stmt.areLevelled, hlevel]; rfl, ?_⟩
    intro rest _
    exact ⟨rest, rest, hspells rest, .inl rfl, rfl⟩

/-- A statement, and perhaps a semicolon, in a block that goes on.  What may come
    after the statement is what has come after it. -/
def Precedes (next : List Lexeme) (a : Stmt) (ls : List Lexeme) : Prop :=
  a.isLevelled = true ∧ ∀ rest, (closes next = true → closes rest = true) →
    ∃ mid, a.Spells (ls ++ rest) mid ∧ (mid = rest ∨ mid = .mark .semicolon :: rest)

theorem Precedes.writesBlock {a : Stmt} {ss : List Stmt} {ls ms more : List Lexeme} {c c' : Cursor}
    (ha : Precedes c.lexemes a ls) (hreach : c.Reaches ms c') (hmore : ms = [] → more = [])
    (hss : WritesBlock ss (ms ++ more)) : WritesBlock (a :: ss) ((ls ++ ms) ++ more) := by
  obtain ⟨hlevel, hspells⟩ := ha
  obtain ⟨hlevels, hss⟩ := hss
  refine ⟨by rw [Stmt.areLevelled, hlevel, hlevels]; rfl, ?_⟩
  intro rest hrest
  have hnext : closes c.lexemes = true → closes (ms ++ more ++ rest) = true := by
    intro hcloses
    rw [closes_of_reaches hreach] at hcloses
    -- only if nothing was passed after the statement does it matter what comes later
    cases ms with
    | nil =>
      rw [hmore rfl]
      exact hrest
    | cons l ms => exact (closes_congr rfl).trans hcloses
  obtain ⟨mid, hmid, hend⟩ := hspells _ hnext
  refine ⟨mid, ms ++ more ++ rest, ?_, hend, hss rest hrest⟩
  simpa using hmid

theorem Precedes.blockGoesOn {a : Stmt} {ls ms : List Lexeme} {c c' : Cursor}
    (ha : Precedes c.lexemes a ls) (hreach : c.Reaches ms c') (h : BlockGoesOn ms) :
    BlockGoesOn (ls ++ ms) := by
  obtain ⟨ss, more, heof, hmore, hss⟩ := h
  exact ⟨a :: ss, more, heof, fun hnil => hmore (List.append_eq_nil_iff.mp hnil).2,
    ha.writesBlock hreach hmore hss⟩

/-! ## §3. Blocks -/

section
variable {X : Cursor → Prop}

/-- What has been read of a statement that is broken off can go on. -/
def BreaksOff (X : Cursor → Prop) (s t : State) : Prop :=
  ∃ ls, s.cursor.Reaches ls t.cursor ∧ (X t.cursor ∨ CanGoOn WritesStmt ls)

/-- A reader of statements, each perhaps with a semicolon after it. -/
def ViableStmt (X : Cursor → Prop) (m : ParseM Stmt) : Prop :=
  ∀ s, Ends m s
    (fun a t => ∃ ls, s.cursor.Reaches ls t.cursor ∧ Precedes t.cursor.lexemes a ls)
    fun _ t => BreaksOff X s t

variable {o : Options} (hoff : o.checked = false) {stmt : ParseM Stmt} (hstmt : ViableStmt X stmt)
include hoff hstmt

theorem stmts_viable (steps : Nat) (s : State) :
    Ends (stmts o stmt steps) s
      (fun ss t => ∃ ls, s.cursor.Reaches ls t.cursor ∧ WritesBlock ss ls)
      fun _ t => ∃ ls, s.cursor.Reaches ls t.cursor ∧ (X t.cursor ∨ BlockGoesOn ls) := by
  induction steps generalizing s with
  | zero => exact ⟨[], .refl, .inr blockGoesOn_nil⟩
  | succ steps ih =>
    unfold stmts
    rw [ends_bind, ends_lift, ends_blockEnds]
    split
    · exact ⟨[], .refl, writesBlock_nil⟩
    · refine ends_bind.mpr ((hstmt s).mono ?_ ?_)
      -- the statement is read, and it stands in front of whatever comes of the others
      · rintro a t ⟨ls, hreach, ha⟩
        rw [ends_bind, ends_updating_off hoff]
        refine ends_bind.mpr ((ih t).mono ?_ ?_)
        · rintro ss t' ⟨ms, hreach', hss⟩
          have hblock := ha.writesBlock hreach' (fun _ => rfl) (by rwa [List.append_nil])
          exact ⟨ls ++ ms, hreach.trans hreach', by rwa [List.append_nil] at hblock⟩
        · rintro f t' ⟨ms, hreach', hstop⟩
          exact ⟨ls ++ ms, hreach.trans hreach', hstop.imp_right (ha.blockGoesOn hreach')⟩
      · rintro f t ⟨ls, hreach, hstop⟩
        exact ⟨ls, hreach, hstop.imp_right blockGoesOn_of_stmt⟩

theorem block_viable (steps : Nat) (locals : List Param) :
    Viable X (block o stmt steps locals)
      fun b ls => ∃ pos ss, b = .mk pos ss ∧ WritesBlock ss ls := by
  have hstmts : Viable X (stmts o stmt steps) WritesBlock := by
    refine ⟨⟨[], [], List.not_mem_nil, writesBlock_nil⟩, ?_⟩
    intro s
    apply (stmts_viable hoff hstmt steps s).mono
    · exact fun _ _ h => h
    · rintro f t ⟨ls, hreach, hstop⟩
      refine ⟨ls, hreach, hstop.imp_right ?_⟩
      rintro ⟨ss, more, heof, -, hss⟩
      exact ⟨ss, more, heof, hss⟩
  have hpos : Viable X blockPos fun _ ls => ls = [] :=
    ⟨⟨.start, [], List.not_mem_nil, rfl⟩, fun _ => ⟨[], .refl, rfl⟩⟩
  unfold block
  rw [inScope_off hoff]
  apply (viable_lift hpos).pass
  intro pos
  apply hstmts.bind
  intro ss ls hss
  exact viable_pure ⟨pos, ss, rfl, by simpa using hss⟩

theorem elseBlock_viable (steps : Nat) :
    Viable X (elseBlock o stmt steps) fun b ls =>
      b = none ∧ ls = [] ∨ ∃ pos ss other, b = some (.mk pos ss) ∧ ls = .word .else_ :: other
        ∧ WritesBlock ss other := by
  unfold elseBlock
  apply (viable_lift (viable_accept _)).pass
  intro found
  cases found
  · exact viable_pure (.inl ⟨rfl, rfl⟩)
  · apply (block_viable hoff hstmt steps []).bind
    intro b other hb
    obtain ⟨pos, ss, rfl, hss⟩ := hb
    exact viable_pure (.inr ⟨pos, ss, other, rfl, by simp, hss⟩)

/-! ## §4. The kinds of statements

Each starts with the lexeme that tells it. -/

section
variable {s : State}

theorem ifStmt_viable (n : Nat) (hhead : s.cursor.lexeme? = some (.word .if_)) :
    ViableAt X (ifStmt o stmt n) s WritesStmt := by
  unfold ifStmt
  apply viableAt_head hhead
  intro t
  apply (viable_lift (expr_viable n)).passWith
  intro cond hcond
  obtain ⟨hcond, -⟩ := hcond
  apply (viable_checking hoff _).pass
  intro _
  apply (block_viable hoff hstmt n []).bind
  intro b body hb
  obtain ⟨pos, ss, rfl, hlevels, hss⟩ := hb
  apply (elseBlock_viable hoff hstmt n).bind
  intro else_ ls helse
  apply (viable_lift (viable_word _)).pass
  intro _
  obtain ⟨rfl, rfl⟩ | ⟨pos', others, other, rfl, rfl, hlevels', hothers⟩ := helse
  · refine viable_pure ⟨by rw [Stmt.isLevelled, hcond, hlevels]; rfl, ?_⟩
    intro rest
    exact ⟨body ++ .word .end_ :: rest, by simp, hss _ rfl⟩
  · refine viable_pure ⟨by rw [Stmt.isLevelled, hcond, hlevels, hlevels']; rfl, ?_⟩
    intro rest
    exact ⟨body ++ .word .else_ :: (other ++ .word .end_ :: rest), other ++ .word .end_ :: rest,
      by simp, hss _ rfl, hothers _ rfl⟩

theorem whileStmt_viable (n : Nat) (hhead : s.cursor.lexeme? = some (.word .while_)) :
    ViableAt X (whileStmt o stmt n) s WritesStmt := by
  unfold whileStmt
  apply viableAt_head hhead
  intro t
  apply (viable_lift (expr_viable n)).passWith
  intro cond hcond
  obtain ⟨hcond, -⟩ := hcond
  apply (viable_checking hoff _).pass
  intro _
  apply (block_viable hoff hstmt n []).bind
  intro b body hb
  obtain ⟨pos, ss, rfl, hlevels, hss⟩ := hb
  apply (viable_lift (viable_word _)).pass
  intro _
  refine viable_pure ⟨by rw [Stmt.isLevelled, hcond, hlevels]; rfl, ?_⟩
  intro rest
  exact ⟨body ++ .word .end_ :: rest, by simp, hss _ rfl⟩

omit hoff hstmt in
theorem paramList_viable (m steps : Nat) :
    Viable X (paramList m steps) fun ps ls =>
      ls = paramLexemes ps ∧ (∀ p ∈ ps, p.type.isDeclarable = true) ∧ ps ≠ [] := by
  induction steps with
  | zero =>
    refine viable_throw ⟨[⟨ascii "x", .int⟩], _, ?_, rfl, List.forall_mem_singleton.mpr rfl,
      List.cons_ne_nil _ _⟩
    simp [Ty.lexemes]
  | succ steps ih =>
    unfold paramList
    apply (viable_identifier _).pass
    intro name
    apply (viable_mark _).pass
    intro _
    apply (type_viable m).passWith
    intro ty hdecl
    have hmore : Viable X (do return ⟨name, ty⟩ :: (← paramList m steps)) fun ps v =>
        .ident name :: .mark .colon :: (ty.lexemes ++ .mark .comma :: v) = paramLexemes ps
          ∧ (∀ p ∈ ps, p.type.isDeclarable = true) ∧ ps ≠ [] := by
      apply ih.passWith
      intro ps hps
      obtain ⟨hps, hne⟩ := hps
      refine viable_pure ⟨?_, List.forall_mem_cons.mpr ⟨hdecl, hps⟩, List.cons_ne_nil _ ps⟩
      rw [paramLexemes_cons _ hne, List.append_nil]
    apply viable_optional
    · apply (viable_isAt _).pass
      intro atClose
      split
      · exact viable_unexpected hmore.canGoOn
      · exact hmore
    · exact viable_pure ⟨by simp [paramLexemes], List.forall_mem_singleton.mpr hdecl,
        List.cons_ne_nil _ _⟩

omit hoff hstmt in
theorem params_viable (m : Nat) :
    Viable X (params m) fun ps ls =>
      ls = .mark .lparen :: (paramLexemes ps ++ [.mark .rparen])
        ∧ ∀ p ∈ ps, p.type.isDeclarable = true := by
  unfold params
  apply (viable_mark _).pass
  intro _
  apply (viable_isAt _).pass
  intro atClose
  split
  · apply (viable_mark _).pass
    intro _
    exact viable_pure ⟨rfl, List.forall_mem_nil _⟩
  · apply (paramList_viable m m).passWith
    intro ps hps
    obtain ⟨hps, -⟩ := hps
    apply (viable_mark _).pass
    intro _
    exact viable_pure ⟨by simp, hps⟩

theorem fnStmt_viable (n : Nat) (hhead : s.cursor.lexeme? = some (.word .fn)) :
    ViableAt X (fnStmt o stmt n) s WritesStmt := by
  unfold fnStmt
  apply viableAt_head hhead
  intro t
  apply (viable_lift (viable_identifier _)).pass
  intro name
  apply (viable_lift (params_viable n)).passWith
  intro ps hps
  apply (block_viable hoff hstmt n ps).bind
  intro b body hb
  obtain ⟨pos, ss, rfl, hlevels, hss⟩ := hb
  apply (viable_lift (viable_word _)).pass
  intro _
  refine viable_pure ⟨hlevels, ?_⟩
  intro rest
  exact ⟨hps, body ++ .word .end_ :: rest, by simp, hss _ rfl⟩

omit hstmt

theorem letStmt_viable (n : Nat) (hhead : s.cursor.lexeme? = some (.word .let_)) :
    ViableAt X (letStmt o n) s WritesStmt := by
  unfold letStmt
  apply viableAt_head hhead
  intro t
  apply (viable_lift (viable_identifier _)).pass
  intro name
  apply (viable_lift (viable_mark _)).pass
  intro _
  apply (viable_lift (type_viable n)).passWith
  intro ty hdecl
  apply (viable_lift (viable_mark _)).pass
  intro _
  apply (viable_lift (expr_viable n)).passWith
  intro init hinit
  obtain ⟨hinit, -⟩ := hinit
  apply (viable_checking hoff _).pass
  intro _
  refine viable_pure ⟨hinit, fun rest => ⟨hdecl, _, .apart ty, ?_⟩⟩
  simp

theorem printStmt_viable (n : Nat) (hhead : s.cursor.lexeme? = some (.word .print)) :
    ViableAt X (printStmt o n) s WritesStmt := by
  unfold printStmt
  apply viableAt_head hhead
  intro t
  apply (viable_lift (expr_viable n)).passWith
  intro value hvalue
  obtain ⟨hvalue, -⟩ := hvalue
  apply (viable_checking hoff _).pass
  intro _
  exact viable_pure ⟨hvalue, fun rest => by simp [Stmt.Spells]⟩

/-- An `=` after what cannot be assigned to comes too late: that is a statement by
    itself. -/
theorem nameStmt_viable (n : Nat) {name : Bytes}
    (hhead : s.cursor.lexeme? = some (.ident name)) :
    ViableAt X (nameStmt o n name) s WritesStmt := by
  unfold nameStmt
  apply viableAt_head hhead
  intro t
  apply (viable_lift (named_viable (expr_viable n) n t.pos name)).bind
  intro target ls htarget
  obtain ⟨hls, htarget, hnamed⟩ := htarget
  -- by itself the target is a statement as well
  have hexpr : WritesStmt (.expr t.pos target) ([.ident name] ++ (ls ++ [])) := by
    refine ⟨htarget, fun rest => ⟨hnamed, ?_⟩⟩
    rw [← hls]
    simp
  apply (viable_lift (viable_isAt _)).pass
  intro isEqual
  split
  · split
    · next p name' path =>
      apply (viable_lift (viable_mark _)).pass
      intro _
      apply (viable_lift (expr_viable n)).passWith
      intro value hvalue
      obtain ⟨hvalue, -⟩ := hvalue
      apply (viable_updating hoff _).pass
      intro _
      have hlevel : (Stmt.assign p name' path value).isLevelled = true := by
        rw [Stmt.isLevelled, hvalue]
        exact (Bool.and_true _).trans htarget
      refine viable_pure ⟨hlevel, fun rest => ?_⟩
      obtain ⟨hname, rfl⟩ := List.cons.inj hls
      cases hname
      simp [Stmt.Spells]
    · exact viable_lift (viable_unexpected ⟨_, [], List.not_mem_nil, hexpr⟩)
  · apply (viable_checking hoff _).pass
    intro _
    exact viable_pure hexpr

/-- Without a value it matters what is left to read; but nothing has failed then. -/
theorem returnStmt_viable (n : Nat) (hhead : s.cursor.lexeme? = some (.word .return_)) :
    Ends (returnStmt o n) s
      (fun a t => ∃ ls, s.cursor.Reaches ls t.cursor ∧ WritesBefore t.cursor.lexemes a ls)
      fun _ t => BreaksOff X s t := by
  unfold returnStmt
  refine ends_bind.mpr (ends_lift.mpr ((advance_reaches hhead).mono ?_ fun _ _ h => h.elim))
  rintro t c ⟨-, hreach⟩
  rw [ends_bind, ends_lift, ends_blockEnds, ends_bind, ends_lift, ends_isAt]
  split
  · next hend =>
    -- what ends the block is seen, and it is no part of the statement
    have hvisible : visiblyEnds c.lexemes := by
      intro l hl
      have hl' : c.lexemes.head? = some l := hl
      simpa [closes, hl', or_assoc] using hend
    exact ⟨[.word .return_], hreach, rfl, fun rest hrest => ⟨hrest hvisible, rfl⟩⟩
  · have hvalue : Viable X (do
        let value ← expr n
        checking o (infer · value)
        return .return_ t.pos (some value) : ParseM Stmt)
        fun a v => WritesStmt a (.word .return_ :: v) := by
      apply (viable_lift (expr_viable n)).passWith
      intro value hvalue
      obtain ⟨hvalue, -⟩ := hvalue
      apply (viable_checking hoff _).pass
      intro _
      exact viable_pure ⟨hvalue, fun rest => by simp [Stmt.Spells]⟩
    apply (hvalue.viableAt { s with cursor := c }).mono
    · rintro a t ⟨ls, hreach', ha⟩
      exact ⟨_, hreach.trans hreach', ha.before _⟩
    · rintro f t ⟨ls, hreach', hstop⟩
      exact ⟨_, hreach.trans hreach', hstop.imp_right CanGoOn.of_rest⟩

end

end

/-! ## §5. Loops -/

/-- Whether a cursor stands in the type of a loop variable, or just after it, and that
    is not `int`. -/
def InLoopType (c : Cursor) : Prop :=
  ∃ front var ty ls,
    c.before.reverse.map Token.lexeme
        = front ++ [.word .for_, .ident var, .mark .colon] ++ ls
      ∧ ls ≠ [] ∧ ls <+: Ty.lexemes ty ∧ ty.isDeclarable = true ∧ ty ≠ .int

/-- After `for`, a name and a colon a type is read that does not start with `int`. -/
theorem inLoopType_of_reaches {c c' : Cursor} {front ls : List Lexeme} {var : Bytes} {ty : Ty}
    {l : Lexeme}
    (hbefore : c.before.reverse.map Token.lexeme
      = front ++ [.word .for_, .ident var, .mark .colon])
    (hl : c.lexemes.head? = some l) (hmarker : l.isTypeMarker = true) (hint : l ≠ .word .int)
    (hreach : c.Reaches ls c') (hls : ls ≠ []) (hty : ls <+: ty.lexemes)
    (hdecl : ty.isDeclarable = true) : InLoopType c' := by
  refine ⟨front, var, ty, ls, by rw [hreach.before, hbefore], hls, hty, hdecl, ?_⟩
  rintro rfl
  cases ls with
  | nil => exact hls rfl
  | cons first ls =>
    have hfirst : first = .word .int := (List.cons_prefix_cons.mp hty).1
    -- the token that was there is the first that was read, or half of it
    rcases hreach.head? with hsame | ⟨hge, -⟩
    · rw [hl] at hsame
      exact hint (Option.some.inj hsame ▸ hfirst)
    · rw [hl] at hge
      obtain rfl := Option.some.inj hge
      cases hmarker

theorem loopType_viable (n : Nat) (var : Bytes) {c : Cursor} {front : List Lexeme}
    (hbefore : c.before.reverse.map Token.lexeme
      = front ++ [.word .for_, .ident var, .mark .colon]) :
    ViableAt InLoopType (loopType n var) c fun _ ls => ls = [.word .int] := by
  have hgo : CanGoOn (fun (_ : Unit) ls => ls = [.word .int]) [] := ⟨(), _, by simp, rfl⟩
  unfold loopType
  show Ends (CursorM.token? >>= _) c _ _
  rw [ends_bind, ends_token?]
  split
  · next pos ht =>
    have hl : c.lexeme? = some (.word .int) := by
      unfold Cursor.lexeme?
      rw [ht]
      rfl
    exact viableAt_advance hl fun _ _ => viable_pure rfl
  · next l pos hint ht =>
    have hl : c.lexemes.head? = some l := by rw [← map_token?, ht]; rfl
    have hne : l ≠ .word .int := by
      rintro rfl
      exact hint rfl
    split
    -- it is read as a type, and wherever that stops, the cursor is in the wrong type
    · next hmarker =>
      have htype := (type_viable (X := fun _ => False) n).viableAt c
      refine ends_bind.mpr (htype.mono ?_ ?_)
      · rintro ty c' ⟨ls, hreach, rfl, hdecl⟩
        have hls : ty.lexemes ≠ [] := by cases ty <;> simp [Ty.lexemes, Ty.isDeclarable] at hdecl ⊢
        exact ⟨_, hreach, .inl (inLoopType_of_reaches hbefore hl hmarker hne hreach hls
          (List.prefix_refl _) hdecl)⟩
      · rintro f c' ⟨ls, hreach, hfalse | ⟨ty, more, -, hty, hdecl⟩⟩
        · exact hfalse.elim
        · refine ⟨ls, hreach, ?_⟩
          by_cases hls : ls = []
          · rw [hls]
            exact .inr hgo
          · exact .inl (inLoopType_of_reaches hbefore hl hmarker hne hreach hls ⟨more, hty⟩ hdecl)
    · exact (viable_unexpected hgo).viableAt c
  · exact (viable_unexpected hgo).viableAt c

section
variable {o : Options} (hoff : o.checked = false) {stmt : ParseM Stmt}
  (hstmt : ViableStmt InLoopType stmt)
include hoff hstmt

theorem forStmt_viable (n : Nat) {s : State} (hhead : s.cursor.lexeme? = some (.word .for_)) :
    ViableAt InLoopType (forStmt o stmt n) s WritesStmt := by
  have hgo : ∀ var, CanGoOn WritesStmt [.word .for_, .ident var, .mark .colon] := by
    intro var
    refine ⟨.for_ {} var (.literal {} (.bool true)) (.literal {} (.bool true)) (.mk {} []),
      [.word .int, .mark .equal, .literal (.bool true), .mark .dotDot, .literal (.bool true),
        .word .end_], by simp, rfl, fun rest => ⟨.word .end_ :: rest, rfl, rfl⟩⟩
  -- up to the colon the cursor is followed, for `InLoopType` tells what is before it
  unfold forStmt
  apply (viableAt_first hhead).then
  · intro t ls hls
    rw [hls]
    have hrest : CanGoOn WritesStmt ([.word .for_] ++ [.ident (ascii "x"), .mark .colon]) := hgo _
    exact hrest.of_append (by simp)
  rintro t _ s₁ rfl h₁
  apply ((viable_lift (viable_identifier _)).viableAt s₁).then
  · rintro var _ rfl
    have hrest : CanGoOn WritesStmt ([.word .for_, .ident var] ++ [.mark .colon]) := hgo var
    exact hrest.of_append (by simp)
  rintro var _ s₂ rfl h₂
  apply ((viable_lift (viable_mark _)).viableAt s₂).then
  · rintro _ _ rfl
    exact hgo var
  rintro _ _ s₃ rfl h₃
  have hbefore := (h₁.trans (h₂.trans h₃)).before
  apply (viableAt_lift (loopType_viable n var hbefore)).bind
  intro _ ls hls
  rw [hls]
  apply (viable_lift (viable_mark _)).pass
  intro _
  apply (viable_lift (expr_viable n)).passWith
  intro start hstart
  obtain ⟨hstart, -⟩ := hstart
  apply (viable_lift (viable_mark _)).pass
  intro _
  apply (viable_lift (expr_viable n)).passWith
  intro stop hstop
  obtain ⟨hstop, -⟩ := hstop
  apply (viable_checking hoff _).pass
  intro _
  apply (block_viable hoff hstmt n _).bind
  intro b body hb
  obtain ⟨pos, ss, rfl, hlevels, hss⟩ := hb
  apply (viable_lift (viable_word _)).pass
  intro _
  refine viable_pure ⟨by rw [Stmt.isLevelled, hstart, hstop, hlevels]; rfl, ?_⟩
  intro rest
  exact ⟨body ++ .word .end_ :: rest, by simp, hss _ rfl⟩

/-! ## §6. Statements and programs -/

omit hoff hstmt in
theorem ViableAt.writesBefore {X : Cursor → Prop} {m : ParseM Stmt} {s : State}
    (h : ViableAt X m s WritesStmt) :
    Ends m s (fun a t => ∃ ls, s.cursor.Reaches ls t.cursor ∧ WritesBefore t.cursor.lexemes a ls)
      fun _ t => BreaksOff X s t := by
  apply h.weaken
  rintro a t ⟨ls, hreach, ha⟩
  exact ⟨ls, hreach, ha.before _⟩

/-- What cannot start a statement comes where another statement could. -/
theorem bareStmt_viable (n : Nat) (s : State) :
    Ends (bareStmt o stmt n) s
      (fun a t => ∃ ls, s.cursor.Reaches ls t.cursor ∧ WritesBefore t.cursor.lexemes a ls)
      fun _ t => BreaksOff InLoopType s t := by
  have hnone : BreaksOff InLoopType s s := ⟨[], .refl, .inr canGoOn_stmt⟩
  unfold bareStmt
  rw [ends_bind, ends_lift, ends_token?]
  split
  · exact hnone
  · next t ht =>
    have hhead : s.cursor.lexeme? = some t.lexeme := by
      unfold Cursor.lexeme?
      rw [ht]
      rfl
    split
    · next hl => exact (letStmt_viable hoff n (hl ▸ hhead)).writesBefore
    · next hl => exact (printStmt_viable hoff n (hl ▸ hhead)).writesBefore
    · next hl => exact (ifStmt_viable hoff hstmt n (hl ▸ hhead)).writesBefore
    · next hl => exact (whileStmt_viable hoff hstmt n (hl ▸ hhead)).writesBefore
    · next hl => exact (forStmt_viable hoff hstmt n (hl ▸ hhead)).writesBefore
    · next hl => exact (fnStmt_viable hoff hstmt n (hl ▸ hhead)).writesBefore
    · next hl => exact returnStmt_viable hoff n (hl ▸ hhead)
    · next name hl => exact (nameStmt_viable hoff n (hl ▸ hhead)).writesBefore
    · exact hnone
    · exact hnone
    · exact hnone

end

section
variable {o : Options} (hoff : o.checked = false)
include hoff

theorem stmt_viable (n : Nat) : ViableStmt InLoopType (stmt o n) := by
  induction n with
  | zero => exact fun s => ⟨[], .refl, .inr canGoOn_stmt⟩
  | succ n ih =>
    intro s
    rw [stmt_succ]
    apply (bareStmt_viable hoff ih (n + 1) s).bind
    rintro a t ⟨ls, hreach, hlevel, hspells⟩
    refine ends_bind.mpr (ends_lift.mpr ((accept_reaches _).mono ?_ fun _ _ h => h.elim))
    rintro found c (⟨-, hreach'⟩ | ⟨-, rfl, hsemicolon⟩)
    -- a semicolon is read too, and it ends the statement visibly
    · refine ⟨_, hreach.trans hreach', hlevel,
        fun rest _ => ⟨.mark .semicolon :: rest, ?_, .inr rfl⟩⟩
      rw [List.append_assoc]
      apply hspells
      intro _ l hl
      exact .inr (.inr (Option.some.inj hl).symm)
    · refine ⟨ls, hreach, hlevel, fun rest hrest => ⟨rest, ?_, .inl rfl⟩⟩
      apply hspells
      intro hvisible
      exact visiblyEnds_of_closes (hrest (closes_of_visiblyEnds hvisible hsemicolon))

theorem topStmts_viable (n steps : Nat) (s : State) :
    Ends (topStmts o n steps) s (fun _ _ => True)
      fun _ t => ∃ ls, s.cursor.Reaches ls t.cursor ∧ (InLoopType t.cursor ∨ BlockGoesOn ls) := by
  induction steps generalizing s with
  | zero => exact ⟨[], .refl, .inr blockGoesOn_nil⟩
  | succ steps ih =>
    unfold topStmts
    rw [ends_bind, ends_lift, ends_token?]
    split
    · exact trivial
    · rw [ends_bind]
      refine ends_note ?_
      intro trace
      refine ends_bind.mpr ((stmt_viable hoff n { s with trace }).mono ?_ ?_)
      · rintro a t ⟨ls, hreach, ha⟩
        rw [enactTop_off hoff, ends_bind, ends_pure]
        refine ends_bind.mpr ((ih t).mono (fun _ _ _ => trivial) ?_)
        rintro f t' ⟨ms, hreach', hstop⟩
        exact ⟨ls ++ ms, hreach.trans hreach', hstop.imp_right (ha.blockGoesOn hreach')⟩
      · rintro f t ⟨ls, hreach, hstop⟩
        exact ⟨ls, hreach, hstop.imp_right blockGoesOn_of_stmt⟩

theorem program_viable (s : State) :
    Ends (program o) s (fun _ _ => True)
      fun _ t => ∃ ls, s.cursor.Reaches ls t.cursor ∧ (InLoopType t.cursor ∨ BlockGoesOn ls) := by
  unfold program withSteps
  rw [ends_bind, ends_bind, ends_get]
  apply (topStmts_viable hoff _ _ s).weaken
  intro p t _
  rw [ends_bind, ends_get, ends_bind]
  exact ends_note fun _ => trivial

end

end Lumen.Parse
