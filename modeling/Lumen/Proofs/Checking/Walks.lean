/-
  Lumen.Proofs.Checking.Walks — the walk that a checked run makes as it reads.

  Kind by kind, the readers of statements are completable: what a checked run gives
  it has walked over, and where a check makes it stop, the ends of blocks make a
  statement of what it has read.  A header that is wrong gets an empty block.  A
  statement that is wrong is the last of its block.

  Nothing is asked of the environment in which the runs start, so this holds for a
  parser in any state.

  Main statements:
    * `stmts_completable` / `block_then` — blocks;
    * `blockWalk` and `check_while` … `check_if_some` — walks over blocks;
    * `letStmt_completable` … `ifStmt_completable` — the kinds of statements;
    * `stmt_completable` — statements of any kind.
-/
import Lumen.Proofs.Checking.Completion

namespace Lumen.Parse
open CursorM

/-! ## §1. Blocks -/

theorem endsBlock_settled : Settled endsBlock true := by
  intro t? ht
  cases t? with
  | none => rfl
  | some t => simp [endsBlock, ht t rfl]

/-- A walk over a block whose first statement is right. -/
theorem checkStmts_of_ok {env env₁ : Env} {a : Stmt} (h : a.check env = .ok env₁)
    (ss : List Stmt) :
    checkStmts env (a :: ss) = orFail (env₁.enact a) >>= fun env => checkStmts env ss := by
  rw [checkStmts, h]
  rfl

/-- The walk over a block, with its header before it. -/
def blockWalk (env : Env) (locals : List Param) (b : Block) : Walk :=
  orFail (env.push.declareAll locals) >>= fun inside => checkStmts inside b.stmts >>= Env.pop

theorem blockWalk_mk {env inside : Env} {locals : List Param}
    (h : env.push.declareAll locals = .ok inside) (pos : Pos) (ss : List Stmt) :
    blockWalk env locals (.mk pos ss) = checkStmts inside ss >>= Env.pop := by
  unfold blockWalk
  rw [h]
  rfl

section
variable {o' : Options} {stmt' : ParseM Stmt}

/-- Where a block may end, nothing is read. -/
theorem stmts_atEnd (n : Nat) {d : State} (h : endsBlock d.cursor.token? = true) :
    Yields (stmts o' stmt' n) d [] d.cursor.ahead := by
  cases n with
  | zero => exact rfl
  | succ n =>
    unfold stmts Yields
    rw [ends_looks blockEnds_looks.lift]
    show Ends (if endsBlock d.cursor.token? = true then _ else _) d _ _
    rw [if_pos h]
    exact ⟨rfl, rfl⟩

/-- Before the end of a block there is an empty one. -/
theorem block_atEnd (hoff : o'.checked = false) (n : Nat) (locals : List Param) {d : State}
    {t : Token} (hd : d.cursor.token? = some t) (ht : t.lexeme = .word .end_) :
    Yields (block o' stmt' n locals) d (.mk t.pos []) d.cursor.ahead := by
  have hends : endsBlock d.cursor.token? = true := by
    rw [hd]
    simp [endsBlock, ht]
  unfold block Yields
  rw [ends_looks blockPos_looks.lift, inScope_off hoff]
  apply (stmts_atEnd n hends).bind
  intro s hs
  refine ⟨?_, hs⟩
  show Block.mk ((d.cursor.token?.map Token.pos).getD .start) [] = _
  rw [hd]
  rfl

end

section
variable {o o' : Options} (hoff : o'.checked = false) {stmt' : Nat → ParseM Stmt}

theorem finishes_stmts (n : Nat → Nat) :
    Finishes (fun i => stmts o' (stmt' i) (n i)) fun ss => ss = [] := by
  refine ⟨[], [], allEnd_nil, rfl, ?_⟩
  intro i d rest hd hrest
  have hahead : d.cursor.ahead = rest := hd
  subst hahead
  exact stmts_atEnd (n i) (endsBlock_settled _ (lexeme_of_closes hrest))

include hoff

theorem finishes_updating (change : Env → Except ParseError Env) :
    Finishes (fun _ => updating o' change) fun _ => True := by
  have hnothing : updating o' change = pure () := funext fun s => updating_off hoff change s
  rw [hnothing]
  exact finishes_pure trivial

variable (hon : o.checked = true) {stmt : ParseM Stmt}
  (hstmt : ∀ env, Completable 1 1 stmt stmt' env (Stmt.check env))
include hon hstmt

theorem stmts_completable (n : Nat) (n' : Nat → Nat) (env : Env) :
    Completable 0 1 (stmts o stmt n) (fun i => stmts o' (stmt' i) (n' i)) env
      (checkStmts env) := by
  induction n generalizing n' env with
  | zero => exact completable_throw rfl
  | succ n ih =>
    apply Completable.ofSteps (fun i n => stmts o' (stmt' i) n) (fun _ => rfl)
    unfold stmts
    refine completable_optional blockEnds_looks endsBlock_settled (completable_pure rfl) ?_
    intro ends hends
    cases ends with
    | true => exact absurd rfl hends
    | false =>
      refine (hstmt env).andThen ?_ ?_
      -- a statement, what it declares, and the others after it
      · intro a env₁ hcheck
        apply updates_then hon hoff
        · intro env₂ henact
          refine ((ih _ env₂).weaken (Nat.le_refl 0) (Nat.zero_le 1)).bind ?_ ?_
          · intro ss env₃ hrest
            apply completable_pure
            rw [checkStmts_of_ok hcheck, henact]
            exact hrest
          · intro ss f hrest _
            apply finishes_pure
            rw [checkStmts_of_ok hcheck, henact]
            exact hrest
        · intro e henact
          apply (finishes_stmts _).bind
          rintro ss rfl
          apply finishes_pure
          rw [checkStmts_of_ok hcheck, henact]
          rfl
      -- what was wrong with a statement is the last of the block
      · intro a f hcheck _
        apply (finishes_updating hoff _).bind
        intro _ _
        apply (finishes_stmts _).bind
        rintro ss rfl
        apply finishes_pure
        rw [checkStmts, hcheck]
        rfl

/-- A block and what follows it, which is never nothing. -/
theorem block_then {α : Type} (n : Nat) (n' : Nat → Nat) (locals : List Param) {env : Env}
    {kon : Block → ParseM α} {koff : Nat → Block → ParseM α} {W : α → Walk}
    (hk : ∀ b env', blockWalk env locals b = .ok env' →
      Completable 1 1 (kon b) (fun i => koff i b) env' W)
    (hend : ∀ b f, blockWalk env locals b = .error f →
      Finishes (fun i => koff i b) fun a => W a = .error f) :
    Completable 1 1 (block o stmt n locals >>= kon)
      (fun i => block o' (stmt' i) (n' i) locals >>= koff i) env W := by
  obtain ⟨inside, hinside⟩ := env.push.exists_declareAll locals
  unfold block
  simp only [bind_assoc, pure_bind]
  -- the place of the block is that of the next token
  apply completable_peek blockPos_looks
  intro pos
  apply (completable_inScope hon hoff hinside (stmts_completable hoff hon hstmt n n' inside)).bind
  · intro ss env' h
    exact hk (.mk pos ss) env' ((blockWalk_mk hinside pos ss).trans h)
  · intro ss f h _
    exact hend (.mk pos ss) f ((blockWalk_mk hinside pos ss).trans h)

end

/-! ## §2. What comes before the end of a block -/

/-- A token that ends a block. -/
def endToken : Token := ⟨.word .end_, .start⟩

section
variable {α : Type}

/-- Before the end of a block, `m` reads just this end and gives `a`. -/
def GivesAtEnd (m : ParseM α) (a : α) : Prop :=
  ∀ (d : State) (rest : List Token), d.cursor.ahead = endToken :: rest → Yields m d a rest

theorem finishes_atEnd {m : Nat → ParseM α} {a : α} {F : α → Prop}
    (h : ∀ i, GivesAtEnd (m i) a) (ha : F a) : Finishes m F := by
  refine ⟨[endToken], a, ?_, ha, fun i d rest hd _ => h i d rest hd⟩
  intro t ht
  rw [List.mem_singleton.mp ht]
  rfl

theorem word_givesAtEnd (a : α) : GivesAtEnd (do word .end_; pure a) a := by
  rintro ⟨⟨before, ahead⟩, env, trace⟩ rest hd
  obtain rfl : ahead = endToken :: rest := hd
  exact ⟨rfl, rfl⟩

variable {o' : Options} {stmt' : ParseM Stmt} {n : Nat} {a : α}

theorem elseBlock_givesAtEnd {k : Option Block → ParseM α} (h : GivesAtEnd (k none) a) :
    GivesAtEnd (elseBlock o' stmt' n >>= k) a := by
  rintro ⟨⟨before, ahead⟩, env, trace⟩ rest hd
  obtain rfl : ahead = endToken :: rest := hd
  exact h ⟨⟨before, endToken :: rest⟩, env, trace⟩ rest rfl

theorem block_givesAtEnd (hoff : o'.checked = false) {locals : List Param}
    {k : Block → ParseM α} (h : GivesAtEnd (k (.mk endToken.pos [])) a) :
    GivesAtEnd (block o' stmt' n locals >>= k) a := by
  intro d rest hd
  have htoken : d.cursor.token? = some endToken := by
    obtain ⟨⟨before, ahead⟩, env, trace⟩ := d
    obtain rfl : ahead = endToken :: rest := hd
    rfl
  apply (block_atEnd hoff n locals htoken rfl).bind
  intro s hs
  exact h s rest (hs.trans hd)

end

/-! ## §3. The walks over single statements -/

section
variable (env : Env) (p : Pos)

theorem blockWalk_nil (b : Block) :
    blockWalk env [] b = checkStmts env.push b.stmts >>= Env.pop := rfl

theorem check_while (cond : Expr) (b : Block) :
    (Stmt.while_ p cond b).check env
      = orFail (env.checkTruth cond) >>= fun _ => blockWalk env [] b := by
  obtain ⟨q, ss⟩ := b
  rw [Stmt.check]
  rfl

theorem check_for (var : Bytes) (start stop : Expr) (b : Block) :
    (Stmt.for_ p var start stop b).check env
      = orFail (env.checkBounds var start stop) >>= fun _ => blockWalk env [⟨var, .int⟩] b := by
  obtain ⟨q, ss⟩ := b
  rw [Stmt.check]
  rfl

theorem check_fn (name : Bytes) (ps : List Param) (b : Block) :
    (Stmt.fn p name ps b).check env = blockWalk env ps b := by
  obtain ⟨q, ss⟩ := b
  rw [Stmt.check]
  rfl

theorem check_if_none (cond : Expr) (b : Block) :
    (Stmt.if_ p cond b none).check env
      = orFail (env.checkTruth cond) >>= fun _ => blockWalk env [] b := by
  obtain ⟨q, ss⟩ := b
  rw [Stmt.check]
  rfl

theorem check_if_some (cond : Expr) (b b' : Block) :
    (Stmt.if_ p cond b (some b')).check env
      = orFail (env.checkTruth cond) >>= fun _ =>
        blockWalk env [] b >>= fun env => blockWalk env [] b' := by
  obtain ⟨q, ss⟩ := b
  obtain ⟨q', others⟩ := b'
  rw [Stmt.check]
  simp only [blockWalk_nil, Block.stmts, bind_assoc]

end

/-! ## §4. Statements without blocks -/

/-- A sequence of readers of tokens is read step by step among readers of
    statements. -/
theorem lift_bind {α β : Type} (m : CursorM α) (f : α → CursorM β) :
    (liftM (m >>= f) : ParseM β) = liftM m >>= fun a => liftM (f a) := by
  funext s
  show onCursor (EStateM.bind m f) s = EStateM.bind (onCursor m) (fun a => onCursor (f a)) s
  unfold EStateM.bind onCursor
  dsimp only
  cases m s.cursor with
  | ok a c => rfl
  | error e c => rfl

/-- A type is read together with the `=` after it. -/
theorem headType_lift {α : Type} (n : Nat) (k : Ty → ParseM α) :
    (do let ty ← type n; mark .equal; k ty) = (liftM (headType n) >>= k : ParseM α) := by
  unfold headType
  rw [lift_bind, bind_assoc]
  congr 1
  funext ty
  rw [lift_bind, bind_assoc]
  rfl

/-- Whether a `return` before some token has no value. -/
def endsReturn (t? : Option Token) : Bool :=
  endsBlock t? || t?.map Token.lexeme == some (.mark .semicolon)

/-- Whether a `return` ends here. -/
def returnEnds : CursorM Bool := do
  return (← blockEnds) || (← isAt (.mark .semicolon))

theorem returnEnds_looks : Looks returnEnds endsReturn := by
  intro c
  have hends : Ends returnEnds c (fun a c' => a = endsReturn c.token? ∧ c' = c)
      fun _ _ => False := by
    unfold returnEnds
    rw [ends_looks blockEnds_looks, ends_looks (isAt_looks _)]
    exact ⟨rfl, rfl⟩
  obtain ⟨a, c', hrun, rfl, rfl⟩ := hends.exists_ok
  exact hrun

theorem endsReturn_settled : Settled endsReturn true := by
  intro t? ht
  rw [endsReturn, endsBlock_settled t? ht]
  rfl

theorem returnStmt_eq (o : Options) (n : Nat) :
    (do
      let t ← advance
      if ← returnEnds then return .return_ t.pos none
      else
        let value ← expr n
        checking o (infer · value)
        return .return_ t.pos (some value)) = returnStmt o n := by
  unfold returnStmt returnEnds
  congr 1
  funext t
  rw [lift_bind, bind_assoc]
  rfl

section
variable {o o' : Options} (hoff : o'.checked = false) (hon : o.checked = true) (n : Nat)
  (n' : Nat → Nat) (env : Env)
include hoff hon

/-- A statement that ends with a check. -/
theorem checks_last {α : Type} {check : Env → Except ParseError α} {a : Stmt}
    (h : a.check env = orFail (check env) >>= fun _ => .ok env) :
    Completable 0 0 (do checking o check; pure a) (fun _ => do checking o' check; pure a) env
      (Stmt.check env) := by
  apply checks_then hon hoff
  · intro _ hcheck
    apply completable_pure
    rw [h, hcheck]
    rfl
  · intro e hcheck
    apply finishes_pure
    rw [h, hcheck]
    rfl

theorem letStmt_completable :
    Completable 1 1 (letStmt o n) (fun i => letStmt o' (n' i)) env (Stmt.check env) := by
  unfold letStmt
  simp only [headType_lift]
  apply reads_then fun _ => advance_rereads
  intro t
  apply reads_then fun _ => identifier_rereads _
  intro name
  apply reads_then fun _ => mark_rereads .colon
  intro _
  apply reads_then fun i => headType_rereads n (n' i)
  intro ty
  apply reads_then fun i => expr_rereads n (n' i)
  intro init
  exact checks_last hoff hon env (by rw [Stmt.check]; rfl)

theorem printStmt_completable :
    Completable 1 1 (printStmt o n) (fun i => printStmt o' (n' i)) env (Stmt.check env) := by
  unfold printStmt
  apply reads_then fun _ => advance_rereads
  intro t
  apply reads_then fun i => expr_rereads n (n' i)
  intro value
  exact checks_last hoff hon env (by rw [Stmt.check]; rfl)

theorem returnStmt_completable :
    Completable 1 1 (returnStmt o n) (fun i => returnStmt o' (n' i)) env (Stmt.check env) := by
  simp only [← returnStmt_eq]
  apply reads_then fun _ => advance_rereads
  intro t
  refine completable_optional returnEnds_looks endsReturn_settled (completable_pure rfl) ?_
  intro ends hends
  cases ends with
  | true => exact absurd rfl hends
  | false =>
    apply reads_then fun i => expr_rereads n (n' i)
    intro value
    exact checks_last hoff hon env (by rw [Stmt.check]; rfl)

theorem nameStmt_completable (name : Bytes) :
    Completable 1 1 (nameStmt o n name) (fun i => nameStmt o' (n' i) name) env
      (Stmt.check env) := by
  unfold nameStmt
  apply reads_then fun _ => advance_rereads
  intro t
  apply reads_bind fun i => named_rereads (expr_rereads n (n' i)) n (n' i) t.pos name
  intro target
  refine completable_optional (isAt_looks _) (isAt_settled Lexeme.noConfusion) ?_ ?_
  · exact checks_last hoff hon env (by rw [Stmt.check]; rfl)
  · intro equal hequal
    cases equal with
    | false => exact absurd rfl hequal
    | true =>
      -- only an access can be assigned to
      cases target with
      | access pos name path =>
        apply reads_then fun _ => mark_rereads .equal
        intro _
        apply reads_then fun i => expr_rereads n (n' i)
        intro value
        apply updates_then hon hoff
        · intro env' hstore
          apply completable_pure
          rw [Stmt.check, hstore]
          rfl
        · intro e hstore
          apply finishes_pure
          rw [Stmt.check, hstore]
          rfl
      | _ => exact completable_unexpected _

/-! ## §5. Statements with blocks -/

variable {stmt : ParseM Stmt} {stmt' : Nat → ParseM Stmt}
  (hstmt : ∀ env, Completable 1 1 stmt stmt' env (Stmt.check env))
include hstmt

/-- A block, and the end of the statement it belongs to. -/
theorem block_end {locals : List Param} {W : Stmt → Walk} {a : Block → Stmt}
    (h : ∀ b, W (a b) = blockWalk env locals b) :
    Completable 1 1 (do let b ← block o stmt n locals; word .end_; pure (a b))
      (fun i => do let b ← block o' (stmt' i) (n' i) locals; word .end_; pure (a b)) env W := by
  apply block_then hoff hon hstmt n n'
  · intro b env' hblock
    apply reads_then fun _ => word_rereads .end_
    exact fun _ => completable_pure ((h b).trans hblock)
  · intro b f hblock
    exact finishes_atEnd (fun _ => word_givesAtEnd _) ((h b).trans hblock)

/-- A check, a block, and the end of the statement. -/
theorem checks_block_end {α : Type} {check : Env → Except ParseError α} {locals : List Param}
    {a : Block → Stmt}
    (h : ∀ b, (a b).check env = orFail (check env) >>= fun _ => blockWalk env locals b) :
    Completable 0 0
      (do checking o check; let b ← block o stmt n locals; word .end_; pure (a b))
      (fun i => do
        checking o' check; let b ← block o' (stmt' i) (n' i) locals; word .end_; pure (a b))
      env (Stmt.check env) := by
  apply checks_then hon hoff
  · intro _ hcheck
    refine (block_end hoff hon n n' env hstmt ?_).forget
    intro b
    rw [h, hcheck]
    rfl
  · -- a header that is wrong gets an empty block
    intro e hcheck
    apply finishes_atEnd fun _ => block_givesAtEnd hoff (word_givesAtEnd _)
    rw [h, hcheck]
    rfl

theorem whileStmt_completable :
    Completable 1 1 (whileStmt o stmt n) (fun i => whileStmt o' (stmt' i) (n' i)) env
      (Stmt.check env) := by
  unfold whileStmt
  apply reads_then fun _ => advance_rereads
  intro t
  apply reads_then fun i => expr_rereads n (n' i)
  intro cond
  exact checks_block_end hoff hon n n' env hstmt (check_while env t.pos cond)

omit hoff hon hstmt in
/-- The type of a loop variable is one token; any other type is an error, which is the
    same without checking. -/
theorem loopType_completable (var : Bytes) :
    Completable 1 1 (liftM (loopType n var)) (fun i => liftM (loopType (n' i) var)) env
      fun _ => .ok env := by
  unfold loopType
  simp only [lift_bind]
  apply completable_peek token?_looks
  intro t?
  split
  · exact completable_read fun _ => advance_rereads.andThen fun _ => rereads_pure ()
  · split
    · exact completable_refused (fun i => type_repeats n (n' i)) _
    · exact completable_read fun _ => rereads_unexpected _ _ _
  · exact completable_read fun _ => rereads_unexpected _ _ _

theorem forStmt_completable :
    Completable 1 1 (forStmt o stmt n) (fun i => forStmt o' (stmt' i) (n' i)) env
      (Stmt.check env) := by
  unfold forStmt
  apply reads_then fun _ => advance_rereads
  intro t
  apply reads_then fun _ => identifier_rereads _
  intro var
  apply reads_then fun _ => mark_rereads .colon
  intro _
  apply (loopType_completable n n' env var).andThen ?_ fun _ _ h => by cases h
  rintro _ _ ⟨rfl⟩
  apply reads_then fun _ => mark_rereads .equal
  intro _
  apply reads_then fun i => expr_rereads n (n' i)
  intro start
  apply reads_then fun _ => mark_rereads .dotDot
  intro _
  apply reads_then fun i => expr_rereads n (n' i)
  intro stop
  exact checks_block_end hoff hon n n' env hstmt (check_for env t.pos var start stop)

theorem fnStmt_completable :
    Completable 1 1 (fnStmt o stmt n) (fun i => fnStmt o' (stmt' i) (n' i)) env
      (Stmt.check env) := by
  unfold fnStmt
  apply reads_then fun _ => advance_rereads
  intro t
  apply reads_then fun _ => identifier_rereads _
  intro name
  apply reads_then fun i => params_rereads n (n' i)
  intro ps
  exact (block_end hoff hon n n' env hstmt (check_fn env t.pos name ps)).forget

theorem ifStmt_completable :
    Completable 1 1 (ifStmt o stmt n) (fun i => ifStmt o' (stmt' i) (n' i)) env
      (Stmt.check env) := by
  unfold ifStmt
  apply reads_then fun _ => advance_rereads
  intro t
  apply reads_then fun i => expr_rereads n (n' i)
  intro cond
  apply checks_then hon hoff
  · intro _ hcheck
    refine (block_then hoff hon hstmt n n' [] ?_ ?_).forget
    · intro b env₁ hthen
      unfold elseBlock
      simp only [bind_assoc]
      apply reads_bind fun _ => accept_rereads fun h => Word.noConfusion (Lexeme.word.inj h)
      intro isElse
      cases isElse with
      | false =>
        apply reads_then fun _ => word_rereads .end_
        intro _
        apply completable_pure
        rw [check_if_none, hcheck]
        exact hthen
      | true =>
        simp only [reduceIte, bind_assoc, pure_bind]
        -- the second block starts where the first has ended
        apply block_end hoff hon n n' env₁ hstmt
        intro b'
        rw [check_if_some, hcheck]
        show (blockWalk env [] b >>= fun env => blockWalk env [] b') = _
        rw [hthen]
        rfl
    · -- what is wrong is in the first block, and no second one is needed
      intro b f hthen
      apply finishes_atEnd fun _ => elseBlock_givesAtEnd (word_givesAtEnd _)
      rw [check_if_none, hcheck]
      exact hthen
  · intro e hcheck
    apply finishes_atEnd fun _ =>
      block_givesAtEnd hoff (elseBlock_givesAtEnd (word_givesAtEnd _))
    rw [Stmt.check, hcheck]
    rfl

/-! ## §6. Statements of any kind -/

theorem bareStmt_completable :
    Completable 1 1 (bareStmt o stmt n) (fun i => bareStmt o' (stmt' i) (n' i)) env
      (Stmt.check env) := by
  unfold bareStmt
  apply completable_peek token?_looks
  intro t?
  cases t? with
  | none => exact completable_unexpected _
  | some t =>
    dsimp only
    split
    · exact letStmt_completable hoff hon n n' env
    · exact printStmt_completable hoff hon n n' env
    · exact ifStmt_completable hoff hon n n' env hstmt
    · exact whileStmt_completable hoff hon n n' env hstmt
    · exact forStmt_completable hoff hon n n' env hstmt
    · exact fnStmt_completable hoff hon n n' env hstmt
    · exact returnStmt_completable hoff hon n n' env
    · exact nameStmt_completable hoff hon n n' env _
    · exact completable_throw rfl
    · exact completable_throw rfl
    · exact completable_throw rfl

end

/-- What reads nothing at the end of a text reads nothing at the end of a block. -/
theorem finishes_of_rereads {α : Type} {m m' : CursorM α} (hm : Rereads 0 m m') {a : α}
    {c : Cursor} (hrun : m ⟨[], []⟩ = .ok a c) :
    Finishes (fun _ => liftM m') fun a' => a' = a := by
  obtain ⟨u, -, hahead, hyields⟩ := ((hm ⟨[], []⟩).of_ok hrun).lift
  obtain ⟨rfl, -⟩ := List.append_eq_nil_iff.mp hahead.symm
  refine ⟨[], a, allEnd_nil, rfl, ?_⟩
  intro i d rest hd hrest
  exact hyields d rest hd (.inr hrest)

section
variable {o o' : Options} (hoff : o'.checked = false) (hon : o.checked = true)
include hoff hon

theorem stmt_completable (n : Nat) (n' : Nat → Nat) (env : Env) :
    Completable 1 1 (stmt o n) (fun i => stmt o' (n' i)) env (Stmt.check env) := by
  have hsemicolon : Rereads 0 (accept (.mark .semicolon)) (accept (.mark .semicolon)) :=
    accept_rereads Lexeme.noConfusion
  induction n generalizing n' env with
  | zero => exact completable_throw rfl
  | succ n ih =>
    apply Completable.ofSteps (fun _ n => stmt o' n) (fun _ => rfl)
    simp only [stmt_succ]
    apply (bareStmt_completable hoff hon (n + 1) _ env fun env => ih _ env).andThen
    -- a semicolon may follow, but not before `end`
    · intro a env' hcheck
      exact reads_bind (fun _ => hsemicolon) fun _ => completable_pure hcheck
    · intro a f hcheck _
      exact (finishes_of_rereads hsemicolon rfl).bind fun _ _ => finishes_pure hcheck

end

end Lumen.Parse
