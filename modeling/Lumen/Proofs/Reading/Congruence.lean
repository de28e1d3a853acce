/-
  Lumen.Proofs.Reading.Congruence — what is related in its parts is related as a whole.

  A reader of expressions is made of readers of single tokens, and a reader of statements of
  these, of checks, of changes of the environment, and of scopes.  So a relation of readers
  that holds of the parts and that sequences keep holds of all readers.  What it says does
  not matter: that both runs come to the same end, say, or that a reader leaves something as
  it is.

  Readers count their steps.  In the two readers that are compared the counts may be related
  in some way: they are the same, or one is the smaller.

  Main statements:
    * `Congruence` — a relation that sequences keep;
    * `TokenCongruence`, `expr_congr` — expressions, from readers of single tokens and types;
    * `StmtCongruence`, `stmt_congr`, `topStmts_congr` — statements and programs.
-/
import Lumen.Proofs.Reading.Rereads

namespace Lumen.Parse
open CursorM

/-! ## §1. Sequences -/

/-- A relation between readers that give things of the same type. -/
abbrev Related (σ : Type) : Type 1 :=
  (α : Type) → EStateM Failure σ α → EStateM Failure σ α → Prop

/-- A relation that sequences keep.  So do readers that count down their steps, from numbers
    that `S` relates. -/
structure Congruence {σ : Type} (S : Nat → Nat → Prop) (R : Related σ) : Prop where
  ofPure : ∀ {α : Type} (a : α), R α (pure a) (pure a)
  /-- Errors that are not about the token at the cursor. -/
  ofThrow : ∀ {α : Type} {e : ParseError}, (∀ expected met, e ≠ .unexpected expected met) →
    R α (throw (.error e)) (throw (.error e))
  ofBind : ∀ {α β : Type} {m m' : EStateM Failure σ α} {k k' : α → EStateM Failure σ β},
    R α m m' → (∀ a, R β (k a) (k' a)) → R β (m >>= k) (m' >>= k')
  /-- Readers that are given `b` and read the rest with one step less. -/
  ofSteps : ∀ {α β : Type} (read read' : Nat → β → EStateM Failure σ α),
    (∀ b, read 0 b = throw .outOfSteps) → (∀ b, read' 0 b = throw .outOfSteps) →
    (∀ {n n'}, S n n' → (∀ b, R α (read n b) (read' n' b)) →
      ∀ b, R α (read (n + 1) b) (read' (n' + 1) b)) →
    ∀ {n n'}, S n n' → ∀ b, R α (read n b) (read' n' b)
  succ : ∀ {n n'}, S n n' → S (n + 1) (n' + 1)

section
variable {σ : Type} {S : Nat → Nat → Prop} {R : Related σ}

/-- Readers that are given nothing else than their steps. -/
theorem Congruence.countdown (h : Congruence S R) {α : Type}
    (read read' : Nat → EStateM Failure σ α) (hzero : read 0 = throw .outOfSteps)
    (hzero' : read' 0 = throw .outOfSteps)
    (hsucc : ∀ {n n'}, S n n' → R α (read n) (read' n') → R α (read (n + 1)) (read' (n' + 1)))
    {n n' : Nat} (hsteps : S n n') : R α (read n) (read' n') :=
  h.ofSteps (fun n (_ : Unit) => read n) (fun n _ => read' n) (fun _ => hzero) (fun _ => hzero')
    (fun hs ih _ => hsucc hs (ih ())) hsteps ()

end

/-- With the same steps only readers that have none need be looked at. -/
theorem congruence_of_eq {σ : Type} {R : Related σ}
    (hpure : ∀ {α : Type} (a : α), R α (pure a) (pure a))
    (hthrow : ∀ {α : Type} (f : Failure), R α (throw f) (throw f))
    (hbind : ∀ {α β : Type} {m m' : EStateM Failure σ α} {k k' : α → EStateM Failure σ β},
      R α m m' → (∀ a, R β (k a) (k' a)) → R β (m >>= k) (m' >>= k')) :
    Congruence Eq R where
  ofPure := hpure
  ofThrow _ := hthrow _
  ofBind := hbind
  ofSteps := by
    intro α β read read' hzero hzero' hsucc n n' hn
    subst hn
    induction n with
    | zero =>
      intro b
      rw [hzero, hzero']
      exact hthrow _
    | succ n ih => exact hsucc rfl ih
  succ := congrArg Nat.succ

/-! ## §2. Readers of tokens -/

/-- A congruence that holds of readers of single tokens and of types.  Nothing is asked of a
    reader that wants the end of a list type: only a reader of types does. -/
structure TokenCongruence (S : Nat → Nat → Prop) (T : Related Cursor) : Prop
    extends Congruence S T where
  ofLooks : ∀ {α : Type} {m : CursorM α} {look : Option Token → α}, Looks m look → T α m m
  ofUnexpected : ∀ {α : Type} {expected : Expected}, expected ≠ .mark .gt →
    T α (unexpected expected) (unexpected expected)
  ofAdvance : T Token advance advance
  ofType : ∀ {n n'}, S n n' → T Ty (type n) (type n')

/-- To be the same reader is a congruence. -/
theorem eq_tokenCongruence : TokenCongruence Eq fun _ m m' => m = m' where
  toCongruence := by
    refine congruence_of_eq (fun _ => rfl) (fun _ => rfl) ?_
    intro α β m m' k k' hm hk
    rw [hm, funext hk]
  ofLooks _ := rfl
  ofUnexpected _ := rfl
  ofAdvance := rfl
  ofType := congrArg type

section
variable {S : Nat → Nat → Prop} {T : Related Cursor} (h : TokenCongruence S T)
include h

/-- Reading a token and giving something. -/
theorem advanced_congr {α : Type} (a : α) :
    T α (do let _ ← advance; return a) (do let _ ← advance; return a) :=
  h.ofBind h.ofAdvance fun _ => h.ofPure a

theorem accept_congr (l : Lexeme) : T Bool (accept l) (accept l) := by
  unfold accept
  apply h.ofBind (h.ofLooks (isAt_looks l))
  intro isThere
  split
  · exact advanced_congr h true
  · exact h.ofPure false

theorem mark_congr {m : Mark} (hm : m ≠ .gt) : T Unit (mark m) (mark m) := by
  unfold mark
  apply h.ofBind (h.ofLooks (isAt_looks _))
  intro isThere
  split
  · exact advanced_congr h ()
  · exact h.ofUnexpected fun heq => hm (Expected.mark.inj heq)

theorem word_congr (w : Word) : T Unit (word w) (word w) := by
  unfold word
  apply h.ofBind (h.ofLooks (isAt_looks _))
  intro isThere
  split
  · exact advanced_congr h ()
  · exact h.ofUnexpected Expected.noConfusion

theorem identifier_congr {expected : Expected} (hexpected : expected ≠ .mark .gt) :
    T Bytes (identifier expected) (identifier expected) := by
  unfold identifier
  apply h.ofBind (h.ofLooks lexeme?_looks)
  intro l?
  split
  · exact advanced_congr h _
  · exact h.ofUnexpected hexpected

theorem select?_congr {α : Type} (meaning : Lexeme → Option α) :
    T (Option α) (select? meaning) (select? meaning) := by
  unfold select?
  apply h.ofBind (h.ofLooks lexeme?_looks)
  intro l?
  split
  · exact advanced_congr h _
  · exact h.ofPure none

/-! ## §3. Types and parameters -/

section
variable {n n' : Nat} (hn : S n n')
include hn

theorem loopType_congr (var : Bytes) : T Unit (loopType n var) (loopType n' var) := by
  unfold loopType
  apply h.ofBind (h.ofLooks token?_looks)
  intro t?
  split
  · exact advanced_congr h ()
  · split
    · exact h.ofBind (h.ofType hn) fun ty => h.ofThrow fun _ _ heq => by cases heq
    · exact h.ofUnexpected Expected.noConfusion
  · exact h.ofUnexpected Expected.noConfusion

theorem paramList_congr {k k' : Nat} (hk : S k k') :
    T (List Param) (paramList n k) (paramList n' k') := by
  refine h.countdown (paramList n) (paramList n') rfl rfl ?_ hk
  intro k k' _ ih
  unfold paramList
  apply h.ofBind (identifier_congr h Expected.noConfusion)
  intro name
  apply h.ofBind (mark_congr h Mark.noConfusion)
  intro _
  apply h.ofBind (h.ofType hn)
  intro ty
  apply h.ofBind (accept_congr h _)
  intro comma
  split
  · apply h.ofBind (h.ofLooks (isAt_looks _))
    intro isClose
    split
    · exact h.ofUnexpected Expected.noConfusion
    · exact h.ofBind ih fun ps => h.ofPure _
  · exact h.ofPure _

theorem params_congr : T (List Param) (params n) (params n') := by
  unfold params
  apply h.ofBind (mark_congr h Mark.noConfusion)
  intro _
  apply h.ofBind (h.ofLooks (isAt_looks _))
  intro isClose
  split
  · exact h.ofBind (mark_congr h Mark.noConfusion) fun _ => h.ofPure []
  · apply h.ofBind (paramList_congr h hn hn)
    intro ps
    exact h.ofBind (mark_congr h Mark.noConfusion) fun _ => h.ofPure ps

end

/-! ## §4. Expressions -/

section
variable {op op' : CursorM Expr} (hop : T Expr op op') {n n' : Nat}
include hop

theorem chain_congr (join? : Lexeme → Option Join) (hn : S n n') (lhs : Expr) :
    T Expr (chain join? op n lhs) (chain join? op' n' lhs) := by
  refine h.ofSteps (chain join? op) (chain join? op') (fun _ => rfl) (fun _ => rfl) ?_ hn lhs
  -- the left operand grows from step to step
  intro n n' _ ih lhs
  unfold chain
  apply h.ofBind (select?_congr h join?)
  intro join
  split
  · exact h.ofPure lhs
  · exact h.ofBind hop fun rhs => ih _

theorem leftAssoc_congr (join? : Lexeme → Option Join) (hn : S n n') :
    T Expr (leftAssoc join? op n) (leftAssoc join? op' n') := by
  unfold leftAssoc
  exact h.ofBind hop fun lhs => chain_congr h hop join? hn lhs

theorem nonAssoc_congr (join? : Lexeme → Option Join) :
    T Expr (nonAssoc join? op) (nonAssoc join? op') := by
  unfold nonAssoc
  apply h.ofBind hop
  intro lhs
  apply h.ofBind (select?_congr h join?)
  intro join
  split
  · exact h.ofPure lhs
  · exact h.ofBind hop fun rhs => h.ofPure _

theorem signed_congr (hn : S n n') : T Expr (signed op n) (signed op' n') := by
  refine h.countdown (signed op) (signed op') rfl rfl ?_ hn
  intro n n' _ ih
  unfold signed
  apply h.ofBind (h.ofLooks (isAt_looks _))
  intro isSign
  split
  · apply h.ofBind h.ofAdvance
    intro sign
    exact h.ofBind ih fun e => h.ofPure _
  · exact hop

end

section
variable {expr expr' : CursorM Expr} (hexpr : T Expr expr expr') {n n' : Nat} (hn : S n n')
include hexpr hn

theorem listed_congr {close : Mark} (hclose : close ≠ .gt) :
    T (List Expr) (listed close expr n) (listed close expr' n') := by
  refine h.countdown (listed close expr) (listed close expr') rfl rfl ?_ hn
  intro n n' _ ih
  unfold listed
  apply h.ofBind hexpr
  intro e
  apply h.ofBind (accept_congr h _)
  intro comma
  split
  · apply h.ofBind (h.ofLooks (isAt_looks _))
    intro isClose
    split
    · exact h.ofUnexpected Expected.noConfusion
    · exact h.ofBind ih fun es => h.ofPure _
  · exact h.ofBind (mark_congr h hclose) fun _ => h.ofPure _

theorem arguments_congr {close : Mark} (hclose : close ≠ .gt) :
    T (List Expr) (arguments close expr n) (arguments close expr' n') := by
  unfold arguments
  apply h.ofBind (accept_congr h _)
  intro none
  split
  · exact h.ofPure []
  · exact listed_congr h hexpr hn hclose

theorem indices_congr : T (List Expr) (indices expr n) (indices expr' n') := by
  refine h.countdown (indices expr) (indices expr') rfl rfl ?_ hn
  intro n n' _ ih
  unfold indices
  apply h.ofBind (accept_congr h _)
  intro opens
  split
  · apply h.ofBind hexpr
    intro index
    apply h.ofBind (mark_congr h Mark.noConfusion)
    intro _
    exact h.ofBind ih fun path => h.ofPure _
  · exact h.ofPure []

theorem named_congr (pos : Pos) (name : Bytes) :
    T Expr (named expr n pos name) (named expr' n' pos name) := by
  unfold named
  apply h.ofBind (accept_congr h _)
  intro called
  split
  · exact h.ofBind (arguments_congr h hexpr hn Mark.noConfusion) fun args => h.ofPure _
  · apply h.ofBind (indices_congr h hexpr hn)
    intro path
    apply h.ofBind (accept_congr h _)
    intro dot
    split
    · apply h.ofBind (identifier_congr h Expected.noConfusion)
      intro method
      apply h.ofBind (mark_congr h Mark.noConfusion)
      intro _
      exact h.ofBind (arguments_congr h hexpr hn Mark.noConfusion) fun args => h.ofPure _
    · exact h.ofPure _

theorem primary_congr : T Expr (primary expr n) (primary expr' n') := by
  unfold primary
  apply h.ofBind (h.ofLooks lexeme?_looks)
  intro l?
  split
  · exact h.ofBind h.ofAdvance fun t => h.ofPure _
  · exact h.ofBind h.ofAdvance fun t => named_congr h hexpr hn t.pos _
  · apply h.ofBind h.ofAdvance
    intro t
    apply h.ofBind hexpr
    intro inner
    exact h.ofBind (mark_congr h Mark.noConfusion) fun _ => h.ofPure _
  · apply h.ofBind h.ofAdvance
    intro t
    exact h.ofBind (arguments_congr h hexpr hn Mark.noConfusion) fun es => h.ofPure _
  · exact h.ofUnexpected Expected.noConfusion

/-- All levels, from the sign outwards. -/
theorem disjunction_congr : T Expr (disjunction expr n) (disjunction expr' n') := by
  have hsigned := signed_congr h (primary_congr h hexpr hn) hn
  have hmultiplicative : T Expr (multiplicative expr n) (multiplicative expr' n') :=
    leftAssoc_congr h hsigned _ hn
  have hadditive : T Expr (additive expr n) (additive expr' n') :=
    leftAssoc_congr h hmultiplicative _ hn
  have hcomparison : T Expr (comparison expr n) (comparison expr' n') :=
    nonAssoc_congr h hadditive _
  have hconjunction : T Expr (conjunction expr n) (conjunction expr' n') :=
    leftAssoc_congr h hcomparison _ hn
  exact leftAssoc_congr h hconjunction _ hn

end

/-- Expressions, by induction on the steps: what stands in brackets is read with one step
    less. -/
theorem expr_congr {n n' : Nat} (hn : S n n') : T Expr (expr n) (expr n') := by
  refine h.countdown expr expr rfl rfl ?_ hn
  intro n n' hn ih
  rw [expr_succ, expr_succ]
  exact disjunction_congr h ih (h.succ hn)

end

/-! ## §5. Statements -/

/-- The checks that readers of statements make. -/
inductive IsCheck : {α : Type} → (Env → Except ParseError α) → Prop
  | infer (e : Expr) : IsCheck (infer · e)
  | type (type : Ty) (e : Expr) (name : Bytes) : IsCheck (checkType · type e name)
  | truth (cond : Expr) : IsCheck (·.checkTruth cond)
  | bounds (var : Bytes) (start stop : Expr) : IsCheck (·.checkBounds var start stop)

/-- The changes of the environment that they make. -/
inductive IsChange : (Env → Except ParseError Env) → Prop
  | enact (a : Stmt) : IsChange (·.enact a)
  | store (pos : Pos) (name : Bytes) (path : List Expr) (value : Expr) :
    IsChange (·.store pos name path value)

/-- A congruence that holds of what readers of statements do besides reading.  Of the tokens
    they read whatever a congruence of readers of tokens relates. -/
structure StmtCongruence (o o' : Options) (S : Nat → Nat → Prop) (T : Related Cursor)
    (R : Related State) : Prop extends Congruence S R where
  tokens : TokenCongruence S T
  ofTokens : ∀ {α : Type} {m m' : CursorM α}, T α m m' → R α (liftM m) (liftM m')
  ofCheck : ∀ {α : Type} {check : Env → Except ParseError α}, IsCheck check →
    R Unit (checking o check) (checking o' check)
  ofChange : ∀ {change : Env → Except ParseError Env}, IsChange change →
    R Unit (updating o change) (updating o' change)
  ofScope : ∀ {α : Type} (locals : List Param) {body body' : ParseM α}, R α body body' →
    R α (inScope o locals body) (inScope o' locals body')
  ofNote : ∀ e, R Unit (note o e) (note o' e)
  ofEnactTop : ∀ a, R Unit (enactTop o a) (enactTop o' a)

section
variable {o o' : Options} {S : Nat → Nat → Prop} {T : Related Cursor} {R : Related State}
  (h : StmtCongruence o o' S T R) {n n' : Nat} (hn : S n n')
include h hn

section
variable {stmt stmt' : ParseM Stmt} (hstmt : R Stmt stmt stmt')
include hstmt

theorem stmts_congr : R (List Stmt) (stmts o stmt n) (stmts o' stmt' n') := by
  refine h.countdown (stmts o stmt) (stmts o' stmt') rfl rfl ?_ hn
  intro n n' _ ih
  unfold stmts
  apply h.ofBind (h.ofTokens (h.tokens.ofLooks blockEnds_looks))
  intro ends
  split
  · exact h.ofPure []
  · apply h.ofBind hstmt
    intro a
    apply h.ofBind (h.ofChange (.enact a))
    intro _
    exact h.ofBind ih fun rest => h.ofPure _

theorem block_congr (locals : List Param) :
    R Block (block o stmt n locals) (block o' stmt' n' locals) := by
  unfold block
  apply h.ofBind (h.ofTokens (h.tokens.ofLooks blockPos_looks))
  intro pos
  exact h.ofBind (h.ofScope locals (stmts_congr h hn hstmt)) fun body => h.ofPure _

theorem elseBlock_congr : R (Option Block) (elseBlock o stmt n) (elseBlock o' stmt' n') := by
  unfold elseBlock
  apply h.ofBind (h.ofTokens (accept_congr h.tokens _))
  intro isElse
  split
  · exact h.ofBind (block_congr h hn hstmt []) fun b => h.ofPure _
  · exact h.ofPure none

theorem ifStmt_congr : R Stmt (ifStmt o stmt n) (ifStmt o' stmt' n') := by
  unfold ifStmt
  apply h.ofBind (h.ofTokens h.tokens.ofAdvance)
  intro t
  apply h.ofBind (h.ofTokens (expr_congr h.tokens hn))
  intro cond
  apply h.ofBind (h.ofCheck (.truth cond))
  intro _
  apply h.ofBind (block_congr h hn hstmt [])
  intro then_
  apply h.ofBind (elseBlock_congr h hn hstmt)
  intro else_
  exact h.ofBind (h.ofTokens (word_congr h.tokens _)) fun _ => h.ofPure _

theorem whileStmt_congr : R Stmt (whileStmt o stmt n) (whileStmt o' stmt' n') := by
  unfold whileStmt
  apply h.ofBind (h.ofTokens h.tokens.ofAdvance)
  intro t
  apply h.ofBind (h.ofTokens (expr_congr h.tokens hn))
  intro cond
  apply h.ofBind (h.ofCheck (.truth cond))
  intro _
  apply h.ofBind (block_congr h hn hstmt [])
  intro body
  exact h.ofBind (h.ofTokens (word_congr h.tokens _)) fun _ => h.ofPure _

theorem forStmt_congr : R Stmt (forStmt o stmt n) (forStmt o' stmt' n') := by
  unfold forStmt
  apply h.ofBind (h.ofTokens h.tokens.ofAdvance)
  intro t
  apply h.ofBind (h.ofTokens (identifier_congr h.tokens Expected.noConfusion))
  intro var
  apply h.ofBind (h.ofTokens (mark_congr h.tokens Mark.noConfusion))
  intro _
  apply h.ofBind (h.ofTokens (loopType_congr h.tokens hn var))
  intro _
  apply h.ofBind (h.ofTokens (mark_congr h.tokens Mark.noConfusion))
  intro _
  apply h.ofBind (h.ofTokens (expr_congr h.tokens hn))
  intro start
  apply h.ofBind (h.ofTokens (mark_congr h.tokens Mark.noConfusion))
  intro _
  apply h.ofBind (h.ofTokens (expr_congr h.tokens hn))
  intro stop
  apply h.ofBind (h.ofCheck (.bounds var start stop))
  intro _
  apply h.ofBind (block_congr h hn hstmt _)
  intro body
  exact h.ofBind (h.ofTokens (word_congr h.tokens _)) fun _ => h.ofPure _

theorem fnStmt_congr : R Stmt (fnStmt o stmt n) (fnStmt o' stmt' n') := by
  unfold fnStmt
  apply h.ofBind (h.ofTokens h.tokens.ofAdvance)
  intro t
  apply h.ofBind (h.ofTokens (identifier_congr h.tokens Expected.noConfusion))
  intro name
  apply h.ofBind (h.ofTokens (params_congr h.tokens hn))
  intro ps
  apply h.ofBind (block_congr h hn hstmt ps)
  intro body
  exact h.ofBind (h.ofTokens (word_congr h.tokens _)) fun _ => h.ofPure _

end

theorem letStmt_congr : R Stmt (letStmt o n) (letStmt o' n') := by
  unfold letStmt
  apply h.ofBind (h.ofTokens h.tokens.ofAdvance)
  intro t
  apply h.ofBind (h.ofTokens (identifier_congr h.tokens Expected.noConfusion))
  intro name
  apply h.ofBind (h.ofTokens (mark_congr h.tokens Mark.noConfusion))
  intro _
  apply h.ofBind (h.ofTokens (h.tokens.ofType hn))
  intro ty
  apply h.ofBind (h.ofTokens (mark_congr h.tokens Mark.noConfusion))
  intro _
  apply h.ofBind (h.ofTokens (expr_congr h.tokens hn))
  intro init
  exact h.ofBind (h.ofCheck (.type ty init name)) fun _ => h.ofPure _

theorem printStmt_congr : R Stmt (printStmt o n) (printStmt o' n') := by
  unfold printStmt
  apply h.ofBind (h.ofTokens h.tokens.ofAdvance)
  intro t
  apply h.ofBind (h.ofTokens (expr_congr h.tokens hn))
  intro value
  exact h.ofBind (h.ofCheck (.infer value)) fun _ => h.ofPure _

theorem returnStmt_congr : R Stmt (returnStmt o n) (returnStmt o' n') := by
  unfold returnStmt
  apply h.ofBind (h.ofTokens h.tokens.ofAdvance)
  intro t
  apply h.ofBind (h.ofTokens (h.tokens.ofLooks blockEnds_looks))
  intro ends
  apply h.ofBind (h.ofTokens (h.tokens.ofLooks (isAt_looks _)))
  intro semicolon
  split
  · exact h.ofPure _
  · apply h.ofBind (h.ofTokens (expr_congr h.tokens hn))
    intro value
    exact h.ofBind (h.ofCheck (.infer value)) fun _ => h.ofPure _

theorem nameStmt_congr (name : Bytes) : R Stmt (nameStmt o n name) (nameStmt o' n' name) := by
  unfold nameStmt
  apply h.ofBind (h.ofTokens h.tokens.ofAdvance)
  intro t
  apply h.ofBind (h.ofTokens (named_congr h.tokens (expr_congr h.tokens hn) hn t.pos name))
  intro target
  apply h.ofBind (h.ofTokens (h.tokens.ofLooks (isAt_looks _)))
  intro isStore
  split
  · split
    · apply h.ofBind (h.ofTokens (mark_congr h.tokens Mark.noConfusion))
      intro _
      apply h.ofBind (h.ofTokens (expr_congr h.tokens hn))
      intro value
      exact h.ofBind (h.ofChange (.store _ _ _ value)) fun _ => h.ofPure _
    · exact h.ofTokens (h.tokens.ofUnexpected Expected.noConfusion)
  · exact h.ofBind (h.ofCheck (.infer target)) fun _ => h.ofPure _

theorem bareStmt_congr {stmt stmt' : ParseM Stmt} (hstmt : R Stmt stmt stmt') :
    R Stmt (bareStmt o stmt n) (bareStmt o' stmt' n') := by
  unfold bareStmt
  apply h.ofBind (h.ofTokens (h.tokens.ofLooks token?_looks))
  intro t?
  split
  · exact h.ofTokens (h.tokens.ofUnexpected Expected.noConfusion)
  · split
    · exact letStmt_congr h hn
    · exact printStmt_congr h hn
    · exact ifStmt_congr h hn hstmt
    · exact whileStmt_congr h hn hstmt
    · exact forStmt_congr h hn hstmt
    · exact fnStmt_congr h hn hstmt
    · exact returnStmt_congr h hn
    · exact nameStmt_congr h hn _
    · exact h.ofThrow fun _ _ => ParseError.noConfusion
    · exact h.ofThrow fun _ _ => ParseError.noConfusion
    · exact h.ofThrow fun _ _ => ParseError.noConfusion

/-- Statements, by induction on the steps: the statements in blocks are read with one
    step less. -/
theorem stmt_congr : R Stmt (stmt o n) (stmt o' n') := by
  refine h.countdown (stmt o) (stmt o') rfl rfl ?_ hn
  intro n n' hn ih
  rw [stmt_succ, stmt_succ]
  apply h.ofBind (bareStmt_congr h (h.succ hn) ih)
  intro a
  exact h.ofBind (h.ofTokens (accept_congr h.tokens _)) fun _ => h.ofPure a

/-- A block of any statements. -/
theorem stmtBlock_congr (locals : List Param) :
    R Block (block o (stmt o n) n locals) (block o' (stmt o' n') n' locals) :=
  block_congr h hn (stmt_congr h hn) locals

theorem topStmts_congr {k k' : Nat} (hk : S k k') :
    R Program (topStmts o n k) (topStmts o' n' k') := by
  refine h.countdown (topStmts o n) (topStmts o' n') rfl rfl ?_ hk
  intro k k' _ ih
  unfold topStmts
  apply h.ofBind (h.ofTokens (h.tokens.ofLooks token?_looks))
  intro t?
  split
  · exact h.ofPure []
  · apply h.ofBind (h.ofNote _)
    intro _
    apply h.ofBind (stmt_congr h hn)
    intro a
    apply h.ofBind (h.ofEnactTop a)
    intro _
    exact h.ofBind ih fun p => h.ofPure _

end

end Lumen.Parse
