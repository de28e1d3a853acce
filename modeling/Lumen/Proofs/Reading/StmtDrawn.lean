/-
  Lumen.Proofs.Reading.StmtDrawn — statements, too, come from the tokens.

  What is wrong with a statement was found while its expressions were read, or by
  a check of them.  A check blames the place of some node, or names a variable
  at its place, and both come from tokens.  So whatever a parser reports, checked
  or not, it reports of the tokens it was given.

  Main statements:
    * `judged_blamed` — what the judgements report of a drawn expression;
    * `checking_draws` … `inScope_draws` — checks, changes and scopes;
    * `stmt_draws` — statements;
    * `program_draws`, `program_blamed` — whole programs.
-/
import Lumen.Proofs.Reading.Drawn

namespace Lumen.Parse
open CursorM

section
variable {I : Cursor → Prop} {T : Token → Prop} {B : ParseError → Prop}

/-! ## §1. Checks -/

theorem blames_drawn {pos : Pos} (hpos : ∃ t, T t ∧ t.pos = pos) :
    Blames (Blamed T) pos := ⟨fun _ _ _ => hpos, fun _ _ _ => hpos⟩

theorem typeOf_blamed (env : Env) {name : Bytes} {pos : Pos} (h : T ⟨.ident name, pos⟩) :
    Gives (env.typeOf name pos) (fun _ => True) (Blamed T) :=
  (env.typeOf_gives name pos fun _ => h).weaken fun _ _ => trivial

/-- The judgements blame places in the expression, and name variables of it. -/
theorem judged_blamed (env : Env) {e : Expr} (he : e.Drawn T) :
    Judged env (fun _ => True) (Blamed T) e := by
  apply judged
  · intro part hpart
    obtain ⟨t, ht, hpos, -⟩ := he part hpart
    exact blames_drawn ⟨t, ht, hpos⟩
  · intro u hu
    exact typeOf_blamed env (he.of_use hu)

theorem infer_blamed (env : Env) {e : Expr} (he : e.Drawn T) :
    Gives (infer env e) (fun _ => True) (Blamed T) :=
  (judged_blamed env he).infers.weaken fun _ _ => trivial

theorem checkType_blamed (env : Env) {e : Expr} (he : e.Drawn T) (type : Ty) (name : Bytes) :
    Gives (checkType env type e name) (fun _ => True) (Blamed T) :=
  ((judged_blamed env he).checks type name e.pos (judged_blamed env he).blames).weaken
    fun _ _ => trivial

theorem checkTruth_blamed (env : Env) {cond : Expr} (hcond : cond.Drawn T) :
    Gives (env.checkTruth cond) (fun _ => True) (Blamed T) :=
  (Env.checkTruth_judged (judged_blamed env hcond)).weaken fun _ _ => trivial

theorem checkBounds_blamed (env : Env) (var : Bytes) {start stop : Expr} (hstart : start.Drawn T)
    (hstop : stop.Drawn T) :
    Gives (env.checkBounds var start stop) (fun _ => True) (Blamed T) :=
  (Env.checkBounds_judged (judged_blamed env hstart) (judged_blamed env hstop) var).weaken
    fun _ _ => trivial

/-- What a binding refuses is about no token. -/
theorem declare_blamed (env : Env) (name : Bytes) (type : Ty) (value : Value) :
    Gives (env.declare name type value) (fun _ => True) (Blamed T) := by
  unfold Env.declare
  split <;> exact trivial

theorem assign_blamed (env : Env) (name : Bytes) (value : Value) (pos : Option Pos) :
    Gives (env.assign name value pos) (fun _ => True) (Blamed T) := by
  unfold Env.assign ScopeStack.assign
  split
  · exact trivial
  · split <;> exact trivial

theorem declareAll_blamed (env : Env) (locals : List Param) :
    Gives (env.declareAll locals) (fun _ => True) (Blamed T) := by
  obtain ⟨env', henv'⟩ := env.exists_declareAll locals
  rw [henv']
  exact trivial

theorem enact_blamed (env : Env) (a : Stmt) :
    Gives (env.enact a) (fun _ => True) (Blamed T) := by
  cases a with
  | let_ p name type init => exact declare_blamed env name type _
  | _ => exact trivial

theorem store_blamed (env : Env) {pos : Pos} {name : Bytes} {path : List Expr} {value : Expr}
    (htarget : (Expr.access pos name path).Drawn T) (hvalue : value.Drawn T) :
    Gives (env.store pos name path value) (fun _ => True) (Blamed T) := by
  have hname : T ⟨.ident name, pos⟩ :=
    htarget.of_use (u := { name, pos }) (by rw [Expr.uses_access]; exact List.mem_cons_self)
  have hpos : Blames (Blamed T) pos := blames_drawn ⟨_, hname, rfl⟩
  have hpath : ∀ e ∈ path, e.Drawn T :=
    Expr.forall_drawn.mp fun part hpart => htarget part (List.mem_cons_of_mem _ hpart)
  unfold Env.store
  apply (typeOf_blamed env hname).bind
  intro declared _
  split
  · exact (checkType_blamed env hvalue _ _).bind fun _ _ => assign_blamed env _ _ _
  · apply (inferIndices_judged hpos fun e he => judged_blamed env (hpath e he)).bind
    intro elem _
    split
    · exact (checkType_blamed env hvalue _ _).bind fun _ _ => assign_blamed env _ _ _
    · exact (infer_blamed env hvalue).bind fun _ _ => assign_blamed env _ _ _

/-! ## §2. Checks, changes and scopes of a reader -/

/-- A reader of tokens among readers of statements. -/
theorem lift_draws {α : Type} {Q : α → Prop} {m : CursorM α} (hm : Draws I B m Q) :
    Draws I B (liftM m : ParseM α) Q := by
  intro s hs
  rw [ends_lift]
  exact hm s.cursor hs

/-- The result of a check, or its error. -/
theorem certain_draws {α : Type} {r : Except ParseError α}
    (hr : Gives r (fun _ => True) (Blamed T)) (hB : ∀ e, Blamed T e → B e) :
    Draws I B (certain (orFail r)) fun _ => True := by
  intro s hs
  rw [ends_certain]
  exact gives_orFail.mpr
    (hr.mono (fun _ _ => ⟨trivial, hs⟩) fun e he => ⟨hs, he.meets (hB e he) _⟩)

theorem modify_draws (f : State → Env) :
    Draws I B (modify fun s => { s with env := f s } : ParseM Unit) fun _ => True :=
  fun _ hs => ⟨trivial, hs⟩

theorem note_draws (o : Options) (e : Event) : Draws I B (note o e) fun _ => True :=
  fun _ hs => ends_note fun _ => ⟨trivial, hs⟩

theorem get_draws : Draws I B (get : ParseM State) fun _ => True := fun _ hs => ⟨trivial, hs⟩

theorem enter_draws (o : Options) : Draws I B (enter o) fun _ => True := by
  unfold enter
  apply (modify_draws _).bind
  intro _ _
  exact get_draws.bind fun _ _ => note_draws o _

theorem leave_draws (o : Options) : Draws I B (leave o) fun _ => True := by
  unfold leave
  apply get_draws.bind
  intro s _
  have hpop : Draws I B (certain s.env.pop) fun _ => True := by
    intro t ht
    rw [ends_certain]
    unfold Env.pop
    split
    · exact ⟨trivial, ht⟩
    · exact ⟨ht, trivial⟩
  apply hpop.bind
  intro env _
  exact (modify_draws _).bind fun _ _ => note_draws o _

section
variable (o : Options) (hchecks : o.checked = true → ∀ e, Blamed T e → B e)
include hchecks

theorem checking_draws {α : Type} {check : Env → Except ParseError α}
    (hcheck : ∀ env, Gives (check env) (fun _ => True) (Blamed T)) :
    Draws I B (checking o check) fun _ => True := by
  unfold checking
  split
  · next hon =>
    apply get_draws.bind
    intro s _
    exact (certain_draws (hcheck s.env) (hchecks hon)).bind fun _ _ => draws_pure trivial
  · exact draws_pure trivial

theorem updating_draws {change : Env → Except ParseError Env}
    (hchange : ∀ env, Gives (change env) (fun _ => True) (Blamed T)) :
    Draws I B (updating o change) fun _ => True := by
  unfold updating
  split
  · next hon =>
    apply get_draws.bind
    intro s _
    exact (certain_draws (hchange s.env) (hchecks hon)).bind fun env _ => modify_draws fun _ => env
  · exact draws_pure trivial

theorem inScope_draws (locals : List Param) {α : Type} {body : ParseM α}
    {Q : α → Prop} (hbody : Draws I B body Q) : Draws I B (inScope o locals body) Q := by
  unfold inScope
  split
  · apply (enter_draws o).bind
    intro _ _
    apply (updating_draws o hchecks fun env => declareAll_blamed env locals).bind
    intro _ _
    apply hbody.bind
    intro a ha
    exact (leave_draws o).bind fun _ _ => draws_pure ha
  · exact hbody

/-- A name that is taken is blamed on the place of the function. -/
theorem register_draws (hon : o.checked = true) (f : Signature) {pos : Pos}
    (hpos : ∃ t, T t ∧ t.pos = pos) : Draws I B (register o f pos) fun _ => True := by
  unfold register
  apply get_draws.bind
  intro s _
  have hregister : Gives (s.env.register f pos) (fun _ => True) (Blamed T) := by
    unfold Env.register
    split
    · exact hpos
    · exact trivial
  apply (certain_draws hregister (hchecks hon)).bind
  intro env _
  exact (modify_draws _).bind fun _ _ => note_draws o _

end

/-! ## §3. Statements -/

/-- A reader of statements, the first token of which gives the place. -/
def DrawsStmt (I : Cursor → Prop) (T : Token → Prop) (B : ParseError → Prop) (m : ParseM Stmt) :
    Prop :=
  Draws I B m fun a => ∃ t, T t ∧ t.pos = a.pos

/-- A reader of statements that start with `l`. -/
def DrawsFrom (I : Cursor → Prop) (T : Token → Prop) (B : ParseError → Prop) (l : Lexeme)
    (m : ParseM Stmt) : Prop :=
  ∀ s, I s.cursor → s.cursor.lexeme? = some l →
    Ends m s (fun a t => (∃ u, T u ∧ u.pos = a.pos) ∧ I t.cursor)
      fun f t => I t.cursor ∧ Meets B t.cursor f

section
variable (h : Supplies I T B) (o : Options) (hchecks : o.checked = true → ∀ e, Blamed T e → B e)
include h hchecks

omit hchecks in
/-- The first token is in `T`. -/
theorem drawsFrom_advance {l : Lexeme} (hne : l ≠ .mark .equal) {k : Token → ParseM Stmt}
    (hk : ∀ t, T t → t.lexeme = l → DrawsStmt I T B (k t)) :
    DrawsFrom I T B l (liftM advance >>= k) := by
  intro s hs hhead
  rw [ends_bind, ends_lift]
  apply (advance_drawn h hs hhead hne).mono
  · rintro t c ⟨⟨ht, hl⟩, hc⟩
    exact hk t ht hl _ hc
  · exact fun _ _ hf => hf

omit h hchecks in
theorem blockEnds_draws : Draws I B blockEnds fun _ => True := by
  unfold blockEnds
  apply lexeme?_draws.bind
  intro l _
  split <;> exact draws_pure trivial

section
variable {stmt : ParseM Stmt} (hstmt : DrawsStmt I T B stmt)
include hstmt

omit h in
theorem stmts_draws (steps : Nat) : Draws I B (stmts o stmt steps) fun _ => True := by
  induction steps with
  | zero => exact draws_throw fun _ => trivial
  | succ steps ih =>
    unfold stmts
    apply (lift_draws blockEnds_draws).bind
    intro ends _
    split
    · exact draws_pure trivial
    · apply hstmt.bind
      intro a _
      apply (updating_draws o hchecks fun env => enact_blamed env a).bind
      intro _ _
      exact ih.bind fun _ _ => draws_pure trivial

theorem block_draws (steps : Nat) (locals : List Param) :
    Draws I B (block o stmt steps locals) fun _ => True := by
  unfold block
  have hpos : Draws I B blockPos fun _ => True :=
    (token?_draws h).bind fun _ _ => draws_pure trivial
  apply (lift_draws hpos).bind
  intro pos _
  exact (inScope_draws o hchecks locals (stmts_draws o hchecks hstmt steps)).bind
    fun _ _ => draws_pure trivial

theorem elseBlock_draws (steps : Nat) : Draws I B (elseBlock o stmt steps) fun _ => True := by
  unfold elseBlock
  apply (lift_draws (accept_draws h _)).bind
  intro isElse _
  split
  · exact (block_draws h o hchecks hstmt steps []).bind fun _ _ => draws_pure trivial
  · exact draws_pure trivial

theorem ifStmt_draws (steps : Nat) :
    DrawsFrom I T B (.word .if_) (ifStmt o stmt steps) := by
  unfold ifStmt
  apply drawsFrom_advance h (by decide)
  intro t ht _
  apply (lift_draws (expr_draws h steps)).bind
  intro cond hcond
  apply (checking_draws o hchecks fun env => checkTruth_blamed env hcond).bind
  intro _ _
  apply (block_draws h o hchecks hstmt steps []).bind
  intro then_ _
  apply (elseBlock_draws h o hchecks hstmt steps).bind
  intro else_ _
  exact (lift_draws (word_draws h _)).bind fun _ _ => draws_pure ⟨t, ht, rfl⟩

theorem whileStmt_draws (steps : Nat) :
    DrawsFrom I T B (.word .while_) (whileStmt o stmt steps) := by
  unfold whileStmt
  apply drawsFrom_advance h (by decide)
  intro t ht _
  apply (lift_draws (expr_draws h steps)).bind
  intro cond hcond
  apply (checking_draws o hchecks fun env => checkTruth_blamed env hcond).bind
  intro _ _
  apply (block_draws h o hchecks hstmt steps []).bind
  intro body _
  exact (lift_draws (word_draws h _)).bind fun _ _ => draws_pure ⟨t, ht, rfl⟩

theorem forStmt_draws (steps : Nat) :
    DrawsFrom I T B (.word .for_) (forStmt o stmt steps) := by
  unfold forStmt
  apply drawsFrom_advance h (by decide)
  intro t ht _
  apply (lift_draws (identifier_draws h _)).bind
  intro var hvar
  apply (lift_draws (mark_draws h _)).bind
  intro _ _
  apply (lift_draws (loopType_draws h steps hvar)).bind
  intro _ _
  apply (lift_draws (mark_draws h _)).bind
  intro _ _
  apply (lift_draws (expr_draws h steps)).bind
  intro start hstart
  apply (lift_draws (mark_draws h _)).bind
  intro _ _
  apply (lift_draws (expr_draws h steps)).bind
  intro stop hstop
  apply (checking_draws o hchecks fun env => checkBounds_blamed env var hstart hstop).bind
  intro _ _
  apply (block_draws h o hchecks hstmt steps _).bind
  intro body _
  exact (lift_draws (word_draws h _)).bind fun _ _ => draws_pure ⟨t, ht, rfl⟩

theorem fnStmt_draws (steps : Nat) :
    DrawsFrom I T B (.word .fn) (fnStmt o stmt steps) := by
  unfold fnStmt
  apply drawsFrom_advance h (by decide)
  intro t ht _
  apply (lift_draws (identifier_draws h _)).bind
  intro name _
  apply (lift_draws (params_draws h steps)).bind
  intro ps _
  apply (block_draws h o hchecks hstmt steps ps).bind
  intro body _
  exact (lift_draws (word_draws h _)).bind fun _ _ => draws_pure ⟨t, ht, rfl⟩

omit hstmt

theorem letStmt_draws (steps : Nat) :
    DrawsFrom I T B (.word .let_) (letStmt o steps) := by
  unfold letStmt
  apply drawsFrom_advance h (by decide)
  intro t ht _
  apply (lift_draws (identifier_draws h _)).bind
  intro name _
  apply (lift_draws (mark_draws h _)).bind
  intro _ _
  apply (lift_draws (type_draws h steps)).bind
  intro ty _
  apply (lift_draws (mark_draws h _)).bind
  intro _ _
  apply (lift_draws (expr_draws h steps)).bind
  intro init hinit
  exact (checking_draws o hchecks fun env => checkType_blamed env hinit ty name).bind
    fun _ _ => draws_pure ⟨t, ht, rfl⟩

theorem printStmt_draws (steps : Nat) :
    DrawsFrom I T B (.word .print) (printStmt o steps) := by
  unfold printStmt
  apply drawsFrom_advance h (by decide)
  intro t ht _
  apply (lift_draws (expr_draws h steps)).bind
  intro value hvalue
  exact (checking_draws o hchecks fun env => infer_blamed env hvalue).bind
    fun _ _ => draws_pure ⟨t, ht, rfl⟩

theorem returnStmt_draws (steps : Nat) :
    DrawsFrom I T B (.word .return_) (returnStmt o steps) := by
  unfold returnStmt
  apply drawsFrom_advance h (by decide)
  intro t ht _
  apply (lift_draws blockEnds_draws).bind
  intro ends _
  apply (lift_draws (isAt_draws _)).bind
  intro semicolon _
  split
  · exact draws_pure ⟨t, ht, rfl⟩
  · apply (lift_draws (expr_draws h steps)).bind
    intro value hvalue
    exact (checking_draws o hchecks fun env => infer_blamed env hvalue).bind
      fun _ _ => draws_pure ⟨t, ht, rfl⟩

/-- An assignment or an expression, at the name it starts with. -/
theorem nameStmt_draws (steps : Nat) (name : Bytes) :
    DrawsFrom I T B (.ident name) (nameStmt o steps name) := by
  unfold nameStmt
  apply drawsFrom_advance h (by simp)
  intro t ht hname
  apply (lift_draws (named_draws h (expr_draws h steps) steps ht hname)).bind
  intro target htarget
  apply (lift_draws (isAt_draws _)).bind
  intro isEqual _
  split
  -- an assignment keeps only the parts of its target, of which the name comes first
  · split
    · next pos name path =>
      apply (lift_draws (mark_draws h _)).bind
      intro _ _
      apply (lift_draws (expr_draws h steps)).bind
      intro value hvalue
      exact (updating_draws o hchecks fun env => store_blamed env htarget hvalue).bind
        fun _ _ => draws_pure htarget.exists_pos
    · exact lift_draws (unexpected_draws _)
  · exact (checking_draws o hchecks fun env => infer_blamed env htarget).bind
      fun _ _ => draws_pure ⟨t, ht, rfl⟩

/-- The first token tells the kind. -/
theorem bareStmt_draws {stmt : ParseM Stmt} (hstmt : DrawsStmt I T B stmt) (steps : Nat) :
    DrawsStmt I T B (bareStmt o stmt steps) := by
  intro s hs
  unfold bareStmt
  rw [ends_bind, ends_lift, ends_token?]
  cases ht : s.cursor.token? with
  | none => exact lift_draws (unexpected_draws _) s hs
  | some t =>
    have hcurrent : s.cursor.current? = some t := (Option.filter_eq_some_iff.mp ht).1
    have hhead : s.cursor.lexeme? = some t.lexeme := by
      unfold Cursor.lexeme?
      rw [ht]
      rfl
    dsimp only
    split
    · next hl => exact letStmt_draws h o hchecks steps s hs (hl ▸ hhead)
    · next hl => exact printStmt_draws h o hchecks steps s hs (hl ▸ hhead)
    · next hl => exact ifStmt_draws h o hchecks hstmt steps s hs (hl ▸ hhead)
    · next hl => exact whileStmt_draws h o hchecks hstmt steps s hs (hl ▸ hhead)
    · next hl => exact forStmt_draws h o hchecks hstmt steps s hs (hl ▸ hhead)
    · next hl => exact fnStmt_draws h o hchecks hstmt steps s hs (hl ▸ hhead)
    · next hl => exact returnStmt_draws h o hchecks steps s hs (hl ▸ hhead)
    · next name hl => exact nameStmt_draws h o hchecks steps name s hs (hl ▸ hhead)
    -- a token that cannot start a statement is what the error is about
    · exact ⟨hs, hcurrent⟩
    · exact ⟨hs, hcurrent⟩
    · exact ⟨hs, hcurrent⟩

end

theorem stmt_draws (steps : Nat) : DrawsStmt I T B (stmt o steps) := by
  induction steps with
  | zero => exact draws_throw fun _ => trivial
  | succ steps ih =>
    rw [stmt_succ]
    apply (bareStmt_draws h o hchecks ih (steps + 1)).bind
    intro a ha
    exact (lift_draws (accept_draws h _)).bind fun _ _ => draws_pure ha

/-! ## §4. Programs -/

omit h in
theorem enactTop_draws {a : Stmt} (ha : ∃ t, T t ∧ t.pos = a.pos) :
    Draws I B (enactTop o a) fun _ => True := by
  unfold enactTop
  split
  · next hon =>
    split
    · exact register_draws o hchecks hon _ ha
    · exact updating_draws o hchecks fun env => enact_blamed env _
  · exact draws_pure trivial

theorem topStmts_draws (n steps : Nat) : Draws I B (topStmts o n steps) fun _ => True := by
  induction steps with
  | zero => exact draws_throw fun _ => trivial
  | succ steps ih =>
    unfold topStmts
    apply (lift_draws (token?_draws h)).bind
    intro t? _
    split
    · exact draws_pure trivial
    · apply (note_draws o _).bind
      intro _ _
      apply (stmt_draws h o hchecks n).bind
      intro a ha
      apply (enactTop_draws o hchecks ha).bind
      intro _ _
      exact ih.bind fun _ _ => draws_pure trivial

theorem program_draws : Draws I B (program o) fun _ => True := by
  have hsteps : Draws I B (withSteps fun steps => topStmts o steps steps) fun _ => True :=
    get_draws.bind fun s _ => topStmts_draws h o hchecks _ _
  unfold program
  apply hsteps.bind
  intro p _
  apply get_draws.bind
  intro s _
  exact (note_draws o _).bind fun _ _ => draws_pure trivial

end

/-- With checking or without, an error of a program is about the token at the cursor,
    or blames one that was read. -/
theorem program_blamed (h : Supplies I T (Blamed T)) (o : Options) :
    Draws I (Blamed T) (program o) fun _ => True :=
  program_draws h o fun _ _ he => he

/-- The cursor of a program is moved by reading and by splitting tokens only. -/
theorem program_reaches (o : Options) (s : State) :
    Ends (program o) s (fun _ t => ∃ ls, s.cursor.Reaches ls t.cursor)
      fun _ t => ∃ ls, s.cursor.Reaches ls t.cursor := by
  have hdraws := program_blamed (supplies_reached s.cursor) o s ⟨[], .refl⟩
  exact hdraws.mono (fun _ _ h => h.2) fun _ _ h => h.1

end

end Lumen.Parse
