/-
  Lumen.Proofs.Layout.Statements — statements without places.

  Two parsers that differ in layout only stand at the same index of tokens that are
  the same but for their places, with the same scopes, and with functions that are
  the same but for the places in their bodies.  Such parsers go together: what they
  read is the same but for its places, or they fail with errors that say the same,
  and they differ in layout only when they end.

  The checks of a run ask nothing of a place, so they come out alike; what they put
  into the scopes are types and constants, which have no places.

  Main statements:
    * `State.Relaid` — parsers that differ in layout only;
    * `checking_alike`, `updating_alike` — checks and changes;
    * `stmt_alike`, `program_alike` — statements and programs;
    * `layout_free` — no operation of the parser depends on the layout.
-/
import Lumen.Proofs.Layout.Reading
import Lumen.Proofs.Scoping.TopLevel
import Lumen.Token.Scan
import Lumen.Parse.Stmt

namespace Lumen

/-! ## §1. States -/

namespace Parse
open CursorM

/-- Two parsers differ in layout only. -/
structure State.Relaid (s t : State) : Prop where
  cursor : s.cursor.Relaid t.cursor
  env : s.env.Relaid t.env

/-- Two readers of statements go together from states that differ in layout only. -/
abbrev ParsesAlike {α γ : Type} (view : α → γ) (m m' : ParseM α) : Prop :=
  ReadsAlike State.Relaid view m m'

section
variable {α γ : Type} {view : α → γ}

/-- Readers of tokens move the cursor and leave the rest as it is. -/
theorem lift_alike {m m' : CursorM α} (h : ScansAlike view m m') :
    ParsesAlike view (liftM m) (liftM m') := by
  intro s s' hs
  have hread := h s.cursor s'.cursor hs.cursor
  show EndsAlike State.Relaid view (onCursor m s) (onCursor m' s')
  unfold onCursor
  revert hread
  generalize m s.cursor = r, m' s'.cursor = r'
  intro hread
  cases hread with
  | ok hview hcursor => exact .ok hview ⟨hcursor, hs.env⟩
  | error hsame hcursor => exact .error hsame ⟨hcursor, hs.env⟩

/-- What is noted down is of no consequence. -/
theorem note_alike (o o' : Options) (e e' : Event) : ParsesAlike id (note o e) (note o' e') := by
  intro s s' hs
  have hnote : ∀ (o : Options) (e : Event) (s : State), ∃ t : State,
      note o e s = .ok () t ∧ t.cursor = s.cursor ∧ t.env = s.env := by
    intro o e s
    unfold note
    split
    · exact ⟨_, rfl, rfl, rfl⟩
    · exact ⟨_, rfl, rfl, rfl⟩
  obtain ⟨t, ht, hc, he⟩ := hnote o e s
  obtain ⟨t', ht', hc', he'⟩ := hnote o' e' s'
  rw [ht, ht']
  refine .ok rfl ⟨?_, ?_⟩
  · rw [hc, hc']
    exact hs.cursor
  · rw [he, he']
    exact hs.env

/-! ## §2. Checks, changes and scopes -/

/-- A change of the environment that comes to the same, places aside. -/
theorem change_alike {change change' : Env → Except ParseError Env}
    (h : ∀ a b : Env, a.Relaid b → forget Env.erase (change a) = forget Env.erase (change' b)) :
    ParsesAlike id (do
        let env ← certain (orFail (change (← get).env))
        modify fun s => { s with env })
      (do
        let env ← certain (orFail (change' (← get).env))
        modify fun s => { s with env }) := by
  intro s s' hs
  show EndsAlike _ _
    (EStateM.bind (certain (orFail (change s.env))) (fun env => modify fun s => { s with env }) s)
    (EStateM.bind (certain (orFail (change' s'.env)))
      (fun env => modify fun s => { s with env }) s')
  -- both changes are made, or both refused with errors of one cause
  rcases forget_eq_forget (h s.env s'.env hs.env) with
    ⟨a, b, ha, hb, hab⟩ | ⟨e, e', he, he', hee'⟩
  · rw [ha, hb]
    exact .ok rfl ⟨hs.cursor, Env.relaid_iff.mpr hab⟩
  · rw [he, he']
    exact .error (.error (ParseError.saysAs_of_erase_eq hee')) hs

variable {o o' : Options} (ho : o.checked = o'.checked)

include ho in
/-- A check that comes to the same, places aside. -/
theorem checking_alike {β : Type} {check check' : Env → Except ParseError α} {kept : α → β}
    (h : ∀ a b : Env, a.Relaid b → forget kept (check a) = forget kept (check' b)) :
    ParsesAlike id (checking o check) (checking o' check') := by
  unfold checking
  rw [← ho]
  split
  · intro s s' hs
    show EndsAlike _ _ (EStateM.bind (certain (orFail (check s.env))) (fun _ => pure ()) s)
      (EStateM.bind (certain (orFail (check' s'.env))) (fun _ => pure ()) s')
    rcases forget_eq_forget (h s.env s'.env hs.env) with
      ⟨a, b, ha, hb, -⟩ | ⟨e, e', he, he', hee'⟩
    · rw [ha, hb]
      exact .ok rfl hs
    · rw [he, he']
      exact .error (.error (ParseError.saysAs_of_erase_eq hee')) hs
  · exact alike_pure rfl

include ho in
/-- A change that only checked runs make. -/
theorem updating_alike {change change' : Env → Except ParseError Env}
    (h : ∀ a b : Env, a.Relaid b → forget Env.erase (change a) = forget Env.erase (change' b)) :
    ParsesAlike id (updating o change) (updating o' change') := by
  unfold updating
  rw [← ho]
  split
  · exact change_alike h
  · exact alike_pure rfl

theorem enter_alike : ParsesAlike id (enter o) (enter o') := by
  intro s s' hs
  exact note_alike o o' (.entered s.env.push.depth) (.entered s'.env.push.depth)
    { s with env := s.env.push } { s' with env := s'.env.push } ⟨hs.cursor, hs.env.push⟩

theorem leave_alike : ParsesAlike id (leave o) (leave o') := by
  intro s s' hs
  show EndsAlike _ _ (EStateM.bind (certain s.env.pop) _ s)
    (EStateM.bind (certain s'.env.pop) _ s')
  rcases hs.env.pop with ⟨a, b, ha, hb, hab⟩ | ⟨ha, hb⟩
  -- how deep the stacks are is noted down, and forgotten
  · rw [ha, hb]
    exact note_alike o o' (.left a.depth) (.left b.depth) { s with env := a } { s' with env := b }
      ⟨hs.cursor, hab⟩
  · rw [ha, hb]
    exact .error (.refl _) hs

theorem register_alike {f f' : Signature} (hf : f.erase = f'.erase) (pos pos' : Pos) :
    ParsesAlike id (register o f pos) (register o' f' pos') := by
  have hregister : ∀ (o : Options) (f : Signature) (pos : Pos),
      register o f pos = (do
        let env ← certain (orFail ((← get).env.register f pos))
        modify fun s => { s with env }) >>= fun _ =>
          note o (.registered f.name f.params.length) := by
    intro o f pos
    simp only [register, bind_assoc]
  rw [hregister o f pos, hregister o' f' pos']
  apply (change_alike fun a b h => h.register hf pos pos').bind_eq
  exact fun _ => note_alike o o' _ _

include ho in
/-- A scope of its own is entered and left in both runs. -/
theorem inScope_alike (locals : List Param) {body body' : ParseM α}
    (hbody : ParsesAlike view body body') :
    ParsesAlike view (inScope o locals body) (inScope o' locals body') := by
  unfold inScope
  rw [← ho]
  split
  · apply enter_alike.bind_eq
    intro _
    apply (updating_alike ho fun a b h => h.declareAll locals).bind_eq
    intro _
    apply hbody.bind
    intro a a' ha
    exact leave_alike.bind_eq fun _ => alike_pure ha
  · exact hbody

end

/-! ## §3. Statements -/

section
variable {o o' : Options} (ho : o.checked = o'.checked)

theorem blockEnds_alike : ScansAlike id blockEnds blockEnds := by
  unfold blockEnds
  apply lexeme?_alike.bind_eq
  intro l?
  split
  · exact alike_pure rfl
  · exact alike_pure rfl

/-- Where a block starts is a matter of layout. -/
theorem blockPos_alike : ScansAlike (fun _ => ()) blockPos blockPos :=
  token?_alike.bind fun _ _ _ => alike_pure rfl

section
variable {stmt stmt' : ParseM Stmt} (hstmt : ParsesAlike Stmt.erase stmt stmt')
include ho hstmt

theorem stmts_alike (steps : Nat) :
    ParsesAlike Stmt.eraseAll (stmts o stmt steps) (stmts o' stmt' steps) := by
  induction steps with
  | zero => exact alike_throw (.refl _)
  | succ steps ih =>
    unfold stmts
    apply (lift_alike blockEnds_alike).bind_eq
    intro ends
    split
    · exact alike_pure rfl
    · apply hstmt.bind
      intro a a' ha
      apply (updating_alike ho fun _ _ h => h.enact ha).bind_eq
      intro _
      apply ih.bind
      intro rest rest' hrest
      refine alike_pure ?_
      rw [Stmt.eraseAll, Stmt.eraseAll, ha, hrest]

theorem block_alike (steps : Nat) (locals : List Param) :
    ParsesAlike Stmt.eraseBlock (block o stmt steps locals) (block o' stmt' steps locals) := by
  unfold block
  apply (lift_alike blockPos_alike).bind
  intro pos pos' _
  apply (inScope_alike ho locals (stmts_alike ho hstmt steps)).bind
  intro body body' hbody
  exact alike_pure (congrArg (Block.mk {}) hbody)

theorem elseBlock_alike (steps : Nat) :
    ParsesAlike (Option.map Stmt.eraseBlock) (elseBlock o stmt steps)
      (elseBlock o' stmt' steps) := by
  unfold elseBlock
  apply (lift_alike (accept_alike _)).bind_eq
  intro isElse
  split
  · apply (block_alike ho hstmt steps []).bind
    intro b b' hb
    exact alike_pure (congrArg some hb)
  · exact alike_pure rfl

theorem ifStmt_alike (steps : Nat) :
    ParsesAlike Stmt.erase (ifStmt o stmt steps) (ifStmt o' stmt' steps) := by
  unfold ifStmt
  apply (lift_alike advance_alike).bind
  intro t t' _
  apply (lift_alike (expr_alike steps)).bind
  intro cond cond' hcond
  apply (checking_alike ho fun _ _ h => h.checkTruth hcond).bind_eq
  intro _
  apply (block_alike ho hstmt steps []).bind
  intro then_ then_' hthen
  apply (elseBlock_alike ho hstmt steps).bind
  intro else_ else_' helse
  apply (lift_alike (word_alike _)).bind_eq
  intro _
  refine alike_pure ?_
  rw [Stmt.erase_if, Stmt.erase_if, hcond, hthen, helse]

theorem whileStmt_alike (steps : Nat) :
    ParsesAlike Stmt.erase (whileStmt o stmt steps) (whileStmt o' stmt' steps) := by
  unfold whileStmt
  apply (lift_alike advance_alike).bind
  intro t t' _
  apply (lift_alike (expr_alike steps)).bind
  intro cond cond' hcond
  apply (checking_alike ho fun _ _ h => h.checkTruth hcond).bind_eq
  intro _
  apply (block_alike ho hstmt steps []).bind
  intro body body' hbody
  apply (lift_alike (word_alike _)).bind_eq
  intro _
  refine alike_pure ?_
  rw [Stmt.erase_while, Stmt.erase_while, hcond, hbody]

omit ho hstmt in
/-- A loop variable whose type is not `int` is reported with that type, wherever it
    stands. -/
theorem loopType_alike (steps : Nat) (var : Bytes) :
    ScansAlike id (loopType steps var) (loopType steps var) := by
  have hother : ∀ (l : Lexeme) (pos pos' : Pos), ScansAlike id
      (if l.isTypeMarker then do
        let ty ← type steps
        throw (.error (.mismatch var (.type .int) (.type ty) pos))
      else unexpected (.word .int) : CursorM Unit)
      (if l.isTypeMarker then do
        let ty ← type steps
        throw (.error (.mismatch var (.type .int) (.type ty) pos'))
      else unexpected (.word .int)) := by
    intro l pos pos'
    split
    · apply (type_alike steps).bind_eq
      intro ty
      exact alike_throw (.error (ParseError.saysAs_of_erase_eq rfl))
    · exact unexpected_alike _
  unfold loopType
  apply token?_alike.bind
  intro t? t?' ht
  cases t? with
  | none =>
    rw [Option.map_eq_none_iff.mp ht.symm]
    exact unexpected_alike _
  | some t =>
    obtain ⟨⟨l, pos'⟩, rfl, herase⟩ := Option.map_eq_some_iff.mp ht.symm
    obtain ⟨_, pos⟩ := t
    cases herase
    cases l with
    | word w =>
      cases w with
      | int => exact advance_alike.bind fun _ _ _ => alike_pure rfl
      | _ => exact hother _ pos pos'
    | _ => exact hother _ pos pos'

theorem forStmt_alike (steps : Nat) :
    ParsesAlike Stmt.erase (forStmt o stmt steps) (forStmt o' stmt' steps) := by
  unfold forStmt
  apply (lift_alike advance_alike).bind
  intro t t' _
  apply (lift_alike (identifier_alike _)).bind_eq
  intro var
  apply (lift_alike (mark_alike _)).bind_eq
  intro _
  apply (lift_alike (loopType_alike steps var)).bind_eq
  intro _
  apply (lift_alike (mark_alike _)).bind_eq
  intro _
  apply (lift_alike (expr_alike steps)).bind
  intro start start' hstart
  apply (lift_alike (mark_alike _)).bind_eq
  intro _
  apply (lift_alike (expr_alike steps)).bind
  intro stop stop' hstop
  apply (checking_alike ho fun _ _ h => h.checkBounds var hstart hstop).bind_eq
  intro _
  apply (block_alike ho hstmt steps _).bind
  intro body body' hbody
  apply (lift_alike (word_alike _)).bind_eq
  intro _
  refine alike_pure ?_
  rw [Stmt.erase_for, Stmt.erase_for, hstart, hstop, hbody]

omit ho hstmt in
theorem paramList_alike (typeSteps steps : Nat) :
    ScansAlike id (paramList typeSteps steps) (paramList typeSteps steps) := by
  induction steps with
  | zero => exact alike_throw (.refl _)
  | succ steps ih =>
    unfold paramList
    apply (identifier_alike _).bind_eq
    intro name
    apply (mark_alike _).bind_eq
    intro _
    apply (type_alike typeSteps).bind_eq
    intro ty
    apply (accept_alike _).bind_eq
    intro isComma
    split
    · apply (isAt_alike _).bind_eq
      intro isClose
      split
      · exact unexpected_alike _
      · exact ih.bind_eq fun ps => alike_pure rfl
    · exact alike_pure rfl

omit ho hstmt in
theorem params_alike (steps : Nat) : ScansAlike id (params steps) (params steps) := by
  unfold params
  apply (mark_alike _).bind_eq
  intro _
  apply (isAt_alike _).bind_eq
  intro isClose
  split
  · exact (mark_alike _).bind_eq fun _ => alike_pure rfl
  · apply (paramList_alike steps steps).bind_eq
    intro ps
    exact (mark_alike _).bind_eq fun _ => alike_pure rfl

theorem fnStmt_alike (steps : Nat) :
    ParsesAlike Stmt.erase (fnStmt o stmt steps) (fnStmt o' stmt' steps) := by
  unfold fnStmt
  apply (lift_alike advance_alike).bind
  intro t t' _
  apply (lift_alike (identifier_alike _)).bind_eq
  intro name
  apply (lift_alike (params_alike steps)).bind_eq
  intro ps
  apply (block_alike ho hstmt steps ps).bind
  intro body body' hbody
  apply (lift_alike (word_alike _)).bind_eq
  intro _
  refine alike_pure ?_
  rw [Stmt.erase_fn, Stmt.erase_fn, hbody]

end

section
include ho

theorem letStmt_alike (steps : Nat) :
    ParsesAlike Stmt.erase (letStmt o steps) (letStmt o' steps) := by
  unfold letStmt
  apply (lift_alike advance_alike).bind
  intro t t' _
  apply (lift_alike (identifier_alike _)).bind_eq
  intro name
  apply (lift_alike (mark_alike _)).bind_eq
  intro _
  apply (lift_alike (type_alike steps)).bind_eq
  intro ty
  apply (lift_alike (mark_alike _)).bind_eq
  intro _
  apply (lift_alike (expr_alike steps)).bind
  intro init init' hinit
  apply (checking_alike ho fun _ _ h => checkType_relaid h ty hinit name).bind_eq
  intro _
  refine alike_pure ?_
  rw [Stmt.erase, Stmt.erase, hinit]

theorem printStmt_alike (steps : Nat) :
    ParsesAlike Stmt.erase (printStmt o steps) (printStmt o' steps) := by
  unfold printStmt
  apply (lift_alike advance_alike).bind
  intro t t' _
  apply (lift_alike (expr_alike steps)).bind
  intro value value' hvalue
  apply (checking_alike ho fun _ _ h => infer_relaid h hvalue).bind_eq
  intro _
  refine alike_pure ?_
  rw [Stmt.erase, Stmt.erase, hvalue]

theorem returnStmt_alike (steps : Nat) :
    ParsesAlike Stmt.erase (returnStmt o steps) (returnStmt o' steps) := by
  unfold returnStmt
  apply (lift_alike advance_alike).bind
  intro t t' _
  apply (lift_alike blockEnds_alike).bind_eq
  intro ends
  apply (lift_alike (isAt_alike _)).bind_eq
  intro semicolon
  split
  · refine alike_pure ?_
    rw [Stmt.erase, Stmt.erase]
  · apply (lift_alike (expr_alike steps)).bind
    intro value value' hvalue
    apply (checking_alike ho fun _ _ h => infer_relaid h hvalue).bind_eq
    intro _
    refine alike_pure ?_
    rw [Stmt.erase, Stmt.erase, hvalue]

omit ho in
theorem exists_access_of_erase_eq {pos : Pos} {name : Bytes} {path : List Expr} {e : Expr}
    (h : (Expr.access pos name path).erase = e.erase) :
    ∃ pos' path', e = .access pos' name path' ∧ Expr.eraseAll path = Expr.eraseAll path' := by
  cases e with
  | access pos' name' path' =>
    rw [Expr.erase, Expr.erase] at h
    injection h with _ hname hpath
    subst hname
    exact ⟨pos', path', rfl, hpath⟩
  | _ => simp [Expr.erase] at h

theorem nameStmt_alike (steps : Nat) (name : Bytes) :
    ParsesAlike Stmt.erase (nameStmt o steps name) (nameStmt o' steps name) := by
  unfold nameStmt
  apply (lift_alike advance_alike).bind
  intro t t' _
  apply (lift_alike (named_alike (expr_alike steps) steps t.pos t'.pos name)).bind
  intro target target' htarget
  apply (lift_alike (isAt_alike _)).bind_eq
  intro isStore
  split
  · -- in both layouts or in none, what was read can be assigned to
    by_cases haccess : ∃ pos name path, target = .access pos name path
    · obtain ⟨pos, name, path, rfl⟩ := haccess
      obtain ⟨pos', path', rfl, hpath⟩ := exists_access_of_erase_eq htarget
      apply (lift_alike (mark_alike _)).bind_eq
      intro _
      apply (lift_alike (expr_alike steps)).bind
      intro value value' hvalue
      apply (updating_alike ho fun _ _ h => h.store pos pos' name hpath hvalue).bind_eq
      intro _
      refine alike_pure ?_
      rw [Stmt.erase, Stmt.erase, hpath, hvalue]
    · split
      · exact absurd ⟨_, _, _, rfl⟩ haccess
      · split
        · obtain ⟨pos, path, rfl, -⟩ := exists_access_of_erase_eq htarget.symm
          exact absurd ⟨_, _, _, rfl⟩ haccess
        · exact lift_alike (unexpected_alike _)
  · apply (checking_alike ho fun _ _ h => infer_relaid h htarget).bind_eq
    intro _
    refine alike_pure ?_
    rw [Stmt.erase, Stmt.erase, htarget]

theorem bareStmt_alike {stmt stmt' : ParseM Stmt} (hstmt : ParsesAlike Stmt.erase stmt stmt')
    (steps : Nat) : ParsesAlike Stmt.erase (bareStmt o stmt steps) (bareStmt o' stmt' steps) := by
  unfold bareStmt
  apply (lift_alike token?_alike).bind
  intro t? t?' ht
  cases t? with
  | none =>
    rw [Option.map_eq_none_iff.mp ht.symm]
    exact lift_alike (unexpected_alike _)
  | some t =>
    -- the tokens are the same but for their places, so one case split serves both runs
    obtain ⟨⟨l, pos'⟩, rfl, herase⟩ := Option.map_eq_some_iff.mp ht.symm
    obtain ⟨_, pos⟩ := t
    cases herase
    have hstray : ParseError.SaysAs (.strayTerminator ⟨l, pos⟩) (.strayTerminator ⟨l, pos'⟩) :=
      ParseError.saysAs_of_erase_eq rfl
    have hunknown : ParseError.SaysAs (.unknownStatement ⟨l, pos⟩) (.unknownStatement ⟨l, pos'⟩) :=
      ParseError.saysAs_of_erase_eq rfl
    cases l with
    | word w =>
      cases w with
      | let_ => exact letStmt_alike ho steps
      | print => exact printStmt_alike ho steps
      | if_ => exact ifStmt_alike ho hstmt steps
      | while_ => exact whileStmt_alike ho hstmt steps
      | for_ => exact forStmt_alike ho hstmt steps
      | fn => exact fnStmt_alike ho hstmt steps
      | return_ => exact returnStmt_alike ho steps
      | end_ => exact alike_throw (.error hstray)
      | else_ => exact alike_throw (.error hstray)
      | _ => exact alike_throw (.error hunknown)
    | ident name => exact nameStmt_alike ho steps name
    | _ => exact alike_throw (.error hunknown)

/-- Statements, by induction on the steps: the statements in blocks are read with one
    step less. -/
theorem stmt_alike (steps : Nat) : ParsesAlike Stmt.erase (stmt o steps) (stmt o' steps) := by
  induction steps with
  | zero => exact alike_throw (.refl _)
  | succ steps ih =>
    rw [stmt_succ, stmt_succ]
    apply (bareStmt_alike ho ih (steps + 1)).bind
    intro a a' ha
    exact (lift_alike (accept_alike _)).bind_eq fun _ => alike_pure ha

/-! ## §4. Programs -/

omit ho in
theorem signature?_erase (s : Stmt) : s.erase.signature? = s.signature?.map Signature.erase := by
  cases s with
  | if_ p cond then_ else_ => rw [Stmt.erase_if]; rfl
  | while_ p cond body => rw [Stmt.erase_while]; rfl
  | for_ p var start stop body => rw [Stmt.erase_for]; rfl
  | fn p name params body => rw [Stmt.erase_fn]; rfl
  | return_ p value => rw [Stmt.erase_return]; rfl
  | _ => rw [Stmt.erase]; rfl

omit ho in
/-- A function is registered, and any other statement takes effect as in a block. -/
theorem enactTop_eq (o : Options) (s : Stmt) :
    enactTop o s = if o.checked then
        s.signature?.elim (updating o (·.enact s)) fun f => register o f s.pos
      else pure () := by
  cases s <;> rfl

theorem enactTop_alike {a a' : Stmt} (ha : a.erase = a'.erase) :
    ParsesAlike id (enactTop o a) (enactTop o' a') := by
  have hsignature : a.signature?.map Signature.erase = a'.signature?.map Signature.erase := by
    rw [← signature?_erase, ← signature?_erase, ha]
  rw [enactTop_eq, enactTop_eq, ← ho]
  split
  · cases hf : a.signature? with
    | none =>
      rw [hf] at hsignature
      rw [Option.map_eq_none_iff.mp hsignature.symm]
      exact updating_alike ho fun _ _ h => h.enact ha
    | some f =>
      rw [hf] at hsignature
      obtain ⟨f', hf', herase⟩ := Option.map_eq_some_iff.mp hsignature.symm
      rw [hf']
      exact register_alike herase.symm a.pos a'.pos
  · exact alike_pure rfl

theorem topStmts_alike (stmtSteps steps : Nat) :
    ParsesAlike Stmt.eraseAll (topStmts o stmtSteps steps) (topStmts o' stmtSteps steps) := by
  induction steps with
  | zero => exact alike_throw (.refl _)
  | succ steps ih =>
    unfold topStmts
    apply (lift_alike token?_alike).bind
    intro t? t?' ht
    cases t? with
    | none =>
      rw [Option.map_eq_none_iff.mp ht.symm]
      exact alike_pure rfl
    | some t =>
      -- a token stands ahead of both, or of neither
      obtain ⟨t', rfl, -⟩ := Option.map_eq_some_iff.mp ht.symm
      apply (note_alike o o' _ _).bind_eq
      intro _
      apply (stmt_alike ho stmtSteps).bind
      intro a a' ha
      apply (enactTop_alike ho ha).bind_eq
      intro _
      apply ih.bind
      intro p p' hp
      refine alike_pure ?_
      rw [Stmt.eraseAll, Stmt.eraseAll, ha, hp]

omit ho in
/-- As much is left to read in either layout. -/
theorem withSteps_alike {α γ : Type} {view : α → γ} {read read' : Nat → ParseM α}
    (hread : ∀ steps, ParsesAlike view (read steps) (read' steps)) :
    ParsesAlike view (withSteps read) (withSteps read') := by
  intro s s' hs
  show EndsAlike _ _ (read (s.cursor.weight + 1) s) (read' (s'.cursor.weight + 1) s')
  rw [hs.cursor.weight_eq]
  exact hread _ s s' hs

theorem program_alike : ParsesAlike Program.erase (program o) (program o') := by
  unfold program
  apply (withSteps_alike fun steps => topStmts_alike ho steps steps).bind
  intro p p' hp s s' hs
  exact (note_alike o o' _ _).bind_eq (fun _ => alike_pure hp) s s' hs

end
end

/-! ## §5. Layout -/

/-- No operation of the parser depends on the layout.  From parsers that differ in
    layout only, with checking on in both or in neither, each of them reads the same
    but for the places, or fails with an error that says the same, and leaves parsers
    that differ in layout only.  So sources with the same tokens are both accepted or
    both rejected, with the same tree, the same bindings and the same message. -/
theorem layout_free {o o' : Options} (ho : o.checked = o'.checked) :
    (∀ s s' : State, s.Relaid s' →
      EndsAlike State.Relaid Program.erase (program o s) (program o' s')
        ∧ EndsAlike State.Relaid Stmt.erase (statement o s) (statement o' s')
        ∧ EndsAlike State.Relaid Stmt.eraseBlock (statements o s) (statements o' s')
        ∧ EndsAlike State.Relaid Expr.erase (expression s) (expression s')
        ∧ EndsAlike State.Relaid id (typeName s) (typeName s'))
      ∧ ∀ (source source' : Bytes) (tokens tokens' : List Token),
        tokenize source = .ok tokens → tokenize source' = .ok tokens' →
        tokens.map Token.lexeme = tokens'.map Token.lexeme →
        EndsAlike State.Relaid Program.erase (whole o tokens) (whole o' tokens') := by
  refine ⟨?_, ?_⟩
  · intro s s' hs
    exact ⟨program_alike ho s s' hs, withSteps_alike (stmt_alike ho) s s' hs,
      withSteps_alike (fun steps => block_alike ho (stmt_alike ho steps) steps []) s s' hs,
      withSteps_alike (fun steps => lift_alike (expr_alike steps)) s s' hs,
      withSteps_alike (fun steps => lift_alike (type_alike steps)) s s' hs⟩
  · intro source source' tokens tokens' _ _ hlexemes
    exact program_alike ho _ _ ⟨Cursor.relaid_ofTokens hlexemes, rfl, rfl⟩

/-- A list type whose `>` is split from the `=` after it, in one line and in two, by a
    traced parser and by one that is not. -/
theorem layout_free_split :
    let traced : Options := { checked := true, trace := true }
    let tokens : List Token :=
      [⟨.word .let_, ⟨0, 1, 1⟩⟩, ⟨.ident (ascii "x"), ⟨4, 1, 5⟩⟩, ⟨.mark .colon, ⟨5, 1, 6⟩⟩,
        ⟨.word .list, ⟨6, 1, 7⟩⟩, ⟨.mark .lt, ⟨10, 1, 11⟩⟩, ⟨.word .int, ⟨11, 1, 12⟩⟩,
        ⟨.mark .ge, ⟨14, 1, 15⟩⟩, ⟨.ident (ascii "y"), ⟨16, 1, 17⟩⟩, ⟨.eof, ⟨17, 1, 18⟩⟩]
    let tokens' : List Token :=
      [⟨.word .let_, ⟨0, 1, 1⟩⟩, ⟨.ident (ascii "x"), ⟨4, 1, 5⟩⟩, ⟨.mark .colon, ⟨6, 1, 7⟩⟩,
        ⟨.word .list, ⟨8, 2, 1⟩⟩, ⟨.mark .lt, ⟨13, 2, 6⟩⟩, ⟨.word .int, ⟨15, 2, 8⟩⟩,
        ⟨.mark .ge, ⟨19, 2, 12⟩⟩, ⟨.ident (ascii "y"), ⟨22, 2, 15⟩⟩, ⟨.eof, ⟨23, 2, 16⟩⟩]
    let s : State := { cursor := .ofTokens tokens }
    let s' : State := { cursor := .ofTokens tokens' }
    traced.checked = ({} : Options).checked ∧ s.Relaid s'
      ∧ EndsAlike State.Relaid Stmt.erase (statement traced s) (statement {} s')
      ∧ tokenize (ascii "let x:list<int>=y") = .ok tokens
      ∧ tokenize (ascii "let x :\nlist < int >= y") = .ok tokens'
      ∧ tokens.map Token.lexeme = tokens'.map Token.lexeme
      ∧ EndsAlike State.Relaid Program.erase (whole traced tokens) (whole {} tokens') := by
  intro traced tokens tokens' s s'
  have hlexemes : tokens.map Token.lexeme = tokens'.map Token.lexeme := rfl
  have hrelaid : s.Relaid s' := ⟨Cursor.relaid_ofTokens hlexemes, rfl, rfl⟩
  have htokens : tokenize (ascii "let x:list<int>=y") = .ok tokens := by decide +kernel
  have htokens' : tokenize (ascii "let x :\nlist < int >= y") = .ok tokens' := by decide +kernel
  obtain ⟨hstates, hsources⟩ := @layout_free traced {} rfl
  exact ⟨rfl, hrelaid, (hstates s s' hrelaid).2.1, htokens, htokens', hlexemes,
    hsources _ _ tokens tokens' htokens htokens' hlexemes⟩

end Parse
end Lumen
