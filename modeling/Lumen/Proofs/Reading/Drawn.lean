/-
  Lumen.Proofs.Reading.Drawn — results and errors come from the tokens.

  A reader makes up no token and no place.  Every node of an expression has the
  place of a token that was read, and a variable is named as that token is.  An
  error is about the token at the cursor where reading stopped, or about the place
  of a token that was read.

  What is known of the tokens is given by two properties.  `I` is one of cursors
  that reading keeps, `T` is one of tokens that are met under `I`.  What it says of
  errors is a third one, `B`.  So the same walk over the readers tells that places
  are proper ones, that names stand in the text, and that the end token is never
  passed.

  Main statements:
    * `Supplies` — `I`, `T` and `B` belong together;
    * `Expr.Drawn`, `Meets` — expressions and errors that come from tokens;
    * `Draws.bind` — a sequence, step by step;
    * `expr_draws` — expressions;
    * `supplies_ahead` — what holds of all tokens ahead;
    * `supplies_placed` — the tokens of a text have proper places, and end;
    * `supplies_reached` — what is read stands where a token stood at the start.
-/
import Lumen.Parse.Stmt
import Lumen.Proofs.Lexing.Placed
import Lumen.Proofs.Reading.ExprSound
import Lumen.Proofs.Reading.Moves
import Lumen.Proofs.Checking.Follows

namespace Lumen

/-! ## §1. Expressions -/

/-- Every node stands at the place of a token in `T`, which is its name if it has
    one. -/
def Expr.Drawn (T : Token → Prop) (e : Expr) : Prop :=
  ∀ part ∈ e.parts, ∃ t, T t ∧ t.pos = part.pos ∧ ∀ name, part.usedName? = some name →
    t.lexeme = .ident name

namespace Expr

variable {T : Token → Prop}

theorem Drawn.exists_pos {e : Expr} (h : e.Drawn T) : ∃ t, T t ∧ t.pos = e.pos := by
  obtain ⟨t, ht, hpos, -⟩ := h e e.mem_parts_self
  exact ⟨t, ht, hpos⟩

/-- A use in the expression is a name in `T`. -/
theorem Drawn.of_use {e : Expr} (h : e.Drawn T) {u : Use} (hu : u ∈ e.uses) :
    T ⟨.ident u.name, u.pos⟩ := by
  obtain ⟨part, hpart, huse⟩ := List.mem_filterMap.mp hu
  obtain ⟨name, hname, rfl⟩ := Option.map_eq_some_iff.mp huse
  obtain ⟨t, ht, hpos, hlexeme⟩ := h part hpart
  have heq : t = ⟨.ident name, part.pos⟩ := by
    rw [← hpos, ← hlexeme name hname]
  exact heq ▸ ht

theorem forall_drawn {es : List Expr} :
    (∀ part ∈ partsOf es, ∃ t, T t ∧ t.pos = part.pos ∧
      ∀ name, part.usedName? = some name → t.lexeme = .ident name) ↔ ∀ e ∈ es, e.Drawn T :=
  forall_partsOf

section
variable {t : Token} (ht : T t)
include ht

theorem drawn_literal (v : Literal) : (literal t.pos v).Drawn T :=
  List.forall_mem_singleton.mpr ⟨t, ht, rfl, fun _ h => by cases h⟩

theorem drawn_neg {e : Expr} (he : e.Drawn T) : (neg t.pos e).Drawn T :=
  List.forall_mem_cons.mpr ⟨⟨t, ht, rfl, fun _ h => by cases h⟩, he⟩

theorem drawn_group {e : Expr} (he : e.Drawn T) : (group t.pos e).Drawn T :=
  List.forall_mem_cons.mpr ⟨⟨t, ht, rfl, fun _ h => by cases h⟩, he⟩

theorem drawn_list {es : List Expr} (hes : ∀ e ∈ es, e.Drawn T) : (list t.pos es).Drawn T :=
  List.forall_mem_cons.mpr ⟨⟨t, ht, rfl, fun _ h => by cases h⟩, forall_drawn.mpr hes⟩

theorem drawn_call (name : Bytes) {args : List Expr} (hargs : ∀ e ∈ args, e.Drawn T) :
    (call t.pos name args).Drawn T :=
  List.forall_mem_cons.mpr ⟨⟨t, ht, rfl, fun _ h => by cases h⟩, forall_drawn.mpr hargs⟩

variable {name : Bytes} (hname : t.lexeme = .ident name)
include hname

theorem drawn_access {path : List Expr} (hpath : ∀ e ∈ path, e.Drawn T) :
    (access t.pos name path).Drawn T :=
  List.forall_mem_cons.mpr
    ⟨⟨t, ht, rfl, fun _ h => by cases h; exact hname⟩, forall_drawn.mpr hpath⟩

theorem drawn_method {path : List Expr} (hpath : ∀ e ∈ path, e.Drawn T) (m : Bytes)
    {args : List Expr} (hargs : ∀ e ∈ args, e.Drawn T) :
    (method t.pos name path m args).Drawn T :=
  List.forall_mem_cons.mpr ⟨⟨t, ht, rfl, fun _ h => by cases h; exact hname⟩,
    List.forall_mem_append.mpr ⟨forall_drawn.mpr hpath, forall_drawn.mpr hargs⟩⟩

end

/-- An operator stands at the place of its left operand. -/
theorem drawn_node (op : Operator) {lhs rhs : Expr} (hl : lhs.Drawn T) (hr : rhs.Drawn T) :
    (op.node lhs.pos lhs rhs).Drawn T := by
  obtain ⟨t, ht, hpos⟩ := hl.exists_pos
  cases op with
  | binary op =>
    exact List.forall_mem_cons.mpr
      ⟨⟨t, ht, hpos, fun _ h => by cases h⟩, List.forall_mem_append.mpr ⟨hl, hr⟩⟩
  | logical op =>
    exact List.forall_mem_cons.mpr
      ⟨⟨t, ht, hpos, fun _ h => by cases h⟩, List.forall_mem_append.mpr ⟨hl, hr⟩⟩

end Expr

namespace Parse
open CursorM

/-! ## §2. Cursors, tokens and errors -/

/-- Reading keeps `I`, and what is read under `I` is in `T`.  Of an `=` nothing is
    known: it may be the rest of a `>=`, and no node stands there.  Only a loop is
    read with a type in mind, and the error for another one, which names the
    variable, is in `B`. -/
structure Supplies (I : Cursor → Prop) (T : Token → Prop) (B : ParseError → Prop) : Prop where
  token : ∀ {c t}, I c → c.token? = some t → t.lexeme ≠ .mark .equal → T t
  past : ∀ {c t}, I c → c.token? = some t → I (c.past t)
  split : ∀ {c}, I c → I c.splitGe
  loopType : ∀ {var t : Token} {name : Bytes} (ty : Ty), T var → var.lexeme = .ident name →
    T t → B (.mismatch name (.type .int) (.type ty) t.pos)

/-- What a check reports stands at a token in `T`; a name that is not declared is
    that token. -/
def Blamed (T : Token → Prop) : ParseError → Prop
  | .undeclared name pos => T ⟨.ident name, pos⟩
  | .mismatch _ _ _ pos | .duplicateFunction _ pos | .arity _ _ _ pos => ∃ t, T t ∧ t.pos = pos
  | .refused _ _ _ => True
  | _ => False

/-- A failure at a cursor is about the token there, or its error is in `B`. -/
def Meets (B : ParseError → Prop) (c : Cursor) : Failure → Prop
  | .error (.unexpected _ met) => c.current? = met
  | .error (.unknownStatement t) | .error (.strayTerminator t) => c.current? = some t
  | .error e => B e
  | _ => True

theorem Blamed.meets {T : Token → Prop} {B : ParseError → Prop} {e : ParseError}
    (h : Blamed T e) (he : B e) (c : Cursor) : Meets B c (.error e) := by
  cases e with
  | unexpected | unknownStatement | strayTerminator => cases h
  | _ => exact he

section
variable (I : Cursor → Prop) (B : ParseError → Prop) {σ α β : Type} [HasCursor σ]

/-- From any cursor in `I`, a reader leaves one in `I`.  It gives something in `Q`,
    or it fails with an error that comes from the tokens. -/
def Draws (m : EStateM Failure σ α) (Q : α → Prop) : Prop :=
  ∀ s, I (HasCursor.cursor s) →
    Ends m s (fun a t => Q a ∧ I (HasCursor.cursor t))
      fun f t => I (HasCursor.cursor t) ∧ Meets B (HasCursor.cursor t) f

variable {I B} {Q Q' : α → Prop}

theorem draws_pure {a : α} (h : Q a) : Draws I B (pure a : EStateM Failure σ α) Q :=
  fun _ hs => ⟨h, hs⟩

theorem draws_throw {f : Failure} (h : ∀ c, Meets B c f) :
    Draws I B (throw f : EStateM Failure σ α) Q :=
  fun _ hs => ⟨hs, h _⟩

/-- A sequence, step by step. -/
theorem Draws.bind {m : EStateM Failure σ α} {k : α → EStateM Failure σ β} {Q' : β → Prop}
    (h : Draws I B m Q) (hk : ∀ a, Q a → Draws I B (k a) Q') : Draws I B (m >>= k) Q' :=
  fun s hs => (h s hs).bind fun a t ha => hk a ha.1 t ha.2

end

section
variable {I : Cursor → Prop} {T : Token → Prop} {B : ParseError → Prop} (h : Supplies I T B)
include h

/-! ## §3. Readers of single tokens -/

omit h in
theorem unexpected_draws {α : Type} {Q : α → Prop} (expected : Expected) :
    Draws I B (unexpected (α := α) expected) Q :=
  fun _ hc => ⟨hc, rfl⟩

theorem token?_draws :
    Draws I B token? fun t? => ∀ t, t? = some t → t.lexeme ≠ .mark .equal → T t :=
  fun _ hc => ⟨fun _ ht hne => h.token hc ht hne, hc⟩

omit h in
theorem lexeme?_draws : Draws I B lexeme? fun _ => True := fun _ hc => ⟨trivial, hc⟩

omit h in
theorem isAt_draws (l : Lexeme) : Draws I B (isAt l) fun _ => True := fun _ hc => ⟨trivial, hc⟩

/-- The token that was looked at is read. -/
theorem advance_drawn {c : Cursor} (hc : I c) {l : Lexeme} (hl : c.lexeme? = some l)
    (hne : l ≠ .mark .equal) :
    Ends advance c (fun t c' => (T t ∧ t.lexeme = l) ∧ I c') fun f c' => I c' ∧ Meets B c' f := by
  obtain ⟨t, ht, rfl⟩ := Option.map_eq_some_iff.mp hl
  unfold advance
  rw [ends_bind, ends_get, ht]
  exact ⟨⟨h.token hc ht hne, rfl⟩, h.past hc ht⟩

theorem advance_draws : Draws I B advance fun _ => True := by
  intro c hc
  unfold advance
  rw [ends_bind, ends_get]
  split
  · next t ht => exact ⟨trivial, h.past hc ht⟩
  · exact ⟨hc, trivial⟩

theorem accept_draws (l : Lexeme) : Draws I B (accept l) fun _ => True := by
  unfold accept
  apply (isAt_draws l).bind
  intro found _
  split
  · exact (advance_draws h).bind fun _ _ => draws_pure trivial
  · exact draws_pure trivial

theorem mark_draws (m : Mark) : Draws I B (mark m) fun _ => True := by
  unfold mark
  apply (isAt_draws _).bind
  intro found _
  split
  · exact (advance_draws h).bind fun _ _ => draws_pure trivial
  · exact unexpected_draws _

theorem word_draws (w : Word) : Draws I B (word w) fun _ => True := by
  unfold word
  apply (isAt_draws _).bind
  intro found _
  split
  · exact (advance_draws h).bind fun _ _ => draws_pure trivial
  · exact unexpected_draws _

theorem identifier_draws (expected : Expected) :
    Draws I B (identifier expected) fun name => ∃ t, T t ∧ t.lexeme = .ident name := by
  intro c hc
  unfold identifier
  rw [ends_bind, ends_lexeme?, ← Cursor.lexeme?_eq_head?]
  split
  · next name hl =>
    apply (advance_drawn h hc hl (by simp)).bind
    rintro t c' ⟨ht, hc'⟩
    exact ⟨⟨t, ht⟩, hc'⟩
  · exact unexpected_draws _ c hc

theorem select?_draws {α : Type} (meaning : Lexeme → Option α) :
    Draws I B (select? meaning) fun a? => ∀ a, a? = some a → ∃ l, meaning l = some a := by
  unfold select?
  apply lexeme?_draws.bind
  intro l _
  split
  · next a ha =>
    obtain ⟨l, -, hmeaning⟩ := Option.bind_eq_some_iff.mp ha
    refine (advance_draws h).bind fun _ _ => draws_pure ?_
    intro a' ha'
    cases ha'
    exact ⟨l, hmeaning⟩
  · exact draws_pure fun _ ha => by cases ha

/-! ## §4. Types -/

theorem type_draws (steps : Nat) : Draws I B (type steps) fun _ => True := by
  induction steps with
  | zero => exact draws_throw fun _ => trivial
  | succ steps ih =>
    unfold type
    apply lexeme?_draws.bind
    intro l _
    split
    · apply (advance_draws h).bind
      intro _ _
      apply (mark_draws h _).bind
      intro _ _
      apply ih.bind
      intro elem _
      have hsplit : Draws I B (modify Cursor.splitGe : CursorM Unit) fun _ => True :=
        fun _ hc => ⟨trivial, h.split hc⟩
      apply hsplit.bind
      intro _ _
      exact (mark_draws h _).bind fun _ _ => draws_pure trivial
    · split
      · exact (advance_draws h).bind fun _ _ => draws_pure trivial
      · exact unexpected_draws _
    · exact unexpected_draws _

theorem paramList_draws (m steps : Nat) : Draws I B (paramList m steps) fun _ => True := by
  induction steps with
  | zero => exact draws_throw fun _ => trivial
  | succ steps ih =>
    unfold paramList
    apply (identifier_draws h _).bind
    intro name _
    apply (mark_draws h _).bind
    intro _ _
    apply (type_draws h m).bind
    intro ty _
    apply (accept_draws h _).bind
    intro comma _
    split
    · apply (isAt_draws _).bind
      intro close _
      split
      · exact unexpected_draws _
      · exact ih.bind fun _ _ => draws_pure trivial
    · exact draws_pure trivial

theorem params_draws (m : Nat) : Draws I B (params m) fun _ => True := by
  unfold params
  apply (mark_draws h _).bind
  intro _ _
  apply (isAt_draws _).bind
  intro close _
  split
  · exact (mark_draws h _).bind fun _ _ => draws_pure trivial
  · apply (paramList_draws h m m).bind
    intro ps _
    exact (mark_draws h _).bind fun _ _ => draws_pure trivial

/-- Any other type than `int` is an error at its place, for a variable that was
    read. -/
theorem loopType_draws (steps : Nat) {var : Bytes} (hvar : ∃ t, T t ∧ t.lexeme = .ident var) :
    Draws I B (loopType steps var) fun _ => True := by
  obtain ⟨u, hu, hname⟩ := hvar
  unfold loopType
  apply (token?_draws h).bind
  intro t? ht
  split
  · exact (advance_draws h).bind fun _ _ => draws_pure trivial
  · next l pos _ =>
    split
    · next hmarker =>
      -- a type does not start with half of a `>=`
      have hne : l ≠ .mark .equal := by
        rintro rfl
        cases hmarker
      exact (type_draws h steps).bind fun ty _ =>
        draws_throw fun _ => h.loopType ty hu hname (ht _ rfl hne)
    · exact unexpected_draws _
  · exact unexpected_draws _

/-! ## §5. Expressions -/

section
variable {operand : CursorM Expr} (hop : Draws I B operand (Expr.Drawn T))
  {k : Nat} {join? : Lexeme → Option Join} (hjoin : JoinsAt k join?)
include hop

omit h hop in
/-- What an operator puts together is drawn if its operands are. -/
theorem join_drawn (hjoin : JoinsAt k join?) {l : Lexeme} {j : Join} (hj : join? l = some j)
    {lhs rhs : Expr} (hl : lhs.Drawn T) (hr : rhs.Drawn T) : (j lhs rhs).Drawn T := by
  obtain ⟨op, -, -, rfl⟩ := (hjoin l j).mp hj
  exact Expr.drawn_node op hl hr

include hjoin

theorem chain_draws (steps : Nat) {lhs : Expr} (hl : lhs.Drawn T) :
    Draws I B (chain join? operand steps lhs) (Expr.Drawn T) := by
  induction steps generalizing lhs with
  | zero => exact draws_throw fun _ => trivial
  | succ steps ih =>
    unfold chain
    apply (select?_draws h join?).bind
    intro j? hj
    split
    · exact draws_pure hl
    · next j =>
      obtain ⟨l, hmeaning⟩ := hj j rfl
      apply hop.bind
      intro rhs hr
      exact ih (join_drawn hjoin hmeaning hl hr)

theorem leftAssoc_draws (steps : Nat) :
    Draws I B (leftAssoc join? operand steps) (Expr.Drawn T) := by
  unfold leftAssoc
  exact hop.bind fun _ hl => chain_draws h hop hjoin steps hl

theorem nonAssoc_draws : Draws I B (nonAssoc join? operand) (Expr.Drawn T) := by
  unfold nonAssoc
  apply hop.bind
  intro lhs hl
  apply (select?_draws h join?).bind
  intro j? hj
  split
  · exact draws_pure hl
  · next j =>
    obtain ⟨l, hmeaning⟩ := hj j rfl
    exact hop.bind fun _ hr => draws_pure (join_drawn hjoin hmeaning hl hr)

omit hjoin in
theorem signed_draws (steps : Nat) : Draws I B (signed operand steps) (Expr.Drawn T) := by
  induction steps with
  | zero => exact draws_throw fun _ => trivial
  | succ steps ih =>
    intro c hc
    unfold signed
    rw [ends_bind, ends_isAt, ← Cursor.lexeme?_eq_head?]
    split
    · next hminus =>
      apply (advance_drawn h hc (eq_of_beq hminus) (by decide)).bind
      rintro sign c' ⟨⟨hsign, -⟩, hc'⟩
      exact (ih.bind fun _ he => draws_pure (Expr.drawn_neg hsign he)) c' hc'
    · exact hop c hc

end

section
variable {expr : CursorM Expr} (hexpr : Draws I B expr (Expr.Drawn T))
include hexpr

theorem listed_draws (close : Mark) (steps : Nat) :
    Draws I B (listed close expr steps) fun es => ∀ e ∈ es, e.Drawn T := by
  induction steps with
  | zero => exact draws_throw fun _ => trivial
  | succ steps ih =>
    unfold listed
    apply hexpr.bind
    intro e he
    apply (accept_draws h _).bind
    intro comma _
    split
    · apply (isAt_draws _).bind
      intro closes _
      split
      · exact unexpected_draws _
      · exact ih.bind fun _ hes => draws_pure (List.forall_mem_cons.mpr ⟨he, hes⟩)
    · exact (mark_draws h _).bind fun _ _ => draws_pure (List.forall_mem_singleton.mpr he)

theorem arguments_draws (close : Mark) (steps : Nat) :
    Draws I B (arguments close expr steps) fun es => ∀ e ∈ es, e.Drawn T := by
  unfold arguments
  apply (accept_draws h _).bind
  intro closes _
  split
  · exact draws_pure (List.forall_mem_nil _)
  · exact listed_draws h hexpr close steps

theorem indices_draws (steps : Nat) :
    Draws I B (indices expr steps) fun es => ∀ e ∈ es, e.Drawn T := by
  induction steps with
  | zero => exact draws_throw fun _ => trivial
  | succ steps ih =>
    unfold indices
    apply (accept_draws h _).bind
    intro opens _
    split
    · apply hexpr.bind
      intro index hindex
      apply (mark_draws h _).bind
      intro _ _
      exact ih.bind fun _ hes => draws_pure (List.forall_mem_cons.mpr ⟨hindex, hes⟩)
    · exact draws_pure (List.forall_mem_nil _)

/-- What starts with a name stands at the place of the name. -/
theorem named_draws (steps : Nat) {t : Token} (ht : T t) {name : Bytes}
    (hname : t.lexeme = .ident name) :
    Draws I B (named expr steps t.pos name) (Expr.Drawn T) := by
  unfold named
  apply (accept_draws h _).bind
  intro opens _
  split
  · exact (arguments_draws h hexpr _ steps).bind fun _ hargs =>
      draws_pure (Expr.drawn_call ht name hargs)
  · apply (indices_draws h hexpr steps).bind
    intro path hpath
    apply (accept_draws h _).bind
    intro dot _
    split
    · apply (identifier_draws h _).bind
      intro method _
      apply (mark_draws h _).bind
      intro _ _
      exact (arguments_draws h hexpr _ steps).bind fun _ hargs =>
        draws_pure (Expr.drawn_method ht hname hpath method hargs)
    · exact draws_pure (Expr.drawn_access ht hname hpath)

theorem primary_draws (steps : Nat) : Draws I B (primary expr steps) (Expr.Drawn T) := by
  intro c hc
  unfold primary
  rw [ends_bind, ends_lexeme?, ← Cursor.lexeme?_eq_head?]
  -- the token that decides is the one that is read next
  split
  · next v hl =>
    apply (advance_drawn h hc hl (by simp)).bind
    rintro t c' ⟨⟨ht, -⟩, hc'⟩
    exact ⟨Expr.drawn_literal ht v, hc'⟩
  · next name hl =>
    apply (advance_drawn h hc hl (by simp)).bind
    rintro t c' ⟨⟨ht, hname⟩, hc'⟩
    exact named_draws h hexpr steps ht hname c' hc'
  · next hl =>
    apply (advance_drawn h hc hl (by simp)).bind
    rintro t c' ⟨⟨ht, -⟩, hc'⟩
    have hinner : Draws I B (do
        let inner ← expr
        mark .rparen
        return Expr.group t.pos inner) (Expr.Drawn T) :=
      hexpr.bind fun _ he => (mark_draws h _).bind fun _ _ =>
        draws_pure (Expr.drawn_group ht he)
    exact hinner c' hc'
  · next hl =>
    apply (advance_drawn h hc hl (by simp)).bind
    rintro t c' ⟨⟨ht, -⟩, hc'⟩
    have hlist : Draws I B (do return Expr.list t.pos (← arguments .rbracket expr steps))
        (Expr.Drawn T) :=
      (arguments_draws h hexpr _ steps).bind fun _ hes => draws_pure (Expr.drawn_list ht hes)
    exact hlist c' hc'
  · exact unexpected_draws _ c hc

end

theorem expr_draws (steps : Nat) : Draws I B (expr steps) (Expr.Drawn T) := by
  induction steps with
  | zero => exact draws_throw fun _ => trivial
  | succ steps ih =>
    rw [expr_succ]
    have hprimary := primary_draws h ih (steps + 1)
    have hsigned := signed_draws h hprimary (steps + 1)
    have hproduct := leftAssoc_draws h hsigned multiplicative_joinsAt (steps + 1)
    have hsum := leftAssoc_draws h hproduct additive_joinsAt (steps + 1)
    have hcomparison := nonAssoc_draws h hsum comparison_joinsAt
    have hconjunction := leftAssoc_draws h hcomparison and_joinsAt (steps + 1)
    exact leftAssoc_draws h hconjunction or_joinsAt (steps + 1)

end

/-! ## §6. Tokens of a text -/

/-- What holds of all tokens ahead goes on to do so, if it passes from a `>=` to its
    halves. -/
theorem supplies_ahead {T : Token → Prop} {B : ParseError → Prop}
    (hhalves : ∀ p, T ⟨.mark .ge, p⟩ → T ⟨.mark .gt, p⟩ ∧ T ⟨.mark .equal, p.right⟩)
    (hloop : ∀ {var t : Token} {name : Bytes} (ty : Ty), T var → var.lexeme = .ident name →
      T t → B (.mismatch name (.type .int) (.type ty) t.pos)) :
    Supplies (fun c => ∀ t ∈ c.ahead, T t) T B where
  token := by
    rintro c t hall ht -
    exact hall t (List.mem_of_mem_head? (Option.filter_eq_some_iff.mp ht).1)
  past := by
    rintro c t hall -
    exact fun u hu => hall u (List.mem_of_mem_tail hu)
  split := by
    rintro ⟨before, ahead⟩ hall
    unfold Cursor.splitGe
    split
    · next p rest hge =>
      have hahead : ahead = ⟨.mark .ge, p⟩ :: rest := hge
      rw [hahead] at hall
      obtain ⟨hp, hrest⟩ := List.forall_mem_cons.mp hall
      exact List.forall_mem_cons.mpr
        ⟨(hhalves p hp).1, List.forall_mem_cons.mpr ⟨(hhalves p hp).2, hrest⟩⟩
    · exact hall
  loopType := hloop

/-- The end token is not passed, and a `>=` that is split leaves two places on its
    line. -/
theorem supplies_placed :
    Supplies (fun c => Placed Pos.IsProper c.ahead) (fun t => t.pos.IsProper)
      (Blamed fun t => t.pos.IsProper) := by
  have hahead : Supplies (fun c => ∀ t ∈ c.ahead, t.pos.IsProper) (fun t => t.pos.IsProper)
      (Blamed fun t => t.pos.IsProper) := by
    apply supplies_ahead
    · exact fun p hp => ⟨hp, Pos.IsProper.right hp⟩
    · exact fun _ _ _ ht => ⟨_, ht, rfl⟩
  refine ⟨?_, ?_, ?_, hahead.loopType⟩
  · rintro c t ⟨-, hall⟩ ht
    exact hahead.token hall ht
  · rintro c t ⟨heof, hall⟩ ht
    exact ⟨Cursor.exists_eof_past ht heof, hahead.past hall ht⟩
  · rintro c ⟨heof, hall⟩
    exact ⟨Cursor.exists_eof_splitGe heof, hahead.split hall⟩

/-- What is read stands where a token stood at the start: the first half of a `>=`
    has its place. -/
theorem supplies_reached (start : Cursor) :
    Supplies (fun c => ∃ ls, start.Reaches ls c) (fun t => ∃ u ∈ start.tokens, u.pos = t.pos)
      (Blamed fun t => ∃ u ∈ start.tokens, u.pos = t.pos) where
  token := by
    rintro c t ⟨ls, hreach⟩ ht hne
    have hmem := Cursor.mem_tokens_of_current? (Option.filter_eq_some_iff.mp ht).1
    rcases hreach.mem_tokens t hmem with hold | ⟨p, hge, rfl | rfl⟩
    · exact ⟨t, hold, rfl⟩
    · exact ⟨_, hge, rfl⟩
    · exact absurd rfl hne
  past := by
    rintro c t ⟨ls, hreach⟩ ht
    exact ⟨_, hreach.past ht⟩
  split := by
    rintro c ⟨ls, hreach⟩
    exact ⟨ls, hreach.split⟩
  loopType _ _ _ ht := ⟨_, ht, rfl⟩

end Parse
end Lumen
