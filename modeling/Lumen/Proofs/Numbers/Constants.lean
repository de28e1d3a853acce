/-
  Lumen.Proofs.Numbers.Constants — the constants of a program are exact.

  An integer of 64 bits has an opposite of 64 bits, unless it is the least one.  Source
  has no negative literals, and a literal goes up to `2 ^ 63 - 1`; the least integer could
  only be the opposite of `2 ^ 63`, which is no literal.  So from integers that have an
  opposite, signs, parentheses and lists make only such integers, and the constant of an
  expression is the one that integers of any size would give.

  What a parse keeps in its scopes is unknown or the constant of an expression that it has
  read.  So no scope holds the least integer either, after any act of any parse.

  Main statements:
    * `ExactValue`, `Expr.exact` — evaluation with integers of any size;
    * `HasOpposite`, `Value.HasOpposites` — integers that a sign can be put before;
    * `Expr.Unsigned.isExact` — without negative literals, both evaluations agree;
    * `isUnsigned_of_tokenize` — no literal of a text is negative;
    * `admits_unsigned`, `Operation.inSteps_exact` — expressions that are read;
    * `Act.Turns.opposites` / `Env.Runs.opposites` — one act, and all acts of a parse;
    * `negation_exact` — constants and stored values of a text that lexes.
-/
import Lumen.Proofs.Reading.Values
import Lumen.Proofs.Scoping.Acts
import Lumen.Proofs.Scoping.Bindings

namespace Lumen

/-! ## §1. Exact evaluation -/

/-- A value as far as it is known, with integers of any size. -/
inductive ExactValue where
  | unknown
  | int (value : Int)
  | float (value : Binary64)
  | str (value : Bytes)
  | bool (value : Bool)
  | list (items : List ExactValue)

/-- The value with the other sign; only numbers have one. -/
def ExactValue.neg : ExactValue → ExactValue
  | int n => int (-n)
  | float x => float x.neg
  | _ => unknown

/-- A constant as an exact value. -/
def Literal.exact : Literal → ExactValue
  | int n => .int n.toInt
  | float x => .float x
  | str s => .str s
  | bool b => .bool b

namespace Value

mutual
/-- A value as an exact one. -/
def exact : Value → ExactValue
  | unknown => .unknown
  | scalar v => v.exact
  | list items => .list (exactItems items)

/-- Values as exact ones. -/
def exactItems : List Value → List ExactValue
  | [] => []
  | v :: vs => v.exact :: exactItems vs
end

mutual
/-- The integers in a value, at any depth. -/
def ints : Value → List Int64
  | unknown => []
  | scalar (.int n) => [n]
  | scalar _ => []
  | list items => intsOf items

/-- The integers in some values. -/
def intsOf : List Value → List Int64
  | [] => []
  | v :: vs => v.ints ++ intsOf vs
end

end Value

mutual
/-- The value of an expression, when integers are as large as they come out. -/
def Expr.exact : Expr → ExactValue
  | .literal _ v => v.exact
  | .group _ inner => inner.exact
  | .neg _ e => e.exact.neg
  | .list _ elements =>
    match exacts? elements with
    | some items => .list items
    | none => .unknown
  | _ => .unknown

/-- The values of expressions, if all of them are known. -/
def exacts? : List Expr → Option (List ExactValue)
  | [] => some []
  | e :: rest =>
    match e.exact with
    | .unknown => none
    | v => (exacts? rest).map (v :: ·)
end

/-! ## §2. Integers with an opposite -/

/-- An integer of 64 bits whose opposite is one, too: any but the least. -/
def HasOpposite (n : Int64) : Prop := -(2 ^ 63 - 1) ≤ n.toInt ∧ n.toInt ≤ 2 ^ 63 - 1

section
variable {n : Int64}

theorem hasOpposite_of_nonneg (h : 0 ≤ n.toInt) : HasOpposite n := by
  have hhigh := n.toInt_lt
  constructor <;> omega

theorem HasOpposite.ne_minValue (h : HasOpposite n) : n ≠ Int64.minValue := by
  rintro rfl
  exact absurd h.1 (by decide)

/-- To put a sign before it is not to overflow. -/
theorem HasOpposite.toInt_neg (h : HasOpposite n) : (-n).toInt = -n.toInt :=
  Literal.Writable.toInt_neg h.1

theorem HasOpposite.neg (h : HasOpposite n) : HasOpposite (-n) := by
  have hneg := h.toInt_neg
  obtain ⟨hlow, hhigh⟩ := h
  constructor <;> omega

end

namespace Value

/-- All integers in a value have an opposite. -/
def HasOpposites (v : Value) : Prop := ∀ n ∈ v.ints, HasOpposite n

theorem hasOpposites_unknown : HasOpposites unknown := List.forall_mem_nil _

theorem hasOpposites_list_iff {items : List Value} :
    (list items).HasOpposites ↔ ∀ v ∈ items, v.HasOpposites := by
  have hitems : ∀ items : List Value,
      (∀ n ∈ intsOf items, HasOpposite n) ↔ ∀ v ∈ items, v.HasOpposites := by
    intro items
    induction items with
    | nil => exact iff_of_true (List.forall_mem_nil _) (List.forall_mem_nil _)
    | cons v vs ih =>
      rw [intsOf, List.forall_mem_append, List.forall_mem_cons, ih]
      rfl
  exact hitems items

theorem exact_eq_unknown_iff {v : Value} : v.exact = .unknown ↔ v = unknown := by
  cases v with
  | scalar v => cases v <;> simp [exact, Literal.exact]
  | _ => simp [exact]

end Value

/-- The opposite of a constant, as an exact value; what has none is unknown. -/
theorem Literal.exact_neg? {v : Literal} (h : (Value.scalar v).HasOpposites) :
    ((v.neg?.map Value.scalar).getD .unknown).exact = v.exact.neg
      ∧ ((v.neg?.map Value.scalar).getD .unknown).HasOpposites := by
  cases v with
  | int n =>
    have hn : HasOpposite n := h n List.mem_cons_self
    refine ⟨congrArg ExactValue.int hn.toInt_neg, ?_⟩
    exact List.forall_mem_singleton.mpr hn.neg
  | _ => exact ⟨rfl, List.forall_mem_nil _⟩

/-- Expressions of which the first is known. -/
theorem constants?_cons {e : Expr} (h : e.constant ≠ .unknown) (es : List Expr) :
    constants? (e :: es) = (constants? es).map (e.constant :: ·) := by
  rw [constants?]
  split
  · next hunknown => exact absurd hunknown h
  · rfl

theorem exacts?_cons {e : Expr} (h : e.exact ≠ .unknown) (es : List Expr) :
    exacts? (e :: es) = (exacts? es).map (e.exact :: ·) := by
  rw [exacts?]
  split
  · next hunknown => exact absurd hunknown h
  · rfl

/-! ## §3. Expressions without negative literals -/

namespace Expr

/-- No literal in the expression is a negative integer. -/
def Unsigned (e : Expr) : Prop :=
  ∀ part ∈ e.parts, ∀ p n, part = .literal p (.int n) → 0 ≤ n.toInt

/-- Evaluation in 64 bits does to an expression what exact evaluation does: the integers in its
    constant have an opposite, and no sign stands before the least integer. -/
structure IsExact (e : Expr) : Prop where
  exact : e.constant.exact = e.exact
  opposites : e.constant.HasOpposites
  operand : ∀ p operand, e = .neg p operand → operand.constant ≠ .scalar (.int Int64.minValue)

/-- Nothing is known of an expression that is no literal, sign, parenthesis or list. -/
theorem isExact_of_unknown {e : Expr} (hconstant : e.constant = .unknown)
    (hexact : e.exact = .unknown) (hsign : ∀ p operand, e ≠ .neg p operand) : e.IsExact where
  exact := by rw [hconstant, hexact, Value.exact]
  opposites := hconstant ▸ Value.hasOpposites_unknown
  operand := fun p operand he => absurd he (hsign p operand)

theorem isExact_literal (p : Pos) {v : Literal} (h : ∀ n, v = .int n → 0 ≤ n.toInt) :
    (literal p v).IsExact where
  exact := by cases v <;> rfl
  opposites := by
    cases v with
    | int n => exact List.forall_mem_singleton.mpr (hasOpposite_of_nonneg (h n rfl))
    | _ => exact List.forall_mem_nil _
  operand := fun _ _ he => by cases he

theorem isExact_group (p : Pos) {e : Expr} (h : e.IsExact) : (group p e).IsExact where
  exact := by rw [constant, h.exact, Expr.exact]
  opposites := by rw [constant]; exact h.opposites
  operand := fun _ _ he => by cases he

theorem isExact_neg (p : Pos) {e : Expr} (h : e.IsExact) : (neg p e).IsExact := by
  have hneg : (neg p e).constant.exact = (neg p e).exact ∧ (neg p e).constant.HasOpposites := by
    obtain ⟨hexact, hopposites, -⟩ := h
    rw [constant, Expr.exact, ← hexact]
    cases hvalue : e.constant with
    | scalar v =>
      rw [hvalue] at hopposites
      exact Literal.exact_neg? hopposites
    | _ => exact ⟨rfl, Value.hasOpposites_unknown⟩
  refine ⟨hneg.1, hneg.2, ?_⟩
  -- the operand is one of the integers in its own constant
  rintro _ _ ⟨⟩ hleast
  have hint := h.opposites
  rw [hleast] at hint
  exact (hint _ List.mem_cons_self).ne_minValue rfl

/-- Expressions that are evaluated exactly are known together, or not at all. -/
theorem map_constants? {es : List Expr} (h : ∀ e ∈ es, e.IsExact) :
    (constants? es).map Value.exactItems = exacts? es
      ∧ ∀ items, constants? es = some items → ∀ v ∈ items, v.HasOpposites := by
  induction es with
  | nil =>
    refine ⟨rfl, ?_⟩
    rintro _ ⟨⟩
    exact List.forall_mem_nil _
  | cons e es ih =>
    obtain ⟨he, hes⟩ := List.forall_mem_cons.mp h
    obtain ⟨hexact, hopposites⟩ := ih hes
    -- the first is known to both evaluations, or to neither
    by_cases hvalue : e.constant = .unknown
    · have hunknown : e.exact = .unknown := he.exact ▸ Value.exact_eq_unknown_iff.mpr hvalue
      rw [constants?, exacts?, hvalue, hunknown]
      exact ⟨rfl, fun _ hnone => by cases hnone⟩
    · have hknown : e.exact ≠ .unknown := he.exact ▸ mt Value.exact_eq_unknown_iff.mp hvalue
      rw [constants?_cons hvalue, exacts?_cons hknown, ← hexact, ← he.exact, Option.map_map,
        Option.map_map]
      refine ⟨rfl, ?_⟩
      intro items hitems
      obtain ⟨rest, hrest, rfl⟩ := Option.map_eq_some_iff.mp hitems
      exact List.forall_mem_cons.mpr ⟨he.opposites, hopposites rest hrest⟩

theorem isExact_list (p : Pos) {es : List Expr} (h : ∀ e ∈ es, e.IsExact) :
    (list p es).IsExact := by
  obtain ⟨hexact, hopposites⟩ := map_constants? h
  have hlist : (list p es).constant.exact = (list p es).exact
      ∧ (list p es).constant.HasOpposites := by
    rw [constant, Expr.exact, ← hexact]
    cases hconstants : constants? es with
    | none => exact ⟨rfl, Value.hasOpposites_unknown⟩
    | some items => exact ⟨rfl, Value.hasOpposites_list_iff.mpr (hopposites items hconstants)⟩
  exact ⟨hlist.1, hlist.2, fun _ _ he => by cases he⟩

/-- Where no literal is negative, every part is evaluated exactly. -/
theorem Unsigned.isExact {e : Expr} (h : e.Unsigned) : ∀ d ∈ e.parts, d.IsExact := by
  unfold Unsigned at h
  induction e with
  | literal p v =>
    intro d hd
    obtain rfl := List.mem_singleton.mp hd
    exact isExact_literal p fun n hn => h _ hd p n (congrArg (Expr.literal p) hn)
  | neg p e ih =>
    rw [parts, List.forall_mem_cons] at h ⊢
    have hparts := ih h.2
    exact ⟨isExact_neg p (hparts e e.mem_parts_self), hparts⟩
  | group p e ih =>
    rw [parts, List.forall_mem_cons] at h ⊢
    have hparts := ih h.2
    exact ⟨isExact_group p (hparts e e.mem_parts_self), hparts⟩
  | list p es ih =>
    rw [parts, List.forall_mem_cons, forall_partsOf] at h ⊢
    have hparts : ∀ e ∈ es, ∀ d ∈ e.parts, d.IsExact := fun e he => ih e he (h.2 e he)
    exact ⟨isExact_list p fun e he => hparts e he e e.mem_parts_self, hparts⟩
  | access p name es ih | call p name es ih =>
    rw [parts, List.forall_mem_cons, forall_partsOf] at h ⊢
    exact ⟨isExact_of_unknown rfl rfl (fun _ _ he => by cases he), fun e he => ih e he (h.2 e he)⟩
  | binary p op lhs rhs ihl ihr | logical p op lhs rhs ihl ihr =>
    rw [parts, List.forall_mem_cons, List.forall_mem_append] at h ⊢
    exact ⟨isExact_of_unknown rfl rfl (fun _ _ he => by cases he), ihl h.2.1, ihr h.2.2⟩
  | method p name indices m args ihi iha =>
    rw [parts, List.forall_mem_cons, List.forall_mem_append, forall_partsOf, forall_partsOf]
      at h ⊢
    exact ⟨isExact_of_unknown rfl rfl (fun _ _ he => by cases he),
      fun e he => ihi e he (h.2.1 e he), fun e he => iha e he (h.2.2 e he)⟩

end Expr

/-! ## §4. Tokens of a text -/

/-- The token is no negative integer. -/
def Token.IsUnsigned (t : Token) : Prop := ∀ n, t.lexeme = .literal (.int n) → 0 ≤ n.toInt

theorem isUnsigned_of_tokenize {source : Bytes} {tokens : List Token}
    (h : tokenize source = .ok tokens) : ∀ t ∈ tokens, t.IsUnsigned := by
  intro t ht n hn
  obtain ⟨ls, hls, hscanned⟩ := lexemes_of_tokensFrom h
  have hmem : t.lexeme ∈ ls ++ [.eof] := hls ▸ List.mem_map_of_mem ht
  rw [hn] at hmem
  -- what is scanned is written without a sign, and the end token is no integer
  rcases List.mem_append.mp hmem with hmem | heof
  · obtain ⟨b, rest, more, hscan⟩ := hscanned _ hmem
    exact legible_of_scanAt hscan fun x hx => by cases hx
  · cases List.mem_singleton.mp heof

/-- The halves of a `>=` are no integers. -/
theorem Cursor.From.isUnsigned {c : Cursor} {tokens : List Token} (h : c.From tokens)
    (htokens : ∀ t ∈ tokens, t.IsUnsigned) : ∀ t ∈ c.tokens, t.IsUnsigned := by
  intro t ht
  rcases h t ht with hmem | ⟨p, -, rfl | rfl⟩
  · exact htokens t hmem
  · rintro n ⟨⟩
  · rintro n ⟨⟩

/-- Each literal of an expression is one of its tokens. -/
theorem Expr.Spans.unsigned {e : Expr} {ts : List Token} (h : e.Spans ts)
    (hts : ∀ t ∈ ts, t.IsUnsigned) : e.Unsigned := by
  rintro part hpart p n rfl
  -- the literal spans a part of the tokens, and that is itself
  obtain ⟨span, hsub, hspan, -⟩ := h.standsIn _ hpart
  obtain rfl : span = [⟨.literal (.int n), p⟩] := hspan
  exact hts _ (hsub.subset List.mem_cons_self) n rfl

namespace Parse

/-! ## §5. What is read -/

section
variable {tokens : List Token} (htokens : ∀ t ∈ tokens, t.IsUnsigned)
include htokens

theorem Read.isUnsigned {σ : Type} [HasCursor σ] {s t : σ} {ts : List Token} (h : Read s ts t)
    (ht : (HasCursor.cursor t).From tokens) : ∀ u ∈ ts, u.IsUnsigned := by
  intro u hu
  have hbefore : u ∈ (HasCursor.cursor t).before.reverse := by
    rw [show _ = _ from h]
    exact List.mem_append_right _ hu
  exact ht.isUnsigned htokens u (List.mem_append_left _ hbefore)

/-- An expression that is read has no negative literal. -/
theorem admits_unsigned : Admits (fun c => c.From tokens) Expr.Unsigned := by
  have hsupplies : Supplies (fun c => c.From tokens) (fun _ => True) AnyError :=
    ⟨fun _ _ _ => trivial, fun hc ht => hc.past ht, fun hc => hc.splitGe, fun _ _ _ _ => trivial⟩
  refine ⟨hsupplies, fun n c hc => ?_⟩
  apply ((expr_draws hsupplies n c hc).and (expr_takes n c)).mono
  · rintro e c' ⟨⟨-, hc'⟩, ts, hread, hspans⟩
    exact ⟨hspans.unsigned (hread.isUnsigned htokens hc'), hc'⟩
  · exact fun _ _ hf => hf.1

end

/-- The pieces of what an operation gives. -/
def Operation.pieces : (op : Operation) → op.Given → List Piece
  | program, p => Stmt.piecesOf p
  | statement, a => a.pieces
  | statements, b => Stmt.piecesOf b.stmts
  | expression, e => e.parts.map .expr
  | typeName, _ => []

/-- Whatever is read, its pieces stand in the tokens that were read for it. -/
theorem Operation.inSteps_standsIn (o : Options) (op : Operation) (n : Nat) (s : State) :
    Ends (op.inSteps o n) s
      (fun given t => ∃ ts, Read s ts t ∧ ∀ piece ∈ op.pieces given, piece.StandsIn ts)
      fun _ _ => True := by
  cases op with
  | program =>
    -- the note at the end reads nothing
    have hwhole : Ends (do
        let p ← topStmts o n n
        note o (.parsed p.length (← get).env.functions.length)
        return p : ParseM Program) s
        (fun p t => ∃ ts, Read s ts t ∧ ∀ piece ∈ Stmt.piecesOf p, piece.StandsIn ts)
        fun _ _ => True := by
      apply (topStmts_ends o n n s).bind
      rintro p t ⟨ts, hread, hp⟩
      rw [ends_bind, ends_get, ends_bind]
      exact ends_note fun _ => ⟨ts, hread, hp.standsIn⟩
    exact hwhole
  | statement =>
    apply (stmt_ends o n s).mono
    · rintro a t ⟨ts, hread, ha⟩
      exact ⟨ts, hread, Stmt.withSemicolon_standsIn (fun _ hs => hs.standsIn) ha⟩
    · exact fun _ _ _ => trivial
  | statements =>
    apply Ends.mono (block_takesAt (stmt_takesAt o n) n [] s)
    · rintro b t ⟨ts, hread, hopens⟩
      exact ⟨ts, hread, hopens.1.standsIn⟩
    · exact fun _ _ _ => trivial
  | expression =>
    apply Ends.mono ((expr_takes n).lift s)
    · rintro e t ⟨ts, hread, he⟩
      exact ⟨ts, hread, List.forall_mem_map.mpr he.standsIn⟩
    · exact fun _ _ _ => trivial
  | typeName =>
    apply Ends.mono ((type_takes n).lift s)
    · rintro ty t ⟨ts, hread, -⟩
      exact ⟨ts, hread, List.forall_mem_nil _⟩
    · exact fun _ _ _ => trivial

/-- Every expression in what is read is evaluated exactly. -/
theorem Operation.inSteps_exact {tokens : List Token} (htokens : ∀ t ∈ tokens, t.IsUnsigned)
    (o : Options) (op : Operation) (n : Nat) {s : State} (hs : s.cursor.From tokens) :
    Ends (op.inSteps o n) s
      (fun given t => t.cursor.From tokens ∧ ∀ d, .expr d ∈ op.pieces given → d.IsExact)
      fun _ t => t.cursor.From tokens := by
  apply ((op.inSteps_reaches o s n).and (op.inSteps_standsIn o n s)).mono
  · rintro given t ⟨⟨ls, hreach⟩, ts, hread, hpieces⟩
    have ht : t.cursor.From tokens := hs.reaches hreach
    refine ⟨ht, fun d hd => ?_⟩
    obtain ⟨span, hsub, hspan, -⟩ := hpieces _ hd
    have hunsigned : d.Unsigned :=
      hspan.unsigned fun u hu => hread.isUnsigned htokens ht u (hsub.subset hu)
    exact hunsigned.isExact d d.mem_parts_self
  · rintro _ t ⟨⟨ls, hreach⟩, -⟩
    exact hs.reaches hreach

end Parse

/-! ## §6. What is stored -/

/-- All integers in the scopes have an opposite. -/
def Env.HasOpposites (env : Env) : Prop := env.scopes.Forall fun b => b.value.HasOpposites

theorem Value.KnownFrom.opposites {v : Value} (h : v.KnownFrom Expr.Unsigned) :
    v.HasOpposites := by
  rcases h with rfl | ⟨e, he, rfl⟩
  · exact hasOpposites_unknown
  · exact (he.isExact e e.mem_parts_self).opposites

/-- One act: the scopes have an opposite of all integers if the value has that it stores. -/
theorem Act.Turns.opposites {act : Act} {a b : Env} (h : act.Turns a b) (ha : a.HasOpposites)
    (hact : ∀ v, act.value? = some v → v.HasOpposites) : b.HasOpposites := by
  cases act with
  | begin | finish =>
    obtain rfl : a = b := h
    exact ha
  | enter =>
    obtain rfl : a.push = b := h
    exact ha.push
  | leave =>
    obtain ⟨scopes, hpop, rfl⟩ := Env.pop_eq_ok h
    exact ha.pop? hpop
  | declare name type value =>
    obtain ⟨-, rfl⟩ := Env.declare_eq_ok h
    exact ha.define name (hact value rfl)
  | assign name value =>
    obtain ⟨pos, hassign⟩ := h
    obtain ⟨b, -, -, rfl⟩ := Env.assign_eq_ok hassign
    exact (ha.replaceNearest name (b := ⟨b.type, value⟩) (hact value rfl)).1
  | register f =>
    obtain ⟨pos, hregister⟩ := h
    obtain ⟨-, rfl⟩ := Env.register_eq_ok hregister
    exact ha

/-- All acts of a run. -/
theorem Env.Runs.opposites {a b : Env} {acts : List Act} {es : List Event}
    (h : a.Runs acts es b) (ha : a.HasOpposites) (hacts : StoresIn Value.HasOpposites acts) :
    b.HasOpposites := by
  induction h with
  | nil => exact ha
  | cons hturn _ ih =>
    obtain ⟨hact, hrest⟩ := List.forall_mem_cons.mp hacts
    exact ih (hturn.opposites ha hact) hrest

namespace Parse

/-- A parse of some tokens has come from `s` to `t`, and no scope has held an integer without
    an opposite on the way: neither at the end nor after any of its acts. -/
structure StaysExact (o : Options) (tokens : List Token) (s t : State) : Prop where
  cursor : t.cursor.From tokens
  acts : ∃ acts, Comes o Value.HasOpposites s acts t ∧ ∀ before es env, before <+: acts →
    s.env.Runs before es env → env.HasOpposites
  env : t.env.HasOpposites

/-- What is stored by acts is kept after each of them. -/
theorem Comes.staysExact {o : Options} {tokens : List Token} {s t : State} {acts : List Act}
    (h : Comes o (Value.KnownFrom Expr.Unsigned) s acts t) (hs : s.env.HasOpposites)
    (ht : t.cursor.From tokens) : StaysExact o tokens s t := by
  obtain ⟨⟨es, hruns, htrace⟩, hknown⟩ := h
  have hstores : StoresIn Value.HasOpposites acts :=
    fun act hact v hv => (hknown act hact v hv).opposites
  refine ⟨ht, ⟨acts, ⟨⟨es, hruns, htrace⟩, hstores⟩, ?_⟩, hruns.opposites hs hstores⟩
  intro before es' env hbefore hto
  exact hto.opposites hs fun act hact => hstores act (hbefore.subset hact)

/-- **Constant negation never overflows.**

    Take the tokens of a text that lexes and a parser with a cursor in them, as a fresh one has
    at their start, also where they are cut off.  Whatever it reads, checked or not
    and with any number of steps: each expression that it reads on the way, and each one at
    any depth of what it gives, has the constant that integers of any size would give; the
    integers in it lie between `-(2 ^ 63 - 1)` and `2 ^ 63 - 1`, and the least integer of 64
    bits never has a sign put before it.

    If the integers in the scopes lie there too, as they do in a fresh parser that has none,
    then they do after every act of the parse, whether it gives something in the end or
    fails, and another parse can go on from there. -/
theorem negation_exact {source : Bytes} {tokens : List Token} (hlex : tokenize source = .ok tokens) :
    (∀ front, front <+: tokens → (Cursor.ofTokens front).From tokens) ∧ ({} : Env).HasOpposites
    ∧ ∀ (o : Options) (op : Operation) (n : Nat) (s : State), s.cursor.From tokens →
      (∀ e c, expr n s.cursor = .ok e c → ∀ d ∈ e.parts, d.IsExact)
      ∧ (∀ given t, op.inSteps o n s = .ok given t → ∀ d, .expr d ∈ op.pieces given → d.IsExact)
      ∧ (s.env.HasOpposites → Ends (op.inSteps o n) s (fun _ t => StaysExact o tokens s t)
          fun _ t => StaysExact o tokens s t) := by
  have htokens := isUnsigned_of_tokenize hlex
  refine ⟨fun front hfront t ht => .inl (hfront.subset ht), ScopeStack.forall_empty, ?_⟩
  intro o op n s hs
  have hadmits := admits_unsigned htokens
  have hexact := op.inSteps_exact htokens o n hs
  refine ⟨?_, ?_, ?_⟩
  · intro e c hrun
    -- a scanned number has no sign, so neither has a literal that is read from it
    obtain ⟨hunsigned, -⟩ := (hadmits.expr n s.cursor hs).of_ok hrun
    exact hunsigned.isExact
  · intro given t hrun
    exact (hexact.of_ok hrun).2
  · intro henv
    apply ((op.inSteps_performs hadmits n s hs).and hexact).mono
    · rintro given t ⟨⟨-, acts, hcomes, -⟩, ht, -⟩
      exact hcomes.staysExact henv ht
    · rintro _ t ⟨⟨acts, hcomes⟩, ht⟩
      exact hcomes.staysExact henv ht

/-- The integer after the least one, and signs before it and in a list. -/
def signs : Bytes := ascii "let x: list<int> = [-9223372036854775807, --(9223372036854775807)]"

/-- The two integers are stored as they stand there, and all that was read is exact. -/
theorem negation_exact_bounds :
    ∃ tokens p t b, tokenize signs = .ok tokens ∧ whole {} tokens = .ok p t
      ∧ t.env.lookup? [120] = some b
      ∧ b.value.ints = [-9223372036854775807, 9223372036854775807]
      ∧ (∀ d, .expr d ∈ Stmt.piecesOf p → d.IsExact) ∧ t.env.HasOpposites := by
  obtain ⟨tokens, htokens, hends⟩ : ∃ tokens, tokenize signs = .ok tokens
      ∧ Ends (program {}) { cursor := .ofTokens tokens }
        (fun _ t => (t.env.lookup? [120]).map (fun b => b.value.ints)
          = some [-9223372036854775807, 9223372036854775807])
        fun _ _ => False :=
    Gives.exists_ok (by decide +kernel)
  obtain ⟨p, t, hrun, hstored⟩ := hends.exists_ok
  obtain ⟨b, hb, hvalue⟩ := Option.map_eq_some_iff.mp hstored
  let s : State := { cursor := .ofTokens tokens }
  have hsteps : Operation.inSteps {} .program (s.cursor.weight + 1) s = .ok p t :=
    (Operation.inSteps_eq _ .program s (Nat.lt_succ_self _)).trans hrun
  obtain ⟨hfrom, hfresh, hreads⟩ := negation_exact htokens
  have hs : s.cursor.From tokens := hfrom tokens (List.prefix_refl tokens)
  obtain ⟨-, hexprs, hscopes⟩ := hreads {} .program (s.cursor.weight + 1) s hs
  exact ⟨tokens, p, t, b, htokens, hrun, hb, hvalue, hexprs p t hsteps,
    ((hscopes hfresh).of_ok hsteps).env⟩

end Parse
end Lumen
