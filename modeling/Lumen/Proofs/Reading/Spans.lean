/-
  Lumen.Proofs.Reading.Spans — expressions span what was read for them.

  A reader that gives an expression has read the tokens that the expression spans, so
  every node in it stands at the first token of its own.  The loops for operators build
  new nodes around what they have, and the tokens grow at the end with them.

  Only a statement can be wanted where a block ends; a reader of expressions or types
  does not ask whether it does, and never fails for that reason.

  Main statements:
    * `Read` — the tokens between two states;
    * `Takes` — what a reader gives for the tokens that it reads;
    * `Takes.bind` — a sequence reads the tokens of its parts one after the other;
    * `type_takes`, `params_takes` — types and parameters;
    * `expr_takes` — expressions.
-/
import Lumen.Parse.Stmt
import Lumen.Proofs.Grammar.Spans
import Lumen.Proofs.Reading.ExprSound
import Lumen.Proofs.Reading.Moves
import Lumen.Proofs.Reading.Rereads

namespace Lumen

/-- Whether a run ended at the end of a block that was not open. -/
def Failure.isStray : Failure → Bool
  | error (.strayTerminator _) => true
  | _ => false

namespace Parse
open CursorM

/-! ## §1. What is read -/

section
variable {σ α β : Type} [HasCursor σ]

/-- From one state to another some tokens have been read. -/
def Read (s : σ) (ts : List Token) (t : σ) : Prop :=
  (HasCursor.cursor t).before.reverse = (HasCursor.cursor s).before.reverse ++ ts

theorem read_nil {s t : σ} (h : (HasCursor.cursor t).before = (HasCursor.cursor s).before) :
    Read s [] t := by
  rw [Read, h, List.append_nil]

theorem Read.trans {s t t' : σ} {us vs : List Token} (h : Read s us t) (h' : Read t vs t') :
    Read s (us ++ vs) t' := by
  rw [Read, h', h, List.append_assoc]

/-- From `s`, what a reader gives, the tokens that it reads and the state that it comes to are
    in `Q`.  It does not fail at the end of a block. -/
def TakesAt (m : EStateM Failure σ α) (s : σ) (Q : α → List Token → σ → Prop) : Prop :=
  Ends m s (fun a t => ∃ ts, Read s ts t ∧ Q a ts t) fun f _ => f.isStray = false

/-- From any state, what a reader gives and the tokens that it reads are in `Q`. -/
def Takes (m : EStateM Failure σ α) (Q : α → List Token → Prop) : Prop :=
  ∀ s, TakesAt m s fun a ts _ => Q a ts

variable {m : EStateM Failure σ α} {k : α → EStateM Failure σ β} {s : σ}

theorem TakesAt.mono {Q Q' : α → List Token → σ → Prop} (h : TakesAt m s Q)
    (hQ : ∀ a ts t, Q a ts t → Q' a ts t) : TakesAt m s Q' := by
  apply Ends.weaken h
  rintro a t ⟨ts, hread, ha⟩
  exact ⟨ts, hread, hQ a ts t ha⟩

/-- A sequence reads the tokens of its parts one after the other. -/
theorem TakesAt.bind {Q : α → List Token → σ → Prop} {Q' : β → List Token → σ → Prop}
    (h : TakesAt m s Q)
    (hk : ∀ a us t, Q a us t → TakesAt (k a) t fun b vs t' => Q' b (us ++ vs) t') :
    TakesAt (m >>= k) s Q' := by
  apply Ends.bind h
  rintro a t ⟨us, hread, ha⟩
  apply Ends.weaken (hk a us t ha)
  rintro b t' ⟨vs, hread', hb⟩
  exact ⟨us ++ vs, hread.trans hread', hb⟩

theorem Takes.bind {Q : α → List Token → Prop} {Q' : β → List Token → Prop} (h : Takes m Q)
    (hk : ∀ a us, Q a us → Takes (k a) fun b vs => Q' b (us ++ vs)) : Takes (m >>= k) Q' :=
  fun s => (h s).bind fun a us t ha => hk a us ha t

theorem takesAt_pure {a : α} {Q : α → List Token → σ → Prop} (h : Q a [] s) :
    TakesAt (pure a) s Q :=
  ⟨[], read_nil rfl, h⟩

theorem takes_pure {a : α} {Q : α → List Token → Prop} (h : Q a []) :
    Takes (pure a : EStateM Failure σ α) Q :=
  fun _ => takesAt_pure h

/-- Looking ahead reads nothing. -/
theorem takes_look {look : Option Token → α} (hm : Looks m look) {Q : β → List Token → Prop}
    (hk : ∀ a, Takes (k a) Q) : Takes (m >>= k) Q := by
  intro s
  rw [TakesAt, ends_looks hm]
  exact hk _ s

theorem takes_throw {f : Failure} (hf : f.isStray = false) (Q : α → List Token → Prop) :
    Takes (throw f : EStateM Failure σ α) Q :=
  fun _ => hf

end

/-! ## §2. Readers of single tokens -/

section
variable {α : Type} {c : Cursor}

theorem unexpected_takes (expected : Expected) (Q : α → List Token → Prop) :
    Takes (unexpected expected : CursorM α) Q :=
  fun _ => rfl

/-- The token at the cursor is read. -/
theorem advance_takesAt (c : Cursor) : TakesAt advance c fun t ts _ =>
    ts = [t] ∧ c.token? = some t := by
  rcases advance_cases c with ⟨-, hadvance⟩ | ⟨t, ht, hadvance⟩
  · exact (ends_error hadvance).mpr rfl
  · exact (ends_ok hadvance).mpr ⟨[t], List.reverse_cons, rfl, ht⟩

/-- It is known from a look at it. -/
theorem known_takesAt {l : Lexeme} (h : c.lexemes.head? = some l) :
    TakesAt advance c fun t ts _ => ts = [t] ∧ c.token? = some t ∧ t = ⟨l, t.pos⟩ := by
  apply (advance_takesAt c).mono
  rintro t ts - ⟨hts, ht⟩
  rw [← Cursor.map_token?, ht] at h
  cases h
  exact ⟨hts, ht, rfl⟩

/-- A token that is read if it is there. -/
theorem accept_takesAt (l : Lexeme) (c : Cursor) : TakesAt (accept l) c fun found ts c' =>
    (found = true ∧ ∃ p, ts = [⟨l, p⟩] ∧ c.token? = some ⟨l, p⟩)
      ∨ (found = false ∧ ts = [] ∧ c' = c) := by
  unfold accept
  rw [TakesAt, ends_bind, ends_isAt]
  split
  · next h =>
    apply (known_takesAt (eq_of_beq h)).bind
    rintro t ts c' ⟨rfl, htoken, ht⟩
    exact takesAt_pure (.inl ⟨rfl, t.pos, by rw [← ht]; rfl, by rw [← ht]; exact htoken⟩)
  · exact takesAt_pure (.inr ⟨rfl, rfl, rfl⟩)

theorem accept_takes (l : Lexeme) : Takes (accept l) fun found ts =>
    (found = true ∧ ∃ p, ts = [⟨l, p⟩]) ∨ (found = false ∧ ts = []) := by
  intro c
  apply (accept_takesAt l c).mono
  rintro found ts c' (⟨hfound, p, hts, -⟩ | ⟨hfound, hts, -⟩)
  · exact .inl ⟨hfound, p, hts⟩
  · exact .inr ⟨hfound, hts⟩

/-- A token that has to be there. -/
theorem demand_takesAt (l : Lexeme) (expected : Expected) (c : Cursor) :
    TakesAt (do if ← isAt l then let _ ← advance else unexpected expected : CursorM Unit) c
      fun _ ts _ => ∃ p, ts = [⟨l, p⟩] ∧ c.token? = some ⟨l, p⟩ := by
  rw [TakesAt, ends_bind, ends_isAt]
  split
  · next h =>
    apply (known_takesAt (eq_of_beq h)).bind
    rintro t ts c' ⟨rfl, htoken, ht⟩
    exact takesAt_pure ⟨t.pos, by rw [← ht]; rfl, by rw [← ht]; exact htoken⟩
  · exact unexpected_takes _ _ c

theorem mark_takes (m : Mark) : Takes (mark m) fun _ ts => ∃ p, ts = [⟨.mark m, p⟩] := by
  intro c
  apply (demand_takesAt (.mark m) (.mark m) c).mono
  rintro _ ts - ⟨p, hts, -⟩
  exact ⟨p, hts⟩

theorem word_takesAt (w : Word) (c : Cursor) :
    TakesAt (word w) c fun _ ts _ => ∃ p, ts = [⟨.word w, p⟩] ∧ c.token? = some ⟨.word w, p⟩ :=
  demand_takesAt (.word w) (.word w) c

theorem identifier_takes (expected : Expected) :
    Takes (identifier expected) fun name ts => ∃ p, ts = [⟨.ident name, p⟩] := by
  intro c
  unfold identifier
  rw [TakesAt, ends_bind, ends_lexeme?]
  split
  · next name h =>
    apply (known_takesAt h).bind
    rintro t ts c' ⟨rfl, -, ht⟩
    exact takesAt_pure ⟨t.pos, by rw [← ht]; rfl⟩
  · exact unexpected_takes _ _ c

theorem select?_takes (meaning : Lexeme → Option α) :
    Takes (select? meaning) fun a? ts =>
      (∃ a l p, a? = some a ∧ meaning l = some a ∧ ts = [⟨l, p⟩]) ∨ (a? = none ∧ ts = []) := by
  intro c
  unfold select?
  rw [TakesAt, ends_bind, ends_lexeme?]
  split
  · next a h =>
    obtain ⟨l, hl, hmeaning⟩ := Option.bind_eq_some_iff.mp h
    apply (known_takesAt hl).bind
    rintro t ts c' ⟨rfl, -, ht⟩
    exact takesAt_pure (.inl ⟨a, l, t.pos, rfl, hmeaning, by rw [← ht]; rfl⟩)
  · exact takesAt_pure (.inr ⟨rfl, rfl⟩)

end

/-! ## §3. Types -/

/-- Types, with the halves of a `>=` as tokens of their own. -/
theorem type_takes (n : Nat) : Takes (type n) fun ty ts => ts.map Token.lexeme = ty.lexemes := by
  induction n with
  | zero => exact takes_throw rfl _
  | succ n ih =>
    intro c
    unfold type
    rw [TakesAt, ends_bind, ends_lexeme?]
    split
    · next h =>
      apply (known_takesAt h).bind
      rintro t ts c₁ ⟨rfl, -, ht⟩
      apply (mark_takes .lt c₁).bind
      rintro _ _ c₂ ⟨p, rfl⟩
      apply (ih c₂).bind
      intro elem us c₃ helem
      -- a split reads nothing, whatever it does to the tokens ahead
      have hsplit : TakesAt (modify Cursor.splitGe : CursorM Unit) c₃ fun _ vs _ => vs = [] :=
        ⟨[], read_nil (Cursor.before_splitGe c₃), rfl⟩
      apply hsplit.bind
      rintro _ _ c₄ rfl
      apply (mark_takes .gt c₄).bind
      rintro _ _ c₅ ⟨q, rfl⟩
      refine takesAt_pure ?_
      rw [ht]
      simp [Ty.lexemes, helem]
    · next l _ h =>
      split
      · next ty hty =>
        apply (known_takesAt h).bind
        rintro t ts c₁ ⟨rfl, -, ht⟩
        refine takesAt_pure ?_
        show [t.lexeme] = ty.lexemes
        rw [ht, (Ty.lexemes_of_ofLexeme? hty).2]
      · exact unexpected_takes _ _ c
    · exact unexpected_takes _ _ c

theorem paramList_takes (n steps : Nat) :
    Takes (paramList n steps) fun ps ts => ps ≠ [] ∧ ts.map Token.lexeme = paramLexemes ps := by
  induction steps with
  | zero => exact takes_throw rfl _
  | succ steps ih =>
    unfold paramList
    apply (identifier_takes _).bind
    rintro name _ ⟨p, rfl⟩
    apply (mark_takes _).bind
    rintro _ _ ⟨q, rfl⟩
    apply (type_takes n).bind
    intro ty us hty
    apply (accept_takes _).bind
    rintro _ _ (⟨rfl, r, rfl⟩ | ⟨rfl, rfl⟩)
    · rw [if_pos rfl]
      apply takes_look (isAt_looks _)
      intro closes
      split
      · exact unexpected_takes _ _
      · apply ih.bind
        rintro ps vs ⟨hps, hvs⟩
        refine takes_pure ⟨List.cons_ne_nil _ _, ?_⟩
        rw [paramLexemes_cons _ hps]
        simp [hty, hvs]
    · rw [if_neg Bool.false_ne_true]
      exact takes_pure ⟨List.cons_ne_nil _ _, by simp [paramLexemes, hty]⟩

theorem params_takes (n : Nat) : Takes (params n) fun ps ts => ∃ p list q,
    ts = ⟨.mark .lparen, p⟩ :: (list ++ [⟨.mark .rparen, q⟩])
      ∧ list.map Token.lexeme = paramLexemes ps := by
  unfold params
  apply (mark_takes _).bind
  rintro _ _ ⟨p, rfl⟩
  apply takes_look (isAt_looks _)
  intro none
  -- no parameters at all, or a list of them
  split
  · apply (mark_takes _).bind
    rintro _ _ ⟨q, rfl⟩
    exact takes_pure ⟨p, [], q, rfl, rfl⟩
  · apply (paramList_takes n n).bind
    rintro ps us ⟨-, hps⟩
    apply (mark_takes _).bind
    rintro _ _ ⟨q, rfl⟩
    exact takes_pure ⟨p, us, q, by simp, hps⟩

/-- The type of a loop variable is `int`. -/
theorem loopType_takes (n : Nat) (var : Bytes) :
    Takes (loopType n var) fun _ ts => ∃ p, ts = [⟨.word .int, p⟩] := by
  intro c
  unfold loopType
  rw [TakesAt, ends_bind, ends_token?]
  split
  · next p h =>
    apply (advance_takesAt c).bind
    rintro t ts c₁ ⟨rfl, ht⟩
    rw [h] at ht
    obtain rfl := Option.some.inj ht
    exact takesAt_pure ⟨p, rfl⟩
  · split
    · -- another type is read to its end before it is refused
      apply (type_takes n c).bind
      intro ty us c₁ _
      exact takes_throw rfl _ c₁
    · exact unexpected_takes _ _ c
  · exact unexpected_takes _ _ c

/-! ## §4. Operators -/

section
variable {operand : CursorM Expr} (hop : Takes operand Expr.Spans)
include hop

section
variable {join? : Lexeme → Option Join} {k : Nat} (hjoin : JoinsAt k join?)
include hjoin

/-- What has been read before belongs to the left operand. -/
theorem chain_takes (steps : Nat) {lhs : Expr} {us : List Token} (hl : lhs.Spans us) :
    Takes (chain join? operand steps lhs) fun e vs => e.Spans (us ++ vs) := by
  induction steps generalizing lhs us with
  | zero => exact takes_throw rfl _
  | succ steps ih =>
    unfold chain
    apply (select?_takes join?).bind
    rintro _ _ (⟨join, l, q, rfl, hl', rfl⟩ | ⟨rfl, rfl⟩)
    · obtain ⟨op, -, rfl, rfl⟩ := (hjoin l join).mp hl'
      apply hop.bind
      intro rhs vs hr
      -- the next operand goes to the right of what there is
      have hgrown := ih (Expr.spans_node op q hl hr)
      simpa using hgrown
    · exact takes_pure (by simpa using hl)

theorem leftAssoc_takes (steps : Nat) : Takes (leftAssoc join? operand steps) Expr.Spans := by
  unfold leftAssoc
  exact hop.bind fun lhs us hl => chain_takes hop hjoin steps hl

theorem nonAssoc_takes : Takes (nonAssoc join? operand) Expr.Spans := by
  unfold nonAssoc
  apply hop.bind
  intro lhs us hl
  apply (select?_takes join?).bind
  rintro _ _ (⟨join, l, q, rfl, hl', rfl⟩ | ⟨rfl, rfl⟩)
  · obtain ⟨op, -, rfl, rfl⟩ := (hjoin l join).mp hl'
    apply hop.bind
    intro rhs vs hr
    refine takes_pure ?_
    simpa using Expr.spans_node op q hl hr
  · exact takes_pure (by simpa using hl)

end

theorem signed_takes (steps : Nat) : Takes (signed operand steps) Expr.Spans := by
  induction steps with
  | zero => exact takes_throw rfl _
  | succ steps ih =>
    intro c
    unfold signed
    rw [TakesAt, ends_bind, ends_isAt]
    split
    · next h =>
      apply (known_takesAt (eq_of_beq h)).bind
      rintro t ts c₁ ⟨rfl, -, ht⟩
      apply (ih c₁).bind
      intro e us c₂ he
      exact takesAt_pure ⟨us, by rw [ht]; simp, he⟩
    · exact hop c

end

/-! ## §5. What stands by itself -/

section
variable {expr : CursorM Expr} (hexpr : Takes expr Expr.Spans)
include hexpr

theorem listed_takes (close : Mark) (steps : Nat) :
    Takes (listed close expr steps) fun es ts => es ≠ [] ∧ ∃ mid q,
      ts = mid ++ [⟨.mark close, q⟩] ∧ Expr.ListSpans es mid := by
  induction steps with
  | zero => exact takes_throw rfl _
  | succ steps ih =>
    unfold listed
    apply hexpr.bind
    intro e us he
    apply (accept_takes _).bind
    rintro _ _ (⟨rfl, p, rfl⟩ | ⟨rfl, rfl⟩)
    · rw [if_pos rfl]
      apply takes_look (isAt_looks _)
      intro closes
      split
      · exact unexpected_takes _ _
      · apply ih.bind
        rintro es vs ⟨hes, mid, q, rfl, hmid⟩
        refine takes_pure ⟨List.cons_ne_nil _ _, us ++ ⟨.mark .comma, p⟩ :: mid, q, by simp, ?_⟩
        exact Expr.listSpans_cons hes p he hmid
    · rw [if_neg Bool.false_ne_true]
      apply (mark_takes close).bind
      rintro _ _ ⟨q, rfl⟩
      exact takes_pure ⟨List.cons_ne_nil _ _, us, q, by simp, he⟩

theorem arguments_takes (close : Mark) (steps : Nat) :
    Takes (arguments close expr steps) fun es ts => ∃ mid q,
      ts = mid ++ [⟨.mark close, q⟩] ∧ Expr.ListSpans es mid := by
  unfold arguments
  apply (accept_takes _).bind
  rintro _ _ (⟨rfl, p, rfl⟩ | ⟨rfl, rfl⟩)
  · rw [if_pos rfl]
    exact takes_pure ⟨[], p, rfl, rfl⟩
  · rw [if_neg Bool.false_ne_true]
    exact fun c => (listed_takes hexpr close steps c).mono fun _ _ _ h => h.2

theorem indices_takes (steps : Nat) : Takes (indices expr steps) Expr.IndicesSpan := by
  induction steps with
  | zero => exact takes_throw rfl _
  | succ steps ih =>
    unfold indices
    apply (accept_takes _).bind
    rintro _ _ (⟨rfl, p, rfl⟩ | ⟨rfl, rfl⟩)
    · rw [if_pos rfl]
      apply hexpr.bind
      intro e us he
      apply (mark_takes _).bind
      rintro _ _ ⟨q, rfl⟩
      apply ih.bind
      intro path vs hpath
      exact takes_pure ⟨p, us, q, vs, by simp, he, hpath⟩
    · rw [if_neg Bool.false_ne_true]
      exact takes_pure rfl

/-- What follows a name, seen together with it. -/
theorem named_takes (steps : Nat) (p : Pos) (name : Bytes) :
    Takes (named expr steps p name) fun e ts =>
      e.isNamed = true ∧ e.pos = p ∧ e.Spans (⟨.ident name, p⟩ :: ts) := by
  unfold named
  apply (accept_takes _).bind
  rintro _ _ (⟨rfl, q, rfl⟩ | ⟨rfl, rfl⟩)
  · rw [if_pos rfl]
    apply (arguments_takes hexpr .rparen steps).bind
    rintro args _ ⟨mid, r, rfl, hmid⟩
    exact takes_pure ⟨rfl, rfl, q, mid, r, by simp, hmid⟩
  · rw [if_neg Bool.false_ne_true]
    -- no call: a path of indices, and perhaps a method at the end of it
    apply (indices_takes hexpr steps).bind
    intro path us hpath
    apply (accept_takes _).bind
    rintro _ _ (⟨rfl, d, rfl⟩ | ⟨rfl, rfl⟩)
    · rw [if_pos rfl]
      apply (identifier_takes _).bind
      rintro method _ ⟨i, rfl⟩
      apply (mark_takes _).bind
      rintro _ _ ⟨q, rfl⟩
      apply (arguments_takes hexpr .rparen steps).bind
      rintro args _ ⟨mid, r, rfl, hmid⟩
      exact takes_pure ⟨rfl, rfl, us, d, i, q, mid, r, by simp, hpath, hmid⟩
    · rw [if_neg Bool.false_ne_true]
      exact takes_pure ⟨rfl, rfl, us, by simp, hpath⟩

theorem primary_takes (steps : Nat) : Takes (primary expr steps) Expr.Spans := by
  intro c
  unfold primary
  rw [TakesAt, ends_bind, ends_lexeme?]
  split
  · next v h =>
    apply (known_takesAt h).bind
    rintro t ts c₁ ⟨rfl, -, ht⟩
    refine takesAt_pure ?_
    rw [ht]
    rfl
  · next name h =>
    apply (known_takesAt h).bind
    rintro t ts c₁ ⟨rfl, -, ht⟩
    apply (named_takes hexpr steps t.pos name c₁).mono
    rintro e us - ⟨-, -, he⟩
    rw [ht]
    exact he
  · next h =>
    apply (known_takesAt h).bind
    rintro t ts c₁ ⟨rfl, -, ht⟩
    apply (hexpr c₁).bind
    intro inner us c₂ hinner
    apply (mark_takes _ c₂).bind
    rintro _ _ c₃ ⟨q, rfl⟩
    exact takesAt_pure ⟨us, q, by rw [ht]; simp, hinner⟩
  · next h =>
    apply (known_takesAt h).bind
    rintro t ts c₁ ⟨rfl, -, ht⟩
    apply (arguments_takes hexpr .rbracket steps c₁).bind
    rintro es _ c₂ ⟨mid, q, rfl, hmid⟩
    exact takesAt_pure ⟨mid, q, by rw [ht]; simp, hmid⟩
  · exact unexpected_takes _ _ c

end

/-- Whole expressions. -/
theorem expr_takes (n : Nat) : Takes (expr n) Expr.Spans := by
  induction n with
  | zero => exact takes_throw rfl _
  | succ n ih =>
    have hsigned := signed_takes (primary_takes ih (n + 1)) (n + 1)
    have hmul := leftAssoc_takes hsigned multiplicative_joinsAt (n + 1)
    have hadd := leftAssoc_takes hmul additive_joinsAt (n + 1)
    have hcmp := nonAssoc_takes hadd comparison_joinsAt
    have hand := leftAssoc_takes hcmp and_joinsAt (n + 1)
    rw [expr_succ]
    exact leftAssoc_takes hand or_joinsAt (n + 1)

end Parse
end Lumen
