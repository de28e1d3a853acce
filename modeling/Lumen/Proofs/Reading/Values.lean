/-
  Lumen.Proofs.Reading.Values — the text of a value is source for that value.

  A value is written as an expression would be: constants as themselves, a negative
  number as a sign and a number, and a list between brackets.  So there is an
  expression for each value, and the text of the value is read as its lexemes.  No
  piece of the text goes on into the next, because after every value comes a comma, a
  closing bracket or the end.

  Text has a sign only in front of a number, and the sign says nothing of the rest: a
  double and its opposite are written with the same digits.  So a double has to read
  back without its sign only.

  Main statements:
    * `unsignedText_neg` — the digits of a double do not depend on its sign;
    * `Value.Writable` — values that can be written;
    * `Value.asExpr` — the expression that a value is written as;
    * `Value.Writable.readAs` — the text of a value is read as that expression's lexemes;
    * `expression_value` — the round trip, from the text to the constant.
-/
import Lumen.Proofs.Lexing.RoundTrip
import Lumen.Proofs.Lexing.Floats
import Lumen.Proofs.Layout.Erasure
import Lumen.Proofs.Reading.ExprComplete
import Lumen.Proofs.Checking.Shadowed

namespace Lumen

/-! ## §1. Signs -/

namespace Binary64

section
variable (b : Binary64)

@[simp] theorem fraction_neg : b.neg.fraction = b.fraction := by
  unfold fraction neg
  rw [UInt64.toNat_xor, twoTo_eq, Nat.xor_mod_two_pow]
  exact Nat.xor_zero _

@[simp] theorem biased_neg : b.neg.biased = b.biased := by
  unfold biased neg
  rw [UInt64.toNat_xor, twoTo_eq, twoTo_eq, Nat.xor_div_two_pow, Nat.xor_mod_two_pow]
  exact Nat.xor_zero _

/-- The sign is the first of the 64 bits, and only that is changed. -/
@[simp] theorem isNegative_neg : b.neg.isNegative = !b.isNegative := by
  have hsign : ∀ x : Binary64, x.isNegative = decide (x.bits.toNat / 2 ^ 63 = 1) := by
    intro x
    have hlt := x.bits.toNat_lt
    unfold isNegative
    rw [twoTo_eq]
    exact decide_eq_decide.mpr (by omega)
  have hflip : b.neg.bits.toNat / 2 ^ 63 = (b.bits.toNat / 2 ^ 63) ^^^ 1 := by
    unfold neg
    rw [UInt64.toNat_xor, Nat.xor_div_two_pow]
    rfl
  have hlt := b.bits.toNat_lt
  obtain hbit | hbit : b.bits.toNat / 2 ^ 63 = 0 ∨ b.bits.toNat / 2 ^ 63 = 1 := by omega
  · rw [hsign, hsign, hflip, hbit]
    rfl
  · rw [hsign, hsign, hflip, hbit]
    rfl

@[simp] theorem mantissa_neg : b.neg.mantissa = b.mantissa := by simp [mantissa]

@[simp] theorem exponent_neg : b.neg.exponent = b.exponent := by simp [exponent]

@[simp] theorem magnitude_neg : b.neg.magnitude = b.magnitude := by simp [magnitude]

@[simp] theorem interval_neg : b.neg.interval = b.interval := by simp [interval]

@[simp] theorem isZero_neg : b.neg.isZero = b.isZero := by simp [isZero]

theorem onGrid?_neg (grid : Int) : b.neg.onGrid? grid = b.onGrid? grid := by simp [onGrid?]

theorem shortestFrom_neg (grid : Int) (finer : Nat) :
    b.neg.shortestFrom grid finer = b.shortestFrom grid finer := by
  induction finer generalizing grid with
  | zero => simp [shortestFrom]
  | succ finer ih => simp only [shortestFrom, onGrid?_neg, ih]

@[simp] theorem shortest_neg : b.neg.shortest = b.shortest := by
  simp [shortest, shortestFrom_neg]

/-- A double and its opposite are written with the same digits. -/
theorem unsignedText_neg : b.neg.unsignedText = b.unsignedText := by
  simp [unsignedText, isNaN, isInfinite, places]

end

/-- The number without its sign. -/
def abs (b : Binary64) : Binary64 := if b.isNegative then b.neg else b

/-- A double is written as its digits, with a sign in front if it has one. -/
theorem text_eq_abs (b : Binary64) :
    b.text = if b.isNegative then 45 :: b.abs.text else b.abs.text := by
  cases hsign : b.isNegative with
  | true => simp [abs, text, hsign, unsignedText_neg]
  | false => simp [abs, hsign]

end Binary64

/-! ## §2. Constants -/

namespace Literal

/-- Whether a constant is written with a sign. -/
def isNegative : Literal → Bool
  | int n => decide (n.toInt < 0)
  | float x => x.isNegative
  | _ => false

/-- A constant without its sign. -/
def abs : Literal → Literal
  | int n => int (if n.toInt < 0 then -n else n)
  | float x => float x.abs
  | v => v

/-- The constants that can be written with a sign and a literal: the least integer has no
    opposite, and of a double it is asked that it reads back without its sign. -/
def Writable : Literal → Prop
  | int n => -(2 ^ 63 - 1) ≤ n.toInt
  | float x => x.abs.ReadsBack
  | _ => True

variable {v : Literal}

theorem abs_of_not_isNegative (h : v.isNegative = false) : v.abs = v := by
  cases v with
  | int n => simp_all [isNegative, abs]
  | float x => simp_all [isNegative, abs, Binary64.abs]
  | _ => rfl

/-- The sign gives back what was taken away. -/
theorem neg?_abs (h : v.isNegative = true) : v.abs.neg? = some v := by
  cases v with
  | int n => simp_all [isNegative, abs, neg?]
  | float x => simp_all [isNegative, abs, Binary64.abs, neg?]
  | _ => cases h

theorem Writable.toInt_neg {n : Int64} (h : (int n).Writable) : (-n).toInt = -n.toInt := by
  have hlow : -(2 ^ 63 - 1) ≤ n.toInt := h
  have hhigh := n.toInt_lt
  rw [Int64.toInt_neg]
  exact Int.bmod_eq_of_le (by omega) (by omega)

theorem Writable.text_eq (h : v.Writable) :
    v.text = if v.isNegative then 45 :: v.abs.text else v.abs.text := by
  cases v with
  | int n =>
    by_cases hneg : n.toInt < 0
    · have hle : n.toInt ≤ 0 := Int.le_of_lt hneg
      simp [isNegative, abs, text, decimalInt, hneg, h.toInt_neg, hle]
    · simp [isNegative, abs, hneg]
  | float x => exact x.text_eq_abs
  | _ => rfl

theorem Writable.legible (h : v.Writable) : (Lexeme.literal v.abs).Legible := by
  cases v with
  | int n =>
    show 0 ≤ (if n.toInt < 0 then -n else n).toInt
    split
    · next hneg =>
      rw [h.toInt_neg]
      omega
    · next hneg => omega
  | float x => exact h
  | _ => trivial

/-- The expression that a constant is written as. -/
def asExpr (v : Literal) : Expr :=
  if v.isNegative then .neg {} (.literal {} v.abs) else .literal {} v.abs

theorem constant_asExpr (v : Literal) : v.asExpr.constant = .scalar v := by
  unfold asExpr
  split
  · next h => simp [Expr.constant, neg?_abs h]
  · next h => rw [Expr.constant, abs_of_not_isNegative (Bool.not_eq_true _ ▸ h)]

theorem isLevelled_asExpr (v : Literal) : v.asExpr.isLevelled = true := by
  unfold asExpr
  split <;> rfl

end Literal

/-! ## §3. Values -/

namespace Value

/-- The known values that are made of constants that can be written. -/
inductive Writable : Value → Prop where
  | scalar {v : Literal} (h : v.Writable) : Writable (.scalar v)
  | list {items : List Value} (h : ∀ v ∈ items, Writable v) : Writable (.list items)

mutual
/-- The expression that a value is written as; an unknown one is written as a name that
    no text spells. -/
def asExpr : Value → Expr
  | unknown => .access {} (ascii "<unknown>") []
  | scalar v => v.asExpr
  | list items => .list {} (asExprs items)

/-- The expressions that some values are written as. -/
def asExprs : List Value → List Expr
  | [] => []
  | v :: vs => v.asExpr :: asExprs vs
end

section
variable {items : List Value}

theorem areLevelled_asExprs_of (h : ∀ v ∈ items, v.asExpr.isLevelled = true) :
    Expr.areLevelled (asExprs items) = true := by
  induction items with
  | nil => rfl
  | cons v items ih =>
    obtain ⟨hhead, htail⟩ := List.forall_mem_cons.mp h
    rw [asExprs, Expr.areLevelled, hhead, ih htail]
    rfl

theorem constants?_asExprs_of (h : ∀ v ∈ items, v ≠ .unknown ∧ v.asExpr.constant = v) :
    constants? (asExprs items) = some items := by
  induction items with
  | nil => rfl
  | cons v items ih =>
    obtain ⟨⟨hknown, hhead⟩, htail⟩ := List.forall_mem_cons.mp h
    rw [asExprs, constants?, hhead, ih htail]
    cases v with
    | unknown => exact absurd rfl hknown
    | _ => rfl

end

variable {v : Value}

theorem Writable.ne_unknown (h : v.Writable) : v ≠ .unknown := by
  cases h <;> simp

theorem Writable.isLevelled_asExpr (h : v.Writable) : v.asExpr.isLevelled = true := by
  induction h with
  | scalar => exact Literal.isLevelled_asExpr _
  | list _ ih => exact areLevelled_asExprs_of ih

/-- The expression that a value is written as has that value. -/
theorem Writable.constant_asExpr (h : v.Writable) : v.asExpr.constant = v := by
  induction h with
  | scalar => exact Literal.constant_asExpr _
  | list h ih =>
    rw [asExpr, Expr.constant, constants?_asExprs_of fun v hv => ⟨(h v hv).ne_unknown, ih v hv⟩]

end Value

/-! ## §4. The text of a value -/

/-- Whether a text is read as some lexemes, wherever it stands and whatever follows where
    no lexeme goes on. -/
def ReadAs (s : Bytes) (ls : List Lexeme) : Prop :=
  ∀ p rest, AfterLexeme rest → ∃ tokens : List Token, tokens.map Token.lexeme = ls
    ∧ tokensFrom 0 p (s ++ rest) = (tokensFrom 0 (p.advance s) rest).map (tokens ++ ·)

theorem map_nil_append (r : Except LexError (List Token)) : r.map (([] : List Token) ++ ·) = r := by
  cases r <;> rfl

section
variable {s t : Bytes} {ls ms : List Lexeme}

theorem readAs_nil : ReadAs [] [] :=
  fun _ _ _ => ⟨[], rfl, (map_nil_append _).symm⟩

theorem Lexeme.Legible.readAs {l : Lexeme} (h : l.Legible) : ReadAs l.source [l] :=
  fun p _ hrest => ⟨[⟨l, p⟩], rfl, tokensFrom_source h hrest p⟩

/-- One text after the other, if no lexeme of the first goes on into the second. -/
theorem ReadAs.append (hs : ReadAs s ls) (ht : ReadAs t ms)
    (hgo : ∀ rest, AfterLexeme rest → AfterLexeme (t ++ rest)) : ReadAs (s ++ t) (ls ++ ms) := by
  intro p rest hrest
  have hfirst : ReadBefore (t ++ rest) s ls := fun p => hs p (t ++ rest) (hgo rest hrest)
  have hsecond : ReadBefore rest t ms := fun p => ht p rest hrest
  exact hfirst.append hsecond p

/-- A mark that no other mark starts with, and a text after it. -/
theorem ReadAs.after_mark {b : UInt8} {m : Mark} (hs : ReadAs s ls)
    (hscan : ∀ rest, scanAt b rest = .lexeme (.mark m) 0) : ReadAs (b :: s) (.mark m :: ls) := by
  intro p rest hrest
  have hmark : ReadBefore (s ++ rest) [b] [.mark m] := readBefore_of_scanAt (hscan _)
  have htext : ReadBefore rest s ls := fun p => hs p rest hrest
  exact hmark.append htext p

theorem ReadAs.after_space (hs : ReadAs s ls) : ReadAs (Byte.space :: s) ls := by
  intro p rest hrest
  obtain ⟨tokens, htokens, hreads⟩ := hs (p.step Byte.space) rest hrest
  refine ⟨tokens, htokens, ?_⟩
  rw [List.cons_append, tokensFrom_space, hreads, Pos.advance_cons]

end

theorem Literal.Writable.readAs {v : Literal} (h : v.Writable) :
    ReadAs v.text v.asExpr.lexemes := by
  have hdigits : ReadAs v.abs.text [.literal v.abs] := h.legible.readAs
  rw [h.text_eq, asExpr]
  cases v.isNegative with
  | true => exact hdigits.after_mark fun _ => rfl
  | false => exact hdigits

namespace Value

theorem textItems_cons (v : Value) {vs : List Value} (h : vs ≠ []) :
    textItems (v :: vs) = v.text ++ 44 :: Byte.space :: textItems vs := by
  rw [textItems, List.append_assoc]
  · rfl
  · exact h

/-- Between two items stand a comma and a blank. -/
theorem readAs_textItems_of {items : List Value}
    (h : ∀ v ∈ items, ReadAs v.text v.asExpr.lexemes) :
    ReadAs (textItems items) (Expr.listLexemes (asExprs items)) := by
  induction items with
  | nil => exact readAs_nil
  | cons v items ih =>
    obtain ⟨hhead, htail⟩ := List.forall_mem_cons.mp h
    cases items with
    | nil => exact hhead
    | cons w items =>
      have hrest : ReadAs (44 :: Byte.space :: textItems (w :: items))
          (.mark .comma :: Expr.listLexemes (asExprs (w :: items))) :=
        (ih htail).after_space.after_mark fun _ => rfl
      rw [textItems_cons v (List.cons_ne_nil w items), asExprs,
        Expr.listLexemes_cons _ (by simp [asExprs])]
      exact hhead.append hrest fun rest _ => .comma _

/-- The text of a value is read as the lexemes of the expression it is written as. -/
theorem Writable.readAs {v : Value} (h : v.Writable) : ReadAs v.text v.asExpr.lexemes := by
  induction h with
  | scalar h => exact h.readAs
  | list _ ih =>
    have hclose : ReadAs [93] [.mark .rbracket] := readAs_nil.after_mark fun _ => rfl
    have hitems := (readAs_textItems_of ih).append hclose fun rest _ => .bracket rest
    rw [text, asExpr, Expr.lexemes]
    exact hitems.after_mark fun _ => rfl

end Value

/-! ## §5. Reading the text back -/

/-- The lexemes that values are written with. -/
def Lexeme.inValue : Lexeme → Bool
  | literal _ => true
  | mark m => m == .minus || m == .comma || m == .lbracket || m == .rbracket
  | _ => false

namespace Value

theorem inValue_listLexemes_of {items : List Value}
    (h : ∀ v ∈ items, ∀ l ∈ v.asExpr.lexemes, l.inValue = true) :
    ∀ l ∈ Expr.listLexemes (asExprs items), l.inValue = true := by
  induction items with
  | nil => exact List.forall_mem_nil _
  | cons v items ih =>
    obtain ⟨hhead, htail⟩ := List.forall_mem_cons.mp h
    cases items with
    | nil => exact hhead
    | cons w items =>
      rw [asExprs, Expr.listLexemes_cons _ (by simp [asExprs])]
      exact List.forall_mem_append.mpr ⟨hhead, List.forall_mem_cons.mpr ⟨rfl, ih htail⟩⟩

theorem Writable.inValue {v : Value} (h : v.Writable) :
    ∀ l ∈ v.asExpr.lexemes, l.inValue = true := by
  induction h with
  | @scalar v h =>
    rw [asExpr, Literal.asExpr]
    split <;> simp [Expr.lexemes, Lexeme.inValue]
  | @list items _ ih =>
    rw [asExpr, Expr.lexemes]
    exact List.forall_mem_cons.mpr ⟨rfl, List.forall_mem_append.mpr
      ⟨inValue_listLexemes_of ih, List.forall_mem_singleton.mpr rfl⟩⟩

end Value

namespace Parse

/-- Where there is no `>=`, no token is changed; and the end stays ahead. -/
theorem supplies_unchanged {tokens : List Token} (hge : ∀ t ∈ tokens, t.lexeme ≠ .mark .ge) :
    Supplies (fun c => c.tokens = tokens ∧ ∃ t ∈ c.ahead, t.isEof = true) (fun _ => True)
      fun _ => True where
  token _ _ _ := trivial
  past h ht := by
    obtain ⟨hfirst, -⟩ := Option.filter_eq_some_iff.mp ht
    exact ⟨(Cursor.tokens_past hfirst).trans h.1, Cursor.exists_eof_past ht h.2⟩
  split {c} h := by
    rcases c.tokens_splitGe with hsame | ⟨p, rest, hwhole, -⟩
    · rwa [hsame]
    · have hmem : ⟨.mark .ge, p⟩ ∈ tokens := by
        rw [← h.1, hwhole]
        simp
      exact absurd rfl (hge _ hmem)
  loopType _ _ _ _ := trivial

/-- If nothing is left to read, the cursor stands before the end token; if that is the
    last token, all others have been read. -/
theorem eq_of_lexemes_eq_nil {c : Cursor} {tokens : List Token} {last : Token}
    (hwhole : c.tokens = tokens ++ [last]) (hnone : c.lexemes = [])
    (heof : ∃ t ∈ c.ahead, t.isEof = true) (htokens : ∀ t ∈ tokens, t.lexeme ≠ .eof) :
    c = ⟨tokens.reverse, [last]⟩ := by
  obtain ⟨before, ahead⟩ := c
  cases ahead with
  | nil => exact absurd heof (by simp)
  | cons t rest =>
    rw [Cursor.lexemes_cons] at hnone
    have hend : t.lexeme = .eof := by
      by_contra hne
      rw [if_neg hne] at hnone
      cases hnone
    have hsplit : before.reverse ++ t :: rest = tokens ++ [last] := hwhole
    rcases List.eq_nil_or_concat rest with rfl | ⟨init, u, rfl⟩
    · obtain ⟨hbefore, hlast⟩ := List.append_inj' hsplit rfl
      rw [← hbefore, hlast, List.reverse_reverse]
    · -- otherwise the end token would stand among the others
      rw [List.concat_eq_append, ← List.cons_append, ← List.append_assoc] at hsplit
      have hmem : t ∈ tokens := by
        rw [← (List.append_inj' hsplit rfl).1]
        simp
      exact absurd hend (htokens t hmem)

/-- An expression that fills a text up to the end token is read whole, and nothing but the
    end token is left. -/
theorem expression_fills {e : Expr} (he : e.isLevelled = true) {tokens : List Token} {last : Token}
    (htokens : tokens.map Token.lexeme = e.lexemes) (hlast : last.lexeme = .eof)
    (hlexemes : ∀ l ∈ e.lexemes, l ≠ .eof ∧ l ≠ .mark .ge) :
    ∃ e', e'.erase = e.erase ∧ ∀ env trace,
      expression ⟨.ofTokens (tokens ++ [last]), env, trace⟩
        = .ok e' ⟨⟨tokens.reverse, [last]⟩, env, trace⟩ := by
  have hmem : ∀ t ∈ tokens, t.lexeme ≠ .eof ∧ t.lexeme ≠ .mark .ge := by
    intro t ht
    exact hlexemes t.lexeme (htokens ▸ List.mem_map_of_mem ht)
  have hge : ∀ t ∈ tokens ++ [last], t.lexeme ≠ .mark .ge := by
    rw [List.forall_mem_append, List.forall_mem_singleton, hlast]
    exact ⟨fun t ht => (hmem t ht).2, by simp⟩
  let c : Cursor := .ofTokens (tokens ++ [last])
  have hc : c.lexemes = e.lexemes ++ [] := by
    show Token.lexemes (tokens ++ [last]) = _
    rw [Token.lexemes, List.map_append, htokens, List.takeWhile_append_of_pos]
    · simp [hlast]
    · simpa using fun l hl => (hlexemes l hl).1
  -- the expression is found, no token is changed, and there are steps enough
  have hfinds := expr_finds (c.weight + 1) e [] c he e.level_pos (fun _ h => by cases h) hc
  have hdraws := expr_draws (supplies_unchanged hge) (c.weight + 1) c
    ⟨rfl, last, List.mem_append_right _ (List.mem_singleton_self last),
      by simp [Token.isEof, hlast]⟩
  have hsteps : HasSteps (expr (c.weight + 1)) c :=
    hasSteps_of_sound (expr_sound _ c (Nat.lt_succ_of_le c.weighLexemes_lexemes_le))
  obtain ⟨e', c', hrun, ⟨⟨he', hnone⟩, -, hwhole, heof⟩, -⟩ := Ends.exists_ok
    (((hfinds.and hdraws).and hsteps).mono (fun _ _ h => h) fun _ _ h => h.2 h.1.1)
  have hc' : c' = ⟨tokens.reverse, [last]⟩ :=
    eq_of_lexemes_eq_nil hwhole hnone heof fun t ht => (hmem t ht).1
  refine ⟨e', he', fun env trace => ?_⟩
  show onCursor (expr (c.weight + 1)) ⟨c, env, trace⟩ = _
  rw [onCursor, hrun, hc']

/-- **The text of a value is source for that value.**  The text of a known value, whose
    integers have an opposite and whose doubles read back without their sign, is read
    into tokens; in any scopes a parser reads an expression from them that reaches up to
    the end token, and the constant of that expression is the value again, bit for bit. -/
theorem expression_value {v : Value} (hv : v.Writable) :
    ∃ tokens last e, tokenize v.text = .ok (tokens ++ [last]) ∧ last.lexeme = .eof
      ∧ (∀ env trace, expression ⟨.ofTokens (tokens ++ [last]), env, trace⟩
          = .ok e ⟨⟨tokens.reverse, [last]⟩, env, trace⟩)
      ∧ e.constant = v := by
  obtain ⟨tokens, htokens, hreads⟩ := hv.readAs .start [] .nil
  -- the text of a value has no end token in it, and nothing to split
  have hlexemes : ∀ l ∈ v.asExpr.lexemes, l ≠ .eof ∧ l ≠ .mark .ge := by
    intro l hl
    have hin := hv.inValue l hl
    constructor
    · rintro rfl
      cases hin
    · rintro rfl
      cases hin
  have hlast : Token.lexeme ⟨.eof, Pos.advance .start v.text⟩ = .eof := rfl
  obtain ⟨e, he, hrun⟩ := expression_fills hv.isLevelled_asExpr htokens hlast hlexemes
  refine ⟨tokens, _, e, ?_, rfl, hrun, ?_⟩
  · rw [tokenize, ← List.append_nil v.text, hreads, tokensFrom_nil]
    simp [Except.map]
  · rw [← e.constant_erase, he, Expr.constant_erase, hv.constant_asExpr]

/-- A list of a negative number, a list that holds minus zero and two and a half, an empty
    list, and strings with a comma, a bracket and what is escaped. -/
def mixedValue : Value :=
  .list [.scalar (.int (-3)),
    .list [.scalar (.float ⟨Binary64.signBit⟩), .scalar (.float twoAndAHalf)], .list [],
    .scalar (.bool true), .scalar (.str (ascii ", ]")), .scalar (.str [34, 92, 10, 0, 255])]

theorem writable_mixedValue : mixedValue.Writable := by
  have hzero : (Literal.float ⟨Binary64.signBit⟩).Writable := Binary64.readsBack_zero
  have hinner : (Value.list
      [.scalar (.float ⟨Binary64.signBit⟩), .scalar (.float twoAndAHalf)]).Writable := by
    refine .list ?_
    simp only [List.forall_mem_cons]
    exact ⟨.scalar hzero, .scalar readsBack_twoAndAHalf, List.forall_mem_nil _⟩
  refine .list ?_
  simp only [List.forall_mem_cons]
  refine ⟨.scalar ?_, hinner, .list (List.forall_mem_nil _), .scalar trivial, .scalar trivial,
    .scalar trivial, List.forall_mem_nil _⟩
  show -(2 ^ 63 - 1) ≤ (-3 : Int64).toInt
  decide

theorem expression_value_mixed :
    mixedValue.Writable
      ∧ ∃ tokens last e, tokenize mixedValue.text = .ok (tokens ++ [last]) ∧ last.lexeme = .eof
        ∧ (∀ env trace, expression ⟨.ofTokens (tokens ++ [last]), env, trace⟩
            = .ok e ⟨⟨tokens.reverse, [last]⟩, env, trace⟩)
        ∧ e.constant = mixedValue :=
  ⟨writable_mixedValue, expression_value writable_mixedValue⟩

/-- Every number stands in the text with its own sign. -/
example : (Value.list [.scalar (.int (-3)), .scalar (.int 4), .list []]).text
    = ascii "[-3, 4, []]" := by decide +kernel

end Parse
end Lumen
