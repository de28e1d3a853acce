/-
  Lumen.Proofs.Layout.Reading — reading without places.

  Two cursors differ in layout only if they stand at the same index of tokens that
  are the same but for their places.  A reader looks at what a token is, and uses
  its place for the tree it builds and the error it reports.  So from such cursors
  it reads trees that are the same but for their places, or fails with errors that
  say the same, and the cursors still differ in layout only.  This holds where a
  `>=` is split as well: the halves have places of their own, but they are `>` and
  `=` in any layout.

  A reader is given what it has read so far, places included.  So the two runs are
  of two readers, and what is compared of a result is a view of it: an expression
  with its places forgotten, or a name as it is.

  Main statements:
    * `Cursor.Relaid` — cursors that differ in layout only;
    * `ReadsAlike` — readers that go together, with `ReadsAlike.bind` for a sequence;
    * `type_alike` — types, the split of a `>=` included;
    * `signed_alike` … `expr_alike` — expressions, level by level.
-/
import Lumen.Proofs.Layout.Erasure
import Lumen.Proofs.Reading.ExprSound
import Lumen.Proofs.Reading.Moves

namespace Lumen

/-! ## §1. Cursors -/

/-- Two cursors stand at the same index of tokens that are the same but for their
    places. -/
structure Cursor.Relaid (c c' : Cursor) : Prop where
  position_eq : c.position = c'.position
  lexemes_eq : c.tokens.map Token.lexeme = c'.tokens.map Token.lexeme

namespace Cursor

/-- The tokens on each side of the cursor are the same but for their places. -/
theorem relaid_iff {c c' : Cursor} :
    c.Relaid c' ↔ c.before.map Token.lexeme = c'.before.map Token.lexeme
      ∧ c.ahead.map Token.lexeme = c'.ahead.map Token.lexeme := by
  constructor
  · rintro ⟨hposition, hlexemes⟩
    unfold tokens at hlexemes
    rw [List.map_append, List.map_append] at hlexemes
    -- as many tokens are behind both, so the lists fall apart at the same place
    have hlength : (c.before.reverse.map Token.lexeme).length
        = (c'.before.reverse.map Token.lexeme).length := by
      simpa [position] using hposition
    obtain ⟨hbefore, hahead⟩ := List.append_inj hlexemes hlength
    rw [List.map_reverse, List.map_reverse] at hbefore
    exact ⟨List.reverse_inj.mp hbefore, hahead⟩
  · rintro ⟨hbefore, hahead⟩
    refine ⟨?_, ?_⟩
    · simpa [position] using congrArg List.length hbefore
    · unfold tokens
      rw [List.map_append, List.map_append, List.map_reverse, List.map_reverse, hbefore, hahead]

theorem relaid_ofTokens {tokens tokens' : List Token}
    (h : tokens.map Token.lexeme = tokens'.map Token.lexeme) :
    (ofTokens tokens).Relaid (ofTokens tokens') := relaid_iff.mpr ⟨rfl, h⟩

/-- Tokens that are the same but for their places weigh the same. -/
theorem weigh_eq_weighLexemes (tokens : List Token) :
    weigh tokens = weighLexemes (tokens.map Token.lexeme) := by
  induction tokens with
  | nil => rfl
  | cons t rest ih => rw [weigh, List.map_cons, weighLexemes_cons, ih]

/-- Some lexemes with a `>=` in front in two. -/
def splitFirstGe : List Lexeme → List Lexeme
  | .mark .ge :: rest => .mark .gt :: .mark .equal :: rest
  | ls => ls

theorem splitFirstGe_of_ne {l : Lexeme} (h : l ≠ .mark .ge) (ls : List Lexeme) :
    splitFirstGe (l :: ls) = l :: ls := by
  unfold splitFirstGe
  split
  · next heq => exact absurd (List.cons.inj heq).1 h
  · rfl

/-- What a split leaves ahead depends on what the tokens are, not on their places. -/
theorem lexemes_ahead_splitGe (c : Cursor) :
    c.splitGe.ahead.map Token.lexeme = splitFirstGe (c.ahead.map Token.lexeme) := by
  obtain ⟨before, ahead⟩ := c
  unfold splitGe
  dsimp only
  split
  · rfl
  · next hne =>
    cases ahead with
    | nil => rfl
    | cons t rest =>
      have hlexeme : t.lexeme ≠ .mark .ge := by
        obtain ⟨l, p⟩ := t
        rintro rfl
        exact hne p rest rfl
      rw [List.map_cons, splitFirstGe_of_ne hlexeme]

namespace Relaid
variable {c c' : Cursor} (h : c.Relaid c')
include h

theorem weight_eq : c.weight = c'.weight := by
  unfold weight
  rw [weigh_eq_weighLexemes, weigh_eq_weighLexemes, (relaid_iff.mp h).2]

/-- Both cursors stand before the same token, or at the end. -/
theorem current?_eq : c.current?.map Token.erase = c'.current?.map Token.erase := by
  have hahead : c.ahead.map Token.erase = c'.ahead.map Token.erase := by
    have herase : Token.erase = (fun l => ⟨l, {}⟩) ∘ Token.lexeme := rfl
    rw [herase, ← List.map_map, (relaid_iff.mp h).2, List.map_map]
  unfold current?
  rw [← List.head?_map, hahead, List.head?_map]

theorem token?_eq : c.token?.map Token.erase = c'.token?.map Token.erase := by
  have hfilter : ∀ t? : Option Token, (t?.filter fun t => !t.isEof).map Token.erase
      = (t?.map Token.erase).filter fun t => !t.isEof := by
    intro t?
    rw [Option.filter_map]
    rfl
  unfold token?
  rw [hfilter, hfilter, h.current?_eq]

theorem lexeme?_eq : c.lexeme? = c'.lexeme? := by
  have hlexeme : Token.lexeme = Token.lexeme ∘ Token.erase := rfl
  unfold lexeme?
  rw [hlexeme, ← Option.map_map, h.token?_eq, Option.map_map]

theorem past {t t' : Token} (ht : t.erase = t'.erase) : (c.past t).Relaid (c'.past t') := by
  obtain ⟨hbefore, hahead⟩ := relaid_iff.mp h
  have hlexeme : t.lexeme = t'.lexeme := by
    show t.erase.lexeme = t'.erase.lexeme
    rw [ht]
  refine relaid_iff.mpr ⟨?_, ?_⟩
  · show t.lexeme :: c.before.map Token.lexeme = t'.lexeme :: c'.before.map Token.lexeme
    rw [hlexeme, hbefore]
  · show c.ahead.tail.map Token.lexeme = c'.ahead.tail.map Token.lexeme
    rw [List.map_tail, List.map_tail, hahead]

/-- A `>=` is split in both layouts or in none. -/
theorem splitGe : c.splitGe.Relaid c'.splitGe := by
  obtain ⟨hbefore, hahead⟩ := relaid_iff.mp h
  refine relaid_iff.mpr ⟨?_, ?_⟩
  · rw [before_splitGe, before_splitGe, hbefore]
  · rw [lexemes_ahead_splitGe, lexemes_ahead_splitGe, hahead]

end Relaid
end Cursor

/-! ## §2. Runs that go together -/

/-- Two failures say the same: errors that do, or the same failure. -/
inductive Failure.SaysAs : Failure → Failure → Prop
  | error {e e' : ParseError} (h : e.SaysAs e') : SaysAs (.error e) (.error e')
  | refl (f : Failure) : SaysAs f f

section
variable {σ α β γ δ : Type}

/-- Two runs have come to the same end but for the layout: to results of which `view`
    is the same, or to failures that say the same, in states related by `S`. -/
inductive EndsAlike (S : σ → σ → Prop) (view : α → γ) :
    EStateM.Result Failure σ α → EStateM.Result Failure σ α → Prop
  | ok {a b : α} {s t : σ} (hview : view a = view b) (hstate : S s t) :
    EndsAlike S view (.ok a s) (.ok b t)
  | error {f g : Failure} {s t : σ} (hsame : f.SaysAs g) (hstate : S s t) :
    EndsAlike S view (.error f s) (.error g t)

/-- Two readers go together from states related by `S`. -/
def ReadsAlike (S : σ → σ → Prop) (view : α → γ) (m m' : EStateM Failure σ α) : Prop :=
  ∀ s s' : σ, S s s' → EndsAlike S view (m s) (m' s')

variable {S : σ → σ → Prop} {view : α → γ} {view' : β → δ}

theorem alike_pure {a b : α} (h : view a = view b) : ReadsAlike S view (pure a) (pure b) :=
  fun _ _ hstate => .ok h hstate

theorem alike_throw {f g : Failure} (h : f.SaysAs g) : ReadsAlike S view (throw f) (throw g) :=
  fun _ _ hstate => .error h hstate

theorem ReadsAlike.bind {m m' : EStateM Failure σ α} {k k' : α → EStateM Failure σ β}
    (hm : ReadsAlike S view m m')
    (hk : ∀ a b, view a = view b → ReadsAlike S view' (k a) (k' b)) :
    ReadsAlike S view' (m >>= k) (m' >>= k') := by
  intro s s' hstate
  have hfirst := hm s s' hstate
  show EndsAlike S view' (EStateM.bind m k s) (EStateM.bind m' k' s')
  unfold EStateM.bind
  revert hfirst
  generalize m s = r, m' s' = r'
  intro hfirst
  cases hfirst with
  | ok hview hstate => exact hk _ _ hview _ _ hstate
  | error hsame hstate => exact .error hsame hstate

/-- What is read first may be seen as it is. -/
theorem ReadsAlike.bind_eq {m m' : EStateM Failure σ α} {k k' : α → EStateM Failure σ β}
    (hm : ReadsAlike S id m m') (hk : ∀ a, ReadsAlike S view' (k a) (k' a)) :
    ReadsAlike S view' (m >>= k) (m' >>= k') := by
  apply hm.bind
  intro a b hab
  obtain rfl : a = b := hab
  exact hk a

end

/-! ## §3. Readers of single tokens -/

namespace Parse
open CursorM

/-- Two readers of tokens go together from cursors that differ in layout only. -/
abbrev ScansAlike {α γ : Type} (view : α → γ) (m m' : CursorM α) : Prop :=
  ReadsAlike Cursor.Relaid view m m'

theorem unexpected_alike {α γ : Type} {view : α → γ} (expected : Expected) :
    ScansAlike view (unexpected expected) (unexpected expected) := by
  intro c c' h
  have hsame : (ParseError.unexpected expected c.current?).SaysAs
      (.unexpected expected c'.current?) :=
    ParseError.saysAs_of_erase_eq (congrArg (ParseError.unexpected expected) h.current?_eq)
  exact .error (.error hsame) h

theorem token?_alike : ScansAlike (Option.map Token.erase) token? token? :=
  fun _ _ h => .ok h.token?_eq h

theorem lexeme?_alike : ScansAlike id lexeme? lexeme? := fun _ _ h => .ok h.lexeme?_eq h

theorem isAt_alike (l : Lexeme) : ScansAlike id (isAt l) (isAt l) :=
  fun _ _ h => .ok (congrArg (· == some l) h.lexeme?_eq) h

theorem advance_alike : ScansAlike Token.erase advance advance := by
  intro c c' h
  have htoken := h.token?_eq
  cases ht : c.token? with
  | none =>
    rw [ht] at htoken
    rw [advance_of_none ht, advance_of_none (Option.map_eq_none_iff.mp htoken.symm)]
    exact .error (.refl _) h
  | some t =>
    rw [ht] at htoken
    obtain ⟨t', ht', herase⟩ := Option.map_eq_some_iff.mp htoken.symm
    rw [advance_of_some ht, advance_of_some ht']
    exact .ok herase.symm (h.past herase.symm)

theorem accept_alike (l : Lexeme) : ScansAlike id (accept l) (accept l) := by
  unfold accept
  apply (isAt_alike l).bind_eq
  intro isThere
  split
  · exact advance_alike.bind fun _ _ _ => alike_pure rfl
  · exact alike_pure rfl

/-- A token that has to be there. -/
theorem demand_alike (l : Lexeme) (expected : Expected) :
    ScansAlike id (do if ← isAt l then let _ ← advance else unexpected expected)
      (do if ← isAt l then let _ ← advance else unexpected expected) := by
  apply (isAt_alike l).bind_eq
  intro isThere
  split
  · exact advance_alike.bind fun _ _ _ => alike_pure rfl
  · exact unexpected_alike expected

theorem mark_alike (m : Mark) : ScansAlike id (mark m) (mark m) := demand_alike (.mark m) (.mark m)

theorem word_alike (w : Word) : ScansAlike id (word w) (word w) := demand_alike (.word w) (.word w)

theorem identifier_alike (expected : Expected) :
    ScansAlike id (identifier expected) (identifier expected) := by
  unfold identifier
  apply lexeme?_alike.bind_eq
  intro l?
  split
  · exact advance_alike.bind fun _ _ _ => alike_pure rfl
  · exact unexpected_alike expected

/-! ## §4. Types -/

theorem splitGe_alike :
    ScansAlike id (modify Cursor.splitGe : CursorM Unit) (modify Cursor.splitGe) :=
  fun _ _ h => .ok rfl h.splitGe

theorem type_alike (steps : Nat) : ScansAlike id (type steps) (type steps) := by
  induction steps with
  | zero => exact alike_throw (.refl _)
  | succ steps ih =>
    unfold type
    apply lexeme?_alike.bind_eq
    intro l?
    split
    · apply advance_alike.bind
      intro _ _ _
      apply (mark_alike .lt).bind_eq
      intro _
      apply ih.bind_eq
      intro elem
      -- the two halves of a `>=` are placed by its layout, but read by what they are
      apply splitGe_alike.bind_eq
      intro _
      exact (mark_alike .gt).bind_eq fun _ => alike_pure rfl
    · split
      · exact advance_alike.bind fun _ _ _ => alike_pure rfl
      · exact unexpected_alike .type
    · exact unexpected_alike .type

/-! ## §5. Expressions -/

/-- The operator is known by its lexeme, and the tree it builds by its operands. -/
theorem erase_join {join? : Lexeme → Option Join} {k : Nat} (hjoin : JoinsAt k join?) {l : Lexeme}
    {join : Join} (h : join? l = some join) {lhs lhs' rhs rhs' : Expr}
    (hl : lhs.erase = lhs'.erase) (hr : rhs.erase = rhs'.erase) :
    (join lhs rhs).erase = (join lhs' rhs').erase := by
  obtain ⟨op, -, -, rfl⟩ := (hjoin l join).mp h
  dsimp only
  rw [Expr.erase_node, Expr.erase_node, hl, hr]

/-- A join that `select?` has found builds trees that differ in layout only. -/
theorem select?_join_alike {join? : Lexeme → Option Join} {k : Nat} (hjoin : JoinsAt k join?)
    {α γ : Type} {view : α → γ} {go go' : Option Join → CursorM α}
    (hnone : ScansAlike view (go none) (go' none))
    (hsome : ∀ join : Join, (∀ {lhs lhs' rhs rhs' : Expr}, lhs.erase = lhs'.erase →
      rhs.erase = rhs'.erase → (join lhs rhs).erase = (join lhs' rhs').erase) →
      ScansAlike view (go (some join)) (go' (some join))) :
    ScansAlike view (select? join? >>= go) (select? join? >>= go') := by
  unfold select?
  rw [bind_assoc, bind_assoc]
  apply lexeme?_alike.bind_eq
  intro l?
  cases hfound : l?.bind join? with
  | none => exact hnone
  | some join =>
    -- both runs stand before this lexeme, so they have found the same join
    obtain ⟨l, -, hl⟩ := Option.bind_eq_some_iff.mp hfound
    dsimp only
    rw [bind_assoc, bind_assoc]
    apply advance_alike.bind
    intro _ _ _
    exact hsome join fun hlhs hrhs => erase_join hjoin hl hlhs hrhs

section
variable {operand operand' : CursorM Expr} {join? : Lexeme → Option Join} {k : Nat}
  (hjoin : JoinsAt k join?) (hoperand : ScansAlike Expr.erase operand operand')
include hjoin hoperand

theorem chain_alike (steps : Nat) {lhs lhs' : Expr} (hlhs : lhs.erase = lhs'.erase) :
    ScansAlike Expr.erase (chain join? operand steps lhs) (chain join? operand' steps lhs') := by
  induction steps generalizing lhs lhs' with
  | zero => exact alike_throw (.refl _)
  | succ steps ih =>
    unfold chain
    apply select?_join_alike hjoin
    · exact alike_pure hlhs
    · intro join herase
      apply hoperand.bind
      intro rhs rhs' hrhs
      exact ih (herase hlhs hrhs)

theorem leftAssoc_alike (steps : Nat) :
    ScansAlike Expr.erase (leftAssoc join? operand steps) (leftAssoc join? operand' steps) := by
  unfold leftAssoc
  apply hoperand.bind
  intro lhs lhs' hlhs
  exact chain_alike hjoin hoperand steps hlhs

theorem nonAssoc_alike :
    ScansAlike Expr.erase (nonAssoc join? operand) (nonAssoc join? operand') := by
  unfold nonAssoc
  apply hoperand.bind
  intro lhs lhs' hlhs
  apply select?_join_alike hjoin
  · exact alike_pure hlhs
  · intro join herase
    apply hoperand.bind
    intro rhs rhs' hrhs
    exact alike_pure (herase hlhs hrhs)

omit hjoin in
theorem signed_alike (steps : Nat) :
    ScansAlike Expr.erase (signed operand steps) (signed operand' steps) := by
  induction steps with
  | zero => exact alike_throw (.refl _)
  | succ steps ih =>
    unfold signed
    apply (isAt_alike _).bind_eq
    intro isSign
    split
    · apply advance_alike.bind
      intro sign sign' _
      apply ih.bind
      intro e e' he
      refine alike_pure ?_
      rw [Expr.erase, Expr.erase, he]
    · exact hoperand

end

section
variable {expr expr' : CursorM Expr} (hexpr : ScansAlike Expr.erase expr expr')
include hexpr

theorem listed_alike (close : Mark) (steps : Nat) :
    ScansAlike Expr.eraseAll (listed close expr steps) (listed close expr' steps) := by
  induction steps with
  | zero => exact alike_throw (.refl _)
  | succ steps ih =>
    unfold listed
    apply hexpr.bind
    intro e e' he
    apply (accept_alike _).bind_eq
    intro isComma
    split
    · apply (isAt_alike _).bind_eq
      intro isClose
      split
      · exact unexpected_alike .expression
      · apply ih.bind
        intro es es' hes
        refine alike_pure ?_
        rw [Expr.eraseAll, Expr.eraseAll, he, hes]
    · apply (mark_alike close).bind_eq
      intro _
      refine alike_pure ?_
      show [e.erase] = [e'.erase]
      rw [he]

theorem arguments_alike (close : Mark) (steps : Nat) :
    ScansAlike Expr.eraseAll (arguments close expr steps) (arguments close expr' steps) := by
  unfold arguments
  apply (accept_alike _).bind_eq
  intro isClose
  split
  · exact alike_pure rfl
  · exact listed_alike hexpr close steps

theorem indices_alike (steps : Nat) :
    ScansAlike Expr.eraseAll (indices expr steps) (indices expr' steps) := by
  induction steps with
  | zero => exact alike_throw (.refl _)
  | succ steps ih =>
    unfold indices
    apply (accept_alike _).bind_eq
    intro isOpen
    split
    · apply hexpr.bind
      intro index index' hindex
      apply (mark_alike _).bind_eq
      intro _
      apply ih.bind
      intro rest rest' hrest
      refine alike_pure ?_
      rw [Expr.eraseAll, Expr.eraseAll, hindex, hrest]
    · exact alike_pure rfl

theorem named_alike (steps : Nat) (pos pos' : Pos) (name : Bytes) :
    ScansAlike Expr.erase (named expr steps pos name) (named expr' steps pos' name) := by
  unfold named
  apply (accept_alike _).bind_eq
  intro isCall
  split
  · apply (arguments_alike hexpr .rparen steps).bind
    intro args args' hargs
    refine alike_pure ?_
    rw [Expr.erase, Expr.erase, hargs]
  · apply (indices_alike hexpr steps).bind
    intro path path' hpath
    apply (accept_alike _).bind_eq
    intro isMethod
    split
    · apply (identifier_alike _).bind_eq
      intro method
      apply (mark_alike _).bind_eq
      intro _
      apply (arguments_alike hexpr .rparen steps).bind
      intro args args' hargs
      refine alike_pure ?_
      rw [Expr.erase, Expr.erase, hpath, hargs]
    · refine alike_pure ?_
      rw [Expr.erase, Expr.erase, hpath]

theorem primary_alike (steps : Nat) :
    ScansAlike Expr.erase (primary expr steps) (primary expr' steps) := by
  unfold primary
  apply lexeme?_alike.bind_eq
  intro l?
  split
  · apply advance_alike.bind
    intro t t' _
    refine alike_pure ?_
    rw [Expr.erase, Expr.erase]
  · apply advance_alike.bind
    intro t t' _
    exact named_alike hexpr steps t.pos t'.pos _
  · apply advance_alike.bind
    intro t t' _
    apply hexpr.bind
    intro inner inner' hinner
    apply (mark_alike _).bind_eq
    intro _
    refine alike_pure ?_
    rw [Expr.erase, Expr.erase, hinner]
  · apply advance_alike.bind
    intro t t' _
    apply (arguments_alike hexpr .rbracket steps).bind
    intro elements elements' helements
    refine alike_pure ?_
    rw [Expr.erase, Expr.erase, helements]
  · exact unexpected_alike .expression

/-- All levels, from the sign outwards. -/
theorem disjunction_alike (steps : Nat) :
    ScansAlike Expr.erase (disjunction expr steps) (disjunction expr' steps) := by
  have hsigned := signed_alike (primary_alike hexpr steps) steps
  have hmultiplicative : ScansAlike Expr.erase (multiplicative expr steps)
      (multiplicative expr' steps) := leftAssoc_alike multiplicative_joinsAt hsigned steps
  have hadditive : ScansAlike Expr.erase (additive expr steps) (additive expr' steps) :=
    leftAssoc_alike additive_joinsAt hmultiplicative steps
  have hcomparison : ScansAlike Expr.erase (comparison expr steps) (comparison expr' steps) :=
    nonAssoc_alike comparison_joinsAt hadditive
  have hconjunction : ScansAlike Expr.erase (conjunction expr steps) (conjunction expr' steps) :=
    leftAssoc_alike and_joinsAt hcomparison steps
  exact leftAssoc_alike or_joinsAt hconjunction steps

end

/-- Expressions, by induction on the steps: what stands in brackets is read with one
    step less. -/
theorem expr_alike (steps : Nat) : ScansAlike Expr.erase (expr steps) (expr steps) := by
  induction steps with
  | zero => exact alike_throw (.refl _)
  | succ steps ih =>
    rw [expr_succ]
    exact disjunction_alike ih (steps + 1)

end Parse
end Lumen
