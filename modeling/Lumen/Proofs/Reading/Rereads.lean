/-
  Lumen.Proofs.Reading.Rereads — what was read is read again.

  A reader takes some tokens off the list and gives a result.  Wherever the same
  tokens stand it gives the same result again, places included, as long as what
  follows begins alike.  More is true of expressions: they end just as well
  before the `end` of a block, or where the text breaks off.

  So a part of a text may be read by itself, and what follows it be replaced by
  the words that close its blocks.  The second reader has a count of steps of
  its own; that it may run out of them is left open here.

  Main statements:
    * `Yields` — a run that gives a certain result and leaves certain tokens;
    * `Rereads` — reading again, with what may follow;
    * `Rereads.bind` / `rereads_peek` — sequences, and looking ahead;
    * `expr_rereads` — expressions;
    * `headType_rereads` / `params_rereads` — types, in front of what follows them.
-/
import Lumen.Parse.Stmt
import Lumen.Proofs.Reading.Ends
import Lumen.Proofs.Checking.Static

namespace Lumen

namespace Parse
open CursorM

/-! ## §1. What may follow -/

/-- Whether a block may end before some tokens: nothing is left, or `end`. -/
def Closes (rest : List Token) : Prop := ∀ t ∈ rest.head?, t.lexeme = .word .end_

/-- Whether `rest` may follow where `v` does: both begin alike, or `rest` closes a
    block. -/
def Alike (v rest : List Token) : Prop := rest.head? = v.head? ∨ Closes rest

theorem head?_append_of_ne_nil {u : List Token} (hu : u ≠ []) (v rest : List Token) :
    (u ++ rest).head? = (u ++ v).head? := by
  cases u with
  | nil => exact absurd rfl hu
  | cons t u => rfl

/-- What follows some tokens, seen from before them. -/
theorem Alike.append {v rest : List Token} (h : Alike v rest) (u : List Token) :
    Alike (u ++ v) (u ++ rest) := by
  cases u with
  | nil => exact h
  | cons t u => exact .inl rfl

theorem token?_congr {c d : Cursor} (h : d.ahead.head? = c.ahead.head?) :
    d.token? = c.token? := by
  unfold Cursor.token? Cursor.current?
  rw [h]

/-- The same tokens begin with the same token. -/
theorem token?_of_append {c d : Cursor} {u v w : List Token} (hu : 0 < u.length)
    (hc : c.ahead = u ++ v) (hd : d.ahead = u ++ w) : d.token? = c.token? := by
  apply token?_congr
  rw [hc, hd]
  exact head?_append_of_ne_nil (List.ne_nil_of_length_pos hu) _ _

/-- Before the end of a block there is no token but `end`. -/
theorem lexeme_of_closes {d : Cursor} (h : Closes d.ahead) :
    ∀ t ∈ d.token?, t.lexeme = .word .end_ := by
  intro t ht
  exact h t (Option.mem_filter_iff.mp ht).1

/-- The token at the cursor is the first that is left. -/
theorem ahead_of_token? {c : Cursor} {t : Token} (h : c.token? = some t) :
    c.ahead = t :: (c.past t).ahead := by
  obtain ⟨before, ahead⟩ := c
  cases ahead with
  | nil => cases h
  | cons first rest =>
    obtain rfl : first = t := Option.some.inj (Option.filter_eq_some_iff.mp h).1
    rfl

theorem token?_of_ahead {c : Cursor} {t : Token} {rest : List Token} (h : c.ahead = t :: rest)
    (ht : t.isEof = false) : c.token? = some t := by
  rw [Cursor.token?, Cursor.current?, h]
  simp [ht]

/-! ## §2. Runs that give a certain result -/

section
variable {σ α β : Type} [HasCursor σ]

/-- A run gives `a` and leaves `rest`, unless its steps run out. -/
def Yields (m : EStateM Failure σ α) (s : σ) (a : α) (rest : List Token) : Prop :=
  Ends m s (fun a' t => a' = a ∧ (HasCursor.cursor t).ahead = rest) fun f _ => f = .outOfSteps

theorem yields_outOfSteps (s : σ) (a : α) (rest : List Token) :
    Yields (throw .outOfSteps : EStateM Failure σ α) s a rest := rfl

theorem Yields.bind {m : EStateM Failure σ α} {k : α → EStateM Failure σ β} {s : σ} {a : α}
    {b : β} {mid rest : List Token} (h : Yields m s a mid)
    (hk : ∀ t, (HasCursor.cursor t).ahead = mid → Yields (k a) t b rest) :
    Yields (m >>= k) s b rest := by
  apply Ends.bind h
  rintro a' t ⟨rfl, ht⟩
  exact hk t ht

end

/-! ## §3. Reading again -/

section
variable {σ α β : Type} [HasCursor σ]

/-- At least `k` tokens have been read from `c` to `c'`, and wherever the same tokens
    stand `m'` gives `a`, if what follows is alike. -/
def Reread (k : Nat) (m' : EStateM Failure σ α) (c : Cursor) (a : α) (c' : Cursor) : Prop :=
  ∃ u, k ≤ u.length ∧ c.ahead = u ++ c'.ahead ∧
    ∀ (d : σ) (rest : List Token), (HasCursor.cursor d).ahead = u ++ rest →
      Alike c'.ahead rest → Yields m' d a rest

theorem Reread.weaken {j k : Nat} {m' : EStateM Failure σ α} {c c' : Cursor} {a : α}
    (h : Reread j m' c a c') (hle : k ≤ j) : Reread k m' c a c' := by
  obtain ⟨u, hlen, hrest⟩ := h
  exact ⟨u, Nat.le_trans hle hlen, hrest⟩

theorem reread_pure (c : Cursor) (a : α) : Reread 0 (pure a : EStateM Failure σ α) c a c :=
  ⟨[], Nat.zero_le _, rfl, fun _ _ hd _ => ⟨rfl, hd⟩⟩

/-- Without steps nothing is given, so nothing is asked. -/
theorem Reread.outOfSteps {k : Nat} {m' : EStateM Failure σ α} {c c' : Cursor} {a : α}
    (h : Reread k m' c a c') : Reread k (throw .outOfSteps : EStateM Failure σ α) c a c' := by
  obtain ⟨u, hlen, hahead, -⟩ := h
  exact ⟨u, hlen, hahead, fun d rest _ _ => yields_outOfSteps d a rest⟩

/-- One reading after another. -/
theorem Reread.bind {j k : Nat} {m' : EStateM Failure σ α} {f' : α → EStateM Failure σ β}
    {c c₁ c₂ : Cursor} {a : α} {b : β} (h : Reread j m' c a c₁)
    (h' : Reread k (f' a) c₁ b c₂) : Reread (j + k) (m' >>= f') c b c₂ := by
  obtain ⟨u, hlen, hahead, hyields⟩ := h
  obtain ⟨v, hlen', hahead', hyields'⟩ := h'
  refine ⟨u ++ v, ?_, ?_, ?_⟩
  · rw [List.length_append]
    omega
  · rw [hahead, hahead', List.append_assoc]
  · intro d rest hd halike
    rw [List.append_assoc] at hd
    -- after the first part come in both texts the tokens of the second
    have hmid : Alike c₁.ahead (v ++ rest) := hahead' ▸ halike.append v
    apply (hyields d (v ++ rest) hd hmid).bind
    intro d₁ hd₁
    exact hyields' d₁ rest hd₁ halike

end

section
variable {α β : Type}

/-- Whatever `m` reads is read again by `m'`.  It does not fail for a static error. -/
def Rereads (k : Nat) (m m' : CursorM α) : Prop :=
  ∀ c, Ends m c (Reread k m' c) fun f _ => f.isStatic = false

theorem rereads_pure (a : α) : Rereads 0 (pure a) (pure a) := fun c => reread_pure c a

theorem rereads_throw {f : Failure} (hf : f.isStatic = false) (k : Nat) (m' : CursorM α) :
    Rereads k (throw f) m' := fun _ => hf

theorem rereads_unexpected (expected : Expected) (k : Nat) (m' : CursorM α) :
    Rereads k (unexpected expected) m' := fun _ => rfl

/-- It may be forgotten that something was read. -/
theorem Rereads.forget {m m' : CursorM α} (h : Rereads 1 m m') : Rereads 0 m m' :=
  fun c => (h c).weaken fun _ _ hread => hread.weaken (Nat.zero_le 1)

theorem Rereads.outOfSteps {k : Nat} {m m' : CursorM α} (h : Rereads k m m') :
    Rereads k m (throw .outOfSteps) := fun c => (h c).weaken fun _ _ hread => hread.outOfSteps

/-- The steps of the second reader are counted down. -/
theorem Rereads.ofSteps {k : Nat} {m : CursorM α} (read : Nat → CursorM α)
    (hzero : read 0 = throw .outOfSteps) (h : ∀ n, Rereads k m (read (n + 1))) (n : Nat) :
    Rereads k m (read n) := by
  cases n with
  | zero => exact hzero ▸ (h 0).outOfSteps
  | succ n => exact h n

/-- At most one token, which is all that a sequence is known to read. -/
class AtMostOne (k : Nat) : Prop where
  le_one : k ≤ 1

instance : AtMostOne 0 := ⟨Nat.zero_le 1⟩

instance : AtMostOne 1 := ⟨Nat.le_refl 1⟩

/-- A sequence that starts with something that is read. -/
theorem Rereads.andThen {k : Nat} [AtMostOne k] {m m' : CursorM α} {f f' : α → CursorM β}
    (hm : Rereads 1 m m') (hf : ∀ a, Rereads 0 (f a) (f' a)) :
    Rereads k (m >>= f) (m' >>= f') := by
  intro c
  apply (hm c).bind
  intro a c₁ hread
  exact (hf a c₁).weaken fun b c₂ hread' => (hread.bind hread').weaken AtMostOne.le_one

/-- A sequence that starts with something that need not be there. -/
theorem Rereads.bind {k : Nat} {m m' : CursorM α} {f f' : α → CursorM β}
    (hm : Rereads 0 m m') (hf : ∀ a, Rereads k (f a) (f' a)) :
    Rereads k (m >>= f) (m' >>= f') := by
  intro c
  apply (hm c).bind
  intro a c₁ hread
  exact (hf a c₁).weaken fun b c₂ hread' => (hread.bind hread').weaken (Nat.le_add_left k 0)

/-! ## §4. Looking ahead

A reader that looks at the next token finds the same one again if it reads on; if
not, it has to come to the same decision before `end`. -/

end

/-- A decision on the next token is the same where no token is left, and before
    `end`. -/
def Settled {γ : Type} (look : Option Token → γ) (stop : γ) : Prop :=
  ∀ t? : Option Token, (∀ t ∈ t?, t.lexeme = .word .end_) → look t? = stop

section
variable {σ α γ : Type} [HasCursor σ]

/-- A reader looks at the next token and takes nothing. -/
def Looks (m : EStateM Failure σ γ) (look : Option Token → γ) : Prop :=
  ∀ s, m s = .ok (look (HasCursor.cursor s).token?) s

variable {m : EStateM Failure σ γ} {look : Option Token → γ} (hm : Looks m look)
  {f' : γ → EStateM Failure σ α} {c c' : Cursor}
include hm

theorem looks_bind (s : σ) : (m >>= f') s = f' (look (HasCursor.cursor s).token?) s :=
  bind_of_ok (hm s)

/-- To look ahead is to go on from what was seen. -/
theorem ends_looks {s : σ} {Q : α → σ → Prop} {E : Failure → σ → Prop} :
    Ends (m >>= f') s Q E ↔ Ends (f' (look (HasCursor.cursor s).token?)) s Q E := by
  rw [ends_bind, ends_ok (hm s)]

/-- The token that is seen is read, so it is seen again. -/
theorem yields_peek {d : σ} {a : α} {u v w rest : List Token} (hu : 0 < u.length)
    (hc : c.ahead = u ++ v) (hd : (HasCursor.cursor d).ahead = u ++ w)
    (h : Yields (f' (look c.token?)) d a rest) : Yields (m >>= f') d a rest := by
  unfold Yields
  rw [ends_looks hm, token?_of_append hu hc hd]
  exact h

/-- Nothing has to be read, for the decision is the same again. -/
theorem yields_stop {d : σ} {a : α} {rest : List Token} {stop : γ} (hstop : Settled look stop)
    (hlook : look c.token? = stop) (h : Alike c.ahead (HasCursor.cursor d).ahead)
    (hyields : Yields (f' stop) d a rest) : Yields (m >>= f') d a rest := by
  have hsame : look (HasCursor.cursor d).token? = stop := by
    rcases h with hhead | hcloses
    · rw [token?_congr hhead]
      exact hlook
    · exact hstop _ (lexeme_of_closes hcloses)
  unfold Yields
  rw [ends_looks hm, hsame]
  exact hyields

/-- Something was read after looking. -/
theorem Reread.peek {k : Nat} {a : α} (h : Reread (k + 1) (f' (look c.token?)) c a c') :
    Reread (k + 1) (m >>= f') c a c' := by
  obtain ⟨u, hlen, hahead, hyields⟩ := h
  refine ⟨u, hlen, hahead, ?_⟩
  intro d rest hd halike
  exact yields_peek hm (by omega) hahead hd (hyields d rest hd halike)

/-- Perhaps nothing was read after looking. -/
theorem Reread.stop {k : Nat} {a : α} {stop : γ} (hstop : Settled look stop)
    (hlook : look c.token? = stop) (h : Reread k (f' stop) c a c') :
    Reread k (m >>= f') c a c' := by
  obtain ⟨u, hlen, hahead, hyields⟩ := h
  refine ⟨u, hlen, hahead, ?_⟩
  intro d rest hd halike
  have hbefore : Alike c.ahead (HasCursor.cursor d).ahead := by
    rw [hahead, hd]
    exact halike.append u
  exact yields_stop hm hstop hlook hbefore (hyields d rest hd halike)

end

theorem token?_looks : Looks token? id := fun _ => rfl

theorem lexeme?_looks : Looks lexeme? fun t? => t?.map Token.lexeme := fun _ => rfl

theorem isAt_looks (l : Lexeme) : Looks (isAt l) fun t? => t?.map Token.lexeme == some l :=
  fun _ => rfl

/-- A block ends where nothing is left, and before `end` and `else`. -/
def endsBlock (t? : Option Token) : Bool :=
  t?.all fun t => t.lexeme == .word .end_ || t.lexeme == .word .else_

theorem blockEnds_looks : Looks blockEnds endsBlock := by
  intro c
  have hends : Ends blockEnds c (fun a c' => a = endsBlock c.token? ∧ c' = c)
      fun _ _ => False := by
    unfold blockEnds endsBlock
    rw [ends_bind, ends_lexeme?, ← Cursor.map_token?]
    cases c.token? with
    | none => exact ⟨rfl, rfl⟩
    | some t => exact ⟨rfl, rfl⟩
  obtain ⟨a, c', hrun, rfl, rfl⟩ := hends.exists_ok
  exact hrun

theorem blockPos_looks : Looks blockPos fun t? => (t?.map Token.pos).getD .start := fun _ => rfl

/-- Whether a given token is there, which is not `end`. -/
theorem isAt_settled {l : Lexeme} (hl : l ≠ .word .end_) :
    Settled (fun t? => t?.map Token.lexeme == some l) false := by
  intro t? ht
  cases t? with
  | none => rfl
  | some t =>
    have hlexeme := ht t rfl
    simpa [hlexeme] using Ne.symm hl

section
variable {α γ : Type} {m : CursorM γ} {look : Option Token → γ} (hm : Looks m look)
  {f f' : γ → CursorM α}
include hm

theorem rereads_peek (h : ∀ x, Rereads 1 (f x) (f' x)) : Rereads 1 (m >>= f) (m >>= f') := by
  intro c
  rw [ends_looks hm]
  exact (h _ c).weaken fun a c' hread => hread.peek hm

/-- Nothing need be read after looking, if what decides is the same before `end`. -/
theorem rereads_optional {stop : γ} (hstop : Settled look stop)
    (h₀ : Rereads 0 (f stop) (f' stop)) (h₁ : ∀ x, x ≠ stop → Rereads 1 (f x) (f' x)) :
    Rereads 0 (m >>= f) (m >>= f') := by
  intro c
  rw [ends_looks hm]
  by_cases hlook : look c.token? = stop
  · show Ends (f (look c.token?)) c _ _
    rw [hlook]
    exact (h₀ c).weaken fun a c' hread => hread.stop hm hstop hlook
  · exact (h₁ _ hlook c).weaken fun a c' hread => (hread.peek hm).weaken (Nat.zero_le 1)

end

/-! ## §5. Readers of single tokens -/

section
variable {α : Type}

theorem advance_yields {d : Cursor} {t : Token} {rest : List Token} (ht : d.token? = some t)
    (hd : d.ahead = t :: rest) : Yields advance d t rest := by
  unfold Yields advance
  rw [ends_bind, ends_get, ht]
  refine ⟨rfl, ?_⟩
  have hcons := ahead_of_token? ht
  rw [hd] at hcons
  exact (List.cons.inj hcons).2.symm

theorem advance_rereads : Rereads 1 advance advance := by
  intro c
  unfold advance
  rw [ends_bind, ends_get]
  split
  · next t ht =>
    refine ⟨[t], Nat.le_refl 1, ahead_of_token? ht, ?_⟩
    intro d rest (hd : d.ahead = t :: rest) _
    have hsame : d.token? = some t := by
      rw [← ht]
      apply token?_congr
      rw [hd, ahead_of_token? ht]
      rfl
    exact advance_yields hsame hd
  · exact rfl

theorem mark_rereads (m : Mark) : Rereads 1 (mark m) (mark m) := by
  unfold mark
  apply rereads_peek (isAt_looks _)
  intro found
  split
  · exact advance_rereads.andThen fun _ => rereads_pure ()
  · exact rereads_unexpected _ _ _

theorem word_rereads (w : Word) : Rereads 1 (word w) (word w) := by
  unfold word
  apply rereads_peek (isAt_looks _)
  intro found
  split
  · exact advance_rereads.andThen fun _ => rereads_pure ()
  · exact rereads_unexpected _ _ _

theorem identifier_rereads (expected : Expected) :
    Rereads 1 (identifier expected) (identifier expected) := by
  unfold identifier
  apply rereads_peek lexeme?_looks
  intro l
  split
  · exact advance_rereads.andThen fun _ => rereads_pure _
  · exact rereads_unexpected _ _ _

theorem accept_rereads {l : Lexeme} (hl : l ≠ .word .end_) : Rereads 0 (accept l) (accept l) := by
  unfold accept
  refine rereads_optional (isAt_looks l) (isAt_settled hl) (rereads_pure false) ?_
  intro found hfound
  cases found with
  | false => exact absurd rfl hfound
  | true => exact advance_rereads.andThen fun _ => rereads_pure true

/-- Reads the token that was found to mean something, if one was. -/
def readFor : Option α → CursorM (Option α)
  | some a => do
    let _ ← advance
    return some a
  | none => return none

/-- A token that means something is read. -/
theorem select?_rereads {meaning : Lexeme → Option α} (hend : meaning (.word .end_) = none) :
    Rereads 0 (select? meaning) (select? meaning) := by
  have hselect : select? meaning
      = (do return (← lexeme?).bind meaning : CursorM (Option α)) >>= readFor := rfl
  have hlook : Looks (do return (← lexeme?).bind meaning : CursorM (Option α))
      fun t? => (t?.map Token.lexeme).bind meaning := fun _ => rfl
  have hstop : Settled (fun t? => (t?.map Token.lexeme).bind meaning) none := by
    intro t? ht
    cases t? with
    | none => rfl
    | some t => simpa [ht t rfl] using hend
  rw [hselect]
  refine rereads_optional hlook hstop (rereads_pure none) ?_
  intro a? ha
  cases a? with
  | none => exact absurd rfl ha
  | some a => exact advance_rereads.andThen fun _ => rereads_pure (some a)

/-- A closing mark, or something else in its place. -/
theorem rereads_unless {l : Lexeme} {f f' : Bool → CursorM α} (h : Rereads 0 (f true) (f' true))
    (h' : Rereads 1 (f false) (f' false)) : Rereads 1 (accept l >>= f) (accept l >>= f') := by
  unfold accept
  rw [bind_assoc, bind_assoc]
  apply rereads_peek (isAt_looks l)
  intro found
  cases found with
  | true =>
    simp only [reduceIte, bind_assoc, pure_bind]
    exact advance_rereads.andThen fun _ => h
  | false => exact h'

end

/-! ## §6. Expressions

The readers on both sides have steps of their own. -/

section
variable {operand operand' : CursorM Expr} (hop : Rereads 1 operand operand')
  {join? : Lexeme → Option Join}
include hop

theorem chain_rereads (hend : join? (.word .end_) = none) (n n' : Nat) (lhs : Expr) :
    Rereads 0 (chain join? operand n lhs) (chain join? operand' n' lhs) := by
  induction n generalizing n' lhs with
  | zero => exact rereads_throw rfl _ _
  | succ n ih =>
    apply Rereads.ofSteps (fun n => chain join? operand' n lhs) rfl
    intro n'
    unfold chain
    -- before `end` there is no operator, and the chain is over as well
    apply (select?_rereads hend).bind
    intro j?
    split
    · exact rereads_pure lhs
    · next join => exact hop.andThen fun rhs => ih n' (join lhs rhs)

theorem leftAssoc_rereads (hend : join? (.word .end_) = none) (n n' : Nat) :
    Rereads 1 (leftAssoc join? operand n) (leftAssoc join? operand' n') := by
  unfold leftAssoc
  exact hop.andThen fun lhs => chain_rereads hop hend n n' lhs

theorem nonAssoc_rereads (hend : join? (.word .end_) = none) :
    Rereads 1 (nonAssoc join? operand) (nonAssoc join? operand') := by
  unfold nonAssoc
  apply hop.andThen
  intro lhs
  apply (select?_rereads hend).bind
  intro j?
  split
  · exact rereads_pure lhs
  · next join => exact hop.andThen fun rhs => rereads_pure (join lhs rhs)

theorem signed_rereads (n n' : Nat) : Rereads 1 (signed operand n) (signed operand' n') := by
  induction n generalizing n' with
  | zero => exact rereads_throw rfl _ _
  | succ n ih =>
    apply Rereads.ofSteps (signed operand') rfl
    intro n'
    unfold signed
    apply rereads_peek (isAt_looks _)
    intro minus
    split
    · exact advance_rereads.andThen fun sign =>
        (ih n').andThen fun e => rereads_pure (Expr.neg sign.pos e)
    · exact hop

end

section
variable {expr expr' : CursorM Expr} (hexpr : Rereads 1 expr expr')
include hexpr

theorem listed_rereads (close : Mark) (n n' : Nat) :
    Rereads 1 (listed close expr n) (listed close expr' n') := by
  induction n generalizing n' with
  | zero => exact rereads_throw rfl _ _
  | succ n ih =>
    apply Rereads.ofSteps (listed close expr') rfl
    intro n'
    unfold listed
    apply hexpr.andThen
    intro e
    apply (accept_rereads Lexeme.noConfusion).bind
    intro comma
    split
    · -- after a comma something is read, or there is an error
      apply Rereads.forget
      apply rereads_peek (isAt_looks _)
      intro closes
      split
      · exact rereads_unexpected _ _ _
      · exact (ih n').andThen fun es => rereads_pure (e :: es)
    · exact (mark_rereads close).andThen fun _ => rereads_pure [e]

theorem arguments_rereads (close : Mark) (n n' : Nat) :
    Rereads 1 (arguments close expr n) (arguments close expr' n') := by
  unfold arguments
  exact rereads_unless (rereads_pure []) (listed_rereads hexpr close n n')

theorem indices_rereads (n n' : Nat) : Rereads 0 (indices expr n) (indices expr' n') := by
  induction n generalizing n' with
  | zero => exact rereads_throw rfl _ _
  | succ n ih =>
    apply Rereads.ofSteps (indices expr') rfl
    intro n'
    unfold indices
    apply (accept_rereads Lexeme.noConfusion).bind
    intro opens
    split
    · exact hexpr.andThen fun index => (mark_rereads _).andThen fun _ =>
        (ih n').bind fun path => rereads_pure (index :: path)
    · exact rereads_pure []

theorem named_rereads (n n' : Nat) (pos : Pos) (name : Bytes) :
    Rereads 0 (named expr n pos name) (named expr' n' pos name) := by
  unfold named
  apply (accept_rereads Lexeme.noConfusion).bind
  intro called
  split
  · exact (arguments_rereads hexpr _ n n').andThen fun args => rereads_pure _
  · apply (indices_rereads hexpr n n').bind
    intro path
    apply (accept_rereads Lexeme.noConfusion).bind
    intro dot
    split
    · exact (identifier_rereads _).andThen fun method => (mark_rereads _).andThen fun _ =>
        (arguments_rereads hexpr _ n n').andThen fun args => rereads_pure _
    · exact rereads_pure _

theorem primary_rereads (n n' : Nat) : Rereads 1 (primary expr n) (primary expr' n') := by
  unfold primary
  apply rereads_peek lexeme?_looks
  intro l?
  split
  · exact advance_rereads.andThen fun t => rereads_pure _
  · exact advance_rereads.andThen fun t => named_rereads hexpr n n' t.pos _
  · exact advance_rereads.andThen fun t => hexpr.andThen fun inner =>
      (mark_rereads _).andThen fun _ => rereads_pure _
  · exact advance_rereads.andThen fun t =>
      (arguments_rereads hexpr _ n n').andThen fun es => rereads_pure _
  · exact rereads_unexpected _ _ _

theorem disjunction_rereads (n n' : Nat) :
    Rereads 1 (disjunction expr n) (disjunction expr' n') := by
  -- from the operators that bind most tightly to those that bind least
  have hsigned := signed_rereads (primary_rereads hexpr n n') n n'
  have hmul : Rereads 1 (multiplicative expr n) (multiplicative expr' n') :=
    leftAssoc_rereads hsigned rfl n n'
  have hadd : Rereads 1 (additive expr n) (additive expr' n') := leftAssoc_rereads hmul rfl n n'
  have hcmp : Rereads 1 (comparison expr n) (comparison expr' n') := nonAssoc_rereads hadd rfl
  have hand : Rereads 1 (conjunction expr n) (conjunction expr' n') :=
    leftAssoc_rereads hcmp rfl n n'
  exact leftAssoc_rereads hand rfl n n'

end

/-- Whole expressions. -/
theorem expr_rereads (n n' : Nat) : Rereads 1 (expr n) (expr n') := by
  induction n generalizing n' with
  | zero => exact rereads_throw rfl _ _
  | succ n ih =>
    apply Rereads.ofSteps expr rfl
    intro n'
    rw [expr_succ, expr_succ]
    exact disjunction_rereads (ih n') (n + 1) (n' + 1)

/-! ## §7. Types

A `>=` may end a type and begin what follows it, so that types are not cut off
between two tokens.  They are read again together with what follows them. -/

section
variable {α : Type}

/-- What follows a type may be read by `f`: where it begins with `=`, which may be
    half of a token, that is read. -/
structure AfterType (f f' : Ty → CursorM α) : Prop where
  reads : ∀ ty, Rereads 0 (f ty) (f' ty)
  equal : ∀ ty c, c.lexeme? = some (.mark .equal) →
    Ends (f ty) c (Reread 1 (f' ty) c) fun f _ => f.isStatic = false

/-- What always reads something. -/
theorem afterType_of_rereads {f f' : Ty → CursorM α} (h : ∀ ty, Rereads 1 (f ty) (f' ty)) :
    AfterType f f' where
  reads ty := (h ty).forget
  equal ty c _ := h ty c

/-- What closes a list type, and what follows it. -/
def closed (f : Ty → CursorM α) (elem : Ty) : CursorM α := do
  modify Cursor.splitGe
  mark .gt
  f (.list elem)

theorem splitGe_eq_self {c : Cursor} (h : ∀ p, c.ahead.head? ≠ some ⟨.mark .ge, p⟩) :
    c.splitGe = c := by
  unfold Cursor.splitGe
  split
  · next p rest hahead => exact absurd (congrArg List.head? hahead) (h p)
  · rfl

/-- Before anything but `>=`, closing a type is reading `>`. -/
theorem ends_closed {f : Ty → CursorM α} {elem : Ty} {c : Cursor} {Q : α → Cursor → Prop}
    {E : Failure → Cursor → Prop} (h : ∀ p, c.ahead.head? ≠ some ⟨.mark .ge, p⟩) :
    Ends (closed f elem) c Q E ↔ Ends (do mark .gt; f (.list elem)) c Q E := by
  unfold closed
  rw [ends_bind, ends_modify, splitGe_eq_self h]

/-- Before `>=`, closing a type leaves a `=` of its own. -/
theorem ends_closed_ge {f : Ty → CursorM α} {elem : Ty} {c : Cursor} {Q : α → Cursor → Prop}
    {E : Failure → Cursor → Prop} {p : Pos} {rest : List Token}
    (h : c.ahead = ⟨.mark .ge, p⟩ :: rest) :
    Ends (closed f elem) c Q E ↔
      Ends (f (.list elem)) ⟨⟨.mark .gt, p⟩ :: c.before, ⟨.mark .equal, p.right⟩ :: rest⟩ Q E := by
  obtain ⟨before, ahead⟩ := c
  obtain rfl : ahead = ⟨.mark .ge, p⟩ :: rest := h
  exact Iff.rfl

theorem AfterType.closed {f f' : Ty → CursorM α} (h : AfterType f f') :
    AfterType (closed f) (closed f') where
  reads elem c := by
    by_cases hge : ∃ p, c.ahead.head? = some ⟨.mark .ge, p⟩
    · obtain ⟨p, hp⟩ := hge
      obtain ⟨w, hw⟩ := List.head?_eq_some_iff.mp hp
      rw [ends_closed_ge hw]
      apply (h.equal (.list elem) _ rfl).weaken
      rintro a c' ⟨u, hlen, hahead, hyields⟩
      -- the `=` is half of the token that was split
      cases u with
      | nil => cases hlen
      | cons t u =>
        obtain ⟨rfl, rfl⟩ := List.cons.inj hahead
        refine ⟨⟨.mark .ge, p⟩ :: u, Nat.zero_le _, hw, ?_⟩
        intro d rest (hd : d.ahead = ⟨.mark .ge, p⟩ :: (u ++ rest)) halike
        unfold Yields
        rw [ends_closed_ge hd]
        exact hyields _ rest rfl halike
    · have hnot : ∀ p, c.ahead.head? ≠ some ⟨.mark .ge, p⟩ := fun p hp => hge ⟨p, hp⟩
      have hread : Rereads 1 (do mark .gt; f (.list elem)) (do mark .gt; f' (.list elem)) :=
        (mark_rereads .gt).andThen fun _ => h.reads (.list elem)
      rw [ends_closed hnot]
      apply (hread c).weaken
      rintro a c' ⟨u, hlen, hahead, hyields⟩
      refine ⟨u, Nat.zero_le _, hahead, ?_⟩
      intro d rest (hd : d.ahead = u ++ rest) halike
      unfold Yields
      rw [ends_closed]
      · exact hyields d rest hd halike
      · intro p hp
        apply hnot p
        rw [← hp, hd, hahead]
        exact head?_append_of_ne_nil (List.ne_nil_of_length_pos hlen) _ _
  equal elem c hc := by
    rw [Cursor.lexeme?_eq_head?] at hc
    unfold Parse.closed
    rw [ends_bind, ends_modify, ends_bind]
    have hsame : c.splitGe.lexemes.head? = some (.mark .equal) := by
      rw [Cursor.lexemes_splitGe]
      split
      · next hlexemes =>
        rw [hlexemes] at hc
        cases hc
      · exact hc
    apply ends_mark
    · intro c' hread
      rw [hread] at hsame
      cases hsame
    · exact fun _ => rfl

/-- A type and what follows it. -/
theorem type_rereads (n n' : Nat) {f f' : Ty → CursorM α} (h : AfterType f f') :
    Rereads 1 (type n >>= f) (type n' >>= f') := by
  induction n generalizing n' f f' with
  | zero => exact rereads_throw rfl _ _
  | succ n ih =>
    apply Rereads.ofSteps (fun n => type n >>= f') rfl
    intro n'
    unfold type
    rw [bind_assoc, bind_assoc]
    apply rereads_peek lexeme?_looks
    intro l?
    split
    · -- the type of the elements is followed by what closes the list, and then by `f`
      simp only [bind_assoc, pure_bind]
      exact advance_rereads.andThen fun _ => (mark_rereads _).andThen fun _ =>
        (ih n' h.closed).forget
    · split
      · next ty _ =>
        simp only [bind_assoc, pure_bind]
        exact advance_rereads.andThen fun _ => h.reads ty
      · exact fun _ => rfl
    · exact fun _ => rfl

end

/-- A type and the `=` after it. -/
def headType (n : Nat) : CursorM Ty := do
  let ty ← type n
  mark .equal
  return ty

theorem headType_rereads (n n' : Nat) : Rereads 1 (headType n) (headType n') := by
  unfold headType
  apply type_rereads
  apply afterType_of_rereads
  exact fun ty => (mark_rereads .equal).andThen fun _ => rereads_pure ty

section
variable {α β : Type}

/-- Where the same tokens are left to read, `m'` gives what `m` does. -/
def Repeats (m m' : CursorM α) : Prop :=
  ∀ c d : Cursor, d.ahead = c.ahead →
    Ends m c (fun a c' => Yields m' d a c'.ahead) fun f _ => f.isStatic = false

theorem Rereads.repeats {k : Nat} {m m' : CursorM α} (h : Rereads k m m') : Repeats m m' := by
  intro c d hd
  apply (h c).weaken
  rintro a c' ⟨u, -, hahead, hyields⟩
  exact hyields d c'.ahead (hd.trans hahead) (.inl rfl)

theorem Repeats.bind {m m' : CursorM α} {f f' : α → CursorM β} (hm : Repeats m m')
    (hf : ∀ a, Repeats (f a) (f' a)) : Repeats (m >>= f) (m' >>= f') := by
  intro c d hd
  apply (hm c d hd).bind
  intro a c₁ hyields
  cases hrun : m' d with
  | ok a' d₁ =>
    obtain ⟨rfl, hd₁⟩ := Ends.of_ok hyields hrun
    apply (hf a' c₁ d₁ hd₁).weaken
    intro b c₂ hyields'
    unfold Yields
    rw [ends_bind, ends_ok hrun]
    exact hyields'
  | error f d₁ =>
    -- the second run has no steps left
    apply (hf a c₁ c₁ rfl).weaken
    intro b c₂ _
    unfold Yields
    rw [ends_bind, ends_error hrun]
    exact Ends.of_error hyields hrun

/-- The steps of the second reader are counted down. -/
theorem Repeats.ofSteps {m : CursorM α} (read : Nat → CursorM α)
    (hzero : read 0 = throw .outOfSteps) (h : ∀ n, Repeats m (read (n + 1))) (n : Nat) :
    Repeats m (read n) := by
  cases n with
  | zero =>
    intro c d hd
    rw [hzero]
    exact (h 0 c d hd).weaken fun a c' _ => yields_outOfSteps d a c'.ahead
  | succ n => exact h n

theorem repeats_peek {γ : Type} {m : CursorM γ} {look : Option Token → γ} (hm : Looks m look)
    {f f' : γ → CursorM α} (h : ∀ x, Repeats (f x) (f' x)) : Repeats (m >>= f) (m >>= f') := by
  intro c d hd
  have hsame : d.token? = c.token? := token?_congr (congrArg List.head? hd)
  rw [ends_looks hm]
  apply (h _ c d hd).weaken
  intro a c' hyields
  unfold Yields
  rw [ends_looks hm]
  show Ends (f' (look d.token?)) d _ _
  rw [hsame]
  exact hyields

theorem splitGe_repeats : Repeats (modify Cursor.splitGe) (modify Cursor.splitGe) := by
  rintro ⟨before, ahead⟩ ⟨before', ahead'⟩ (rfl : ahead' = ahead)
  refine ⟨rfl, ?_⟩
  show (Cursor.splitGe ⟨before', ahead'⟩).ahead = (Cursor.splitGe ⟨before, ahead'⟩).ahead
  unfold Cursor.splitGe
  split
  · next hge => rw [hge]
  · rfl

end

/-- A type is read again where all that follows is the same, even if a `>=` ends it. -/
theorem type_repeats (n n' : Nat) : Repeats (type n) (type n') := by
  induction n generalizing n' with
  | zero => exact fun _ _ _ => rfl
  | succ n ih =>
    apply Repeats.ofSteps type rfl
    intro n'
    unfold type
    apply repeats_peek lexeme?_looks
    intro l?
    split
    · exact advance_rereads.repeats.bind fun _ => (mark_rereads _).repeats.bind fun _ =>
        (ih n').bind fun elem => splitGe_repeats.bind fun _ => (mark_rereads _).repeats.bind
          fun _ => (rereads_pure _).repeats
    · split
      · exact advance_rereads.repeats.bind fun _ => (rereads_pure _).repeats
      · exact (rereads_unexpected _ 0 _).repeats
    · exact (rereads_unexpected _ 0 _).repeats

/-! ## §8. Parameters -/

/-- What follows parameters may be read by `g`, which wants no `=`. -/
structure AfterParams {α : Type} (g g' : List Param → CursorM α) : Prop where
  reads : ∀ ps, Rereads 0 (g ps) (g' ps)
  equal : ∀ ps c, c.lexeme? = some (.mark .equal) →
    Ends (g ps) c (fun _ _ => False) fun f _ => f.isStatic = false

/-- A parameter more, before others. -/
theorem AfterParams.cons {α : Type} {g g' : List Param → CursorM α} (h : AfterParams g g')
    (p : Param) : AfterParams (fun ps => g (p :: ps)) fun ps => g' (p :: ps) where
  reads ps := h.reads (p :: ps)
  equal ps := h.equal (p :: ps)

theorem paramList_rereads {α : Type} {g g' : List Param → CursorM α} (h : AfterParams g g')
    (k k' n n' : Nat) : Rereads 1 (paramList k n >>= g) (paramList k' n' >>= g') := by
  induction n generalizing n' g g' with
  | zero => exact rereads_throw rfl _ _
  | succ n ih =>
    apply Rereads.ofSteps (fun n => paramList k' n >>= g') rfl
    intro n'
    unfold paramList
    simp only [bind_assoc]
    apply (identifier_rereads _).andThen
    intro name
    apply (mark_rereads _).andThen
    intro _
    apply Rereads.forget
    apply type_rereads
    constructor
    · intro ty
      apply (accept_rereads Lexeme.noConfusion).bind
      intro comma
      split
      · apply Rereads.forget
        rw [bind_assoc, bind_assoc]
        apply rereads_peek (isAt_looks _)
        intro closes
        split
        · exact fun _ => rfl
        · simp only [bind_assoc, pure_bind]
          exact ih (h.cons ⟨name, ty⟩) n'
      · exact h.reads [⟨name, ty⟩]
    · -- a `=` is no comma, so that this parameter is the last
      intro ty c hc
      rw [ends_bind]
      apply ends_accept
      · intro c' hcomma
        rw [Cursor.lexeme?_eq_head?, hcomma] at hc
        cases hc
      · exact fun _ => (h.equal [⟨name, ty⟩] c hc).weaken fun _ _ hfalse => hfalse.elim

theorem params_rereads (n n' : Nat) : Rereads 1 (params n) (params n') := by
  unfold params
  apply (mark_rereads _).andThen
  intro _
  apply Rereads.forget
  apply rereads_peek (isAt_looks _)
  intro none
  split
  · exact (mark_rereads _).andThen fun _ => rereads_pure []
  · apply paramList_rereads
    constructor
    · exact fun ps => (mark_rereads .rparen).andThen fun _ => rereads_pure ps
    · -- and it is no `)`, so that nothing is given
      intro ps c hc
      rw [ends_bind]
      apply ends_mark
      · intro c' hrparen
        rw [Cursor.lexeme?_eq_head?, hrparen] at hc
        cases hc
      · exact fun _ => rfl

end Parse
end Lumen
