/-
  Lumen.Proofs.Reading.Ends — what a run of a reader ends in.

  A reader started in some state either gives a result or fails.  `Ends` asks
  one thing of the first case and another of the second, and passes through
  the steps of a reader from the last to the first: what a sequence has to end
  in is what its first step has to end in, if the rest is counted as part of
  what is asked.

  Main statements:
    * `ends_bind` — a sequence, step by step;
    * `decidableEnds` — what a run ends in can be found out by running;
    * `Ends.mono` — what is asked of a run may be weakened;
    * `ends_lexeme?` … `ends_select?` — the readers of single tokens, in terms of
      the lexemes that are left;
    * `ends_onCursor` — a reader of tokens among readers of statements.
-/
import Lumen.Parse.State

namespace Lumen

/-! ## §1. Runs -/

section
variable {ε σ α β : Type} {m : EStateM ε σ α} {s : σ}

/-- A run of `m` from `s` gives a result in `Q` or fails in `E`, the state at
    the end included. -/
def Ends (m : EStateM ε σ α) (s : σ) (Q : α → σ → Prop) (E : ε → σ → Prop) : Prop :=
  match m s with
  | .ok a t => Q a t
  | .error e t => E e t

variable {Q Q' : α → σ → Prop} {E E' : ε → σ → Prop}

theorem ends_ok {a : α} {t : σ} (h : m s = .ok a t) : Ends m s Q E ↔ Q a t := by
  rw [Ends, h]

theorem ends_error {e : ε} {t : σ} (h : m s = .error e t) : Ends m s Q E ↔ E e t := by
  rw [Ends, h]

theorem Ends.of_ok (h : Ends m s Q E) {a : α} {t : σ} (hrun : m s = .ok a t) : Q a t :=
  (ends_ok hrun).mp h

theorem Ends.of_error (h : Ends m s Q E) {e : ε} {t : σ} (hrun : m s = .error e t) : E e t :=
  (ends_error hrun).mp h

/-- A run that cannot fail gives a result. -/
theorem Ends.exists_ok (h : Ends m s Q fun _ _ => False) : ∃ a t, m s = .ok a t ∧ Q a t := by
  cases hrun : m s with
  | ok a t => exact ⟨a, t, rfl, h.of_ok hrun⟩
  | error e t => exact (h.of_error hrun).elim

/-- A run that cannot give a result fails. -/
theorem Ends.exists_error (h : Ends m s (fun _ _ => False) E) :
    ∃ e t, m s = .error e t ∧ E e t := by
  cases hrun : m s with
  | ok a t => exact (h.of_ok hrun).elim
  | error e t => exact ⟨e, t, rfl, h.of_error hrun⟩

theorem Ends.gives (h : Ends m s (fun _ _ => True) fun _ _ => False) : ∃ a t, m s = .ok a t := by
  obtain ⟨a, t, hrun, -⟩ := h.exists_ok
  exact ⟨a, t, hrun⟩

theorem Ends.fails (h : Ends m s (fun _ _ => False) fun _ _ => True) :
    ∃ e t, m s = .error e t := by
  obtain ⟨e, t, hrun, -⟩ := h.exists_error
  exact ⟨e, t, hrun⟩

/-- What a run ends in can be found out by running. -/
instance decidableEnds [∀ a t, Decidable (Q a t)] [∀ e t, Decidable (E e t)] :
    Decidable (Ends m s Q E) :=
  match hrun : m s with
  | .ok a t => decidable_of_iff (Q a t) (ends_ok hrun).symm
  | .error e t => decidable_of_iff (E e t) (ends_error hrun).symm

/-- What is asked of a run may be weakened. -/
theorem Ends.mono (h : Ends m s Q E) (hQ : ∀ a t, Q a t → Q' a t) (hE : ∀ e t, E e t → E' e t) :
    Ends m s Q' E' := by
  cases hrun : m s with
  | ok a t => exact (ends_ok hrun).mpr (hQ a t (h.of_ok hrun))
  | error e t => exact (ends_error hrun).mpr (hE e t (h.of_error hrun))

theorem Ends.weaken (h : Ends m s Q E) (hQ : ∀ a t, Q a t → Q' a t) : Ends m s Q' E :=
  h.mono hQ fun _ _ he => he

theorem Ends.and (h : Ends m s Q E) (h' : Ends m s Q' E') :
    Ends m s (fun a t => Q a t ∧ Q' a t) fun e t => E e t ∧ E' e t := by
  cases hrun : m s with
  | ok a t => exact (ends_ok hrun).mpr ⟨h.of_ok hrun, h'.of_ok hrun⟩
  | error e t => exact (ends_error hrun).mpr ⟨h.of_error hrun, h'.of_error hrun⟩

@[simp] theorem ends_pure (a : α) : Ends (pure a : EStateM ε σ α) s Q E ↔ Q a s := Iff.rfl

@[simp] theorem ends_get {Q : σ → σ → Prop} : Ends (get : EStateM ε σ σ) s Q E ↔ Q s s := Iff.rfl

@[simp] theorem ends_modify {Q : Unit → σ → Prop} (f : σ → σ) :
    Ends (modify f : EStateM ε σ Unit) s Q E ↔ Q () (f s) := Iff.rfl

/-- What is asked of a sequence is asked of its first step, the rest included. -/
theorem ends_bind {Q : β → σ → Prop} {k : α → EStateM ε σ β} :
    Ends (m >>= k) s Q E ↔ Ends m s (fun a t => Ends (k a) t Q E) E := by
  show (match EStateM.bind m k s with | .ok b t => Q b t | .error e t => E e t) ↔ _
  unfold EStateM.bind
  cases hrun : m s with
  | ok a t => exact (ends_ok (Q := fun a t => Ends (k a) t Q E) hrun).symm
  | error e t => exact (ends_error hrun).symm

/-- A run ends in a result or fails. -/
theorem ends_trivial (m : EStateM ε σ α) (s : σ) :
    Ends m s (fun _ _ => True) fun _ _ => True := by
  cases hrun : m s with
  | ok a t => exact (ends_ok hrun).mpr trivial
  | error e t => exact (ends_error hrun).mpr trivial

/-- A sequence, from what its first step ends in. -/
theorem Ends.bind {P : α → σ → Prop} {Q : β → σ → Prop} {k : α → EStateM ε σ β}
    (h : Ends m s P E) (hk : ∀ a t, P a t → Ends (k a) t Q E) : Ends (m >>= k) s Q E :=
  ends_bind.mpr (h.mono hk fun _ _ he => he)

variable {k : α → EStateM ε σ β} {t : σ}

/-- A sequence goes on from where its first step has ended. -/
theorem bind_of_ok {a : α} (h : m s = .ok a t) : (m >>= k) s = k a t := by
  show EStateM.bind m k s = _
  rw [EStateM.bind, h]

theorem bind_of_error {e : ε} (h : m s = .error e t) : (m >>= k) s = .error e t := by
  show EStateM.bind m k s = _
  rw [EStateM.bind, h]

/-- Where its first step comes to the same, a sequence does so too. -/
theorem bind_of_eq {s' : σ} (h : m s = m s') : (m >>= k) s = (m >>= k) s' := by
  show EStateM.bind m k s = EStateM.bind m k s'
  rw [EStateM.bind, EStateM.bind, h]

end

/-! ## §2. What is left to read -/

/-- The lexemes of a token list, up to its first end token. -/
def Token.lexemes (tokens : List Token) : List Lexeme :=
  (tokens.map Token.lexeme).takeWhile (· != .eof)

/-- The lexemes that are left to read. -/
def Cursor.lexemes (c : Cursor) : List Lexeme := Token.lexemes c.ahead

namespace Cursor

/-- How much some lexemes weigh: as many as they are, but `>=` counts twice. -/
def weighLexemes : List Lexeme → Nat
  | [] => 0
  | l :: ls => (if l = .mark .ge then 2 else 1) + weighLexemes ls

theorem weighLexemes_cons (l : Lexeme) (ls : List Lexeme) :
    weighLexemes (l :: ls) = (if l = .mark .ge then 2 else 1) + weighLexemes ls := rfl

@[simp] theorem weighLexemes_append (ls ms : List Lexeme) :
    weighLexemes (ls ++ ms) = weighLexemes ls + weighLexemes ms := by
  induction ls with
  | nil => exact (Nat.zero_add _).symm
  | cons l ls ih => rw [List.cons_append, weighLexemes_cons, weighLexemes_cons, ih, Nat.add_assoc]

theorem weighLexemes_lt_cons (l : Lexeme) (ls : List Lexeme) :
    weighLexemes ls < weighLexemes (l :: ls) := by
  rw [weighLexemes_cons]
  split <;> omega

theorem weighLexemes_lt_of_cons {l : Lexeme} {ls rest : List Lexeme} (h : ls = l :: rest) :
    weighLexemes rest < weighLexemes ls := h ▸ weighLexemes_lt_cons l rest

theorem weighLexemes_le_of_append {ls ms rest : List Lexeme} (h : ls = ms ++ rest) :
    weighLexemes rest ≤ weighLexemes ls := by
  rw [h, weighLexemes_append]
  exact Nat.le_add_left _ _

theorem lexemes_cons (before : List Token) (t : Token) (rest : List Token) :
    (Cursor.mk before (t :: rest)).lexemes
      = if t.lexeme = .eof then [] else t.lexeme :: Token.lexemes rest := by
  simp [lexemes, Token.lexemes, List.takeWhile_cons]

/-- What is left to read weighs no more than the tokens that are there. -/
theorem weighLexemes_lexemes_le (c : Cursor) : weighLexemes c.lexemes ≤ c.weight := by
  obtain ⟨before, ahead⟩ := c
  induction ahead with
  | nil => exact Nat.le_refl 0
  | cons t rest ih =>
    rw [lexemes_cons, weight, weigh]
    have ih' : weighLexemes (Token.lexemes rest) ≤ weigh rest := ih
    split
    · exact Nat.zero_le _
    · rw [weighLexemes_cons]
      omega

/-- The token at the cursor is the first of those left to read, unless nothing
    is left. -/
theorem token?_cases (c : Cursor) :
    (c.token? = none ∧ c.lexemes = [])
      ∨ ∃ t, c.token? = some t ∧ c.lexemes = t.lexeme :: (c.past t).lexemes := by
  obtain ⟨before, ahead⟩ := c
  cases ahead with
  | nil => exact .inl ⟨rfl, rfl⟩
  | cons t rest =>
    rw [lexemes_cons]
    by_cases h : t.lexeme = .eof
    · exact .inl ⟨by simp [token?, current?, Token.isEof, h], if_pos h⟩
    · exact .inr ⟨t, by simp [token?, current?, Token.isEof, h], if_neg h⟩

theorem map_token? (c : Cursor) : c.token?.map Token.lexeme = c.lexemes.head? := by
  rcases c.token?_cases with ⟨ht, hl⟩ | ⟨t, ht, hl⟩
  · rw [ht, hl]; rfl
  · rw [ht, hl]; rfl

theorem exists_token? {c : Cursor} {l : Lexeme} {ls : List Lexeme} (h : c.lexemes = l :: ls) :
    ∃ t, c.token? = some t ∧ t.lexeme = l := by
  have hhead : c.token?.map Token.lexeme = some l := by
    rw [map_token?, h]
    rfl
  exact Option.map_eq_some_iff.mp hhead

theorem lexeme?_eq_head? (c : Cursor) : c.lexeme? = c.lexemes.head? := c.map_token?

/-- A `>=` that is split is read as `>` and then `=`. -/
theorem lexemes_splitGe (c : Cursor) :
    c.splitGe.lexemes = match c.lexemes with
      | .mark .ge :: rest => .mark .gt :: .mark .equal :: rest
      | ls => ls := by
  obtain ⟨before, ahead⟩ := c
  cases ahead with
  | nil => rfl
  | cons t rest =>
    obtain ⟨l, p⟩ := t
    by_cases h : l = .mark .ge
    · subst h
      rfl
    · -- any other token stays, on both sides
      have hsplit : (Cursor.mk before (⟨l, p⟩ :: rest)).splitGe = ⟨before, ⟨l, p⟩ :: rest⟩ := by
        unfold splitGe
        split
        · next heq =>
          cases heq
          exact absurd rfl h
        · rfl
      rw [hsplit, lexemes_cons]
      split
      · rfl
      · split
        · next heq => cases heq; exact absurd rfl h
        · rfl

end Cursor

/-! ## §3. Readers of single tokens -/

namespace CursorM

variable {c : Cursor} {E : Failure → Cursor → Prop}

@[simp] theorem ends_token? {Q : Option Token → Cursor → Prop} :
    Ends token? c Q E ↔ Q c.token? c := Iff.rfl

@[simp] theorem ends_lexeme? {Q : Option Lexeme → Cursor → Prop} :
    Ends lexeme? c Q E ↔ Q c.lexemes.head? c := by
  rw [← Cursor.lexeme?_eq_head?]
  exact Iff.rfl

@[simp] theorem ends_isAt {Q : Bool → Cursor → Prop} (l : Lexeme) :
    Ends (isAt l) c Q E ↔ Q (c.lexemes.head? == some l) c := by
  rw [← Cursor.lexeme?_eq_head?]
  exact Iff.rfl

theorem advance_eq (c : Cursor) :
    advance c = match c.token? with
      | some t => .ok t (c.past t)
      | none => .error .pastEnd c := by
  show (match c.token? with
    | some t => (do set (c.past t); return t : CursorM Token)
    | none => throw Failure.pastEnd) c = _
  cases c.token? <;> rfl

theorem advance_of_some {t : Token} (h : c.token? = some t) : advance c = .ok t (c.past t) := by
  rw [advance_eq, h]

theorem advance_of_none (h : c.token? = none) : advance c = .error .pastEnd c := by
  rw [advance_eq, h]

theorem advance_cases (c : Cursor) :
    (c.token? = none ∧ advance c = .error .pastEnd c)
      ∨ ∃ t, c.token? = some t ∧ advance c = .ok t (c.past t) := by
  cases h : c.token? with
  | none => exact .inl ⟨rfl, advance_of_none h⟩
  | some t => exact .inr ⟨t, rfl, advance_of_some h⟩

/-- Where something is left to read, the first of it is read. -/
theorem ends_advance {Q : Token → Cursor → Prop} {l : Lexeme} (h : c.lexemes.head? = some l)
    (hread : ∀ t c', t.lexeme = l → c.lexemes = l :: c'.lexemes → Q t c') :
    Ends advance c Q E := by
  rcases c.token?_cases with ⟨-, hl⟩ | ⟨t, ht, hl⟩
  · rw [hl] at h
    cases h
  · rw [hl] at h
    obtain rfl : t.lexeme = l := Option.some.inj h
    unfold advance
    rw [ends_bind, ends_get, ht]
    exact hread t _ rfl hl

theorem ends_accept {Q : Bool → Cursor → Prop} (l : Lexeme)
    (hyes : ∀ c', c.lexemes = l :: c'.lexemes → Q true c')
    (hno : c.lexemes.head? ≠ some l → Q false c) : Ends (accept l) c Q E := by
  unfold accept
  rw [ends_bind, ends_isAt]
  split
  · next h =>
    rw [ends_bind]
    exact ends_advance (eq_of_beq h) fun t c' _ hl => hyes c' hl
  · next h => exact hno (by simpa using h)

/-- Reading a lexeme that has to be there. -/
theorem ends_demand {Q : Unit → Cursor → Prop} (l : Lexeme) (expected : Expected)
    (hread : ∀ c', c.lexemes = l :: c'.lexemes → Q () c')
    (hfail : c.lexemes.head? ≠ some l → E (.error (.unexpected expected c.current?)) c) :
    Ends (do if ← isAt l then let _ ← advance else unexpected expected) c Q E := by
  rw [ends_bind, ends_isAt]
  split
  · next h =>
    rw [ends_bind]
    exact ends_advance (eq_of_beq h) fun t c' _ hl => hread c' hl
  · next h => exact hfail (by simpa using h)

theorem ends_mark {Q : Unit → Cursor → Prop} (m : Mark)
    (hread : ∀ c', c.lexemes = .mark m :: c'.lexemes → Q () c')
    (hfail : c.lexemes.head? ≠ some (.mark m) → E (.error (.unexpected (.mark m) c.current?)) c) :
    Ends (mark m) c Q E := ends_demand (.mark m) (.mark m) hread hfail

theorem ends_word {Q : Unit → Cursor → Prop} (w : Word)
    (hread : ∀ c', c.lexemes = .word w :: c'.lexemes → Q () c')
    (hfail : c.lexemes.head? ≠ some (.word w) → E (.error (.unexpected (.word w) c.current?)) c) :
    Ends (word w) c Q E := ends_demand (.word w) (.word w) hread hfail

theorem ends_identifier {Q : Bytes → Cursor → Prop} (expected : Expected)
    (hread : ∀ name c', c.lexemes = .ident name :: c'.lexemes → Q name c')
    (hfail : (∀ name, c.lexemes.head? ≠ some (.ident name)) →
      E (.error (.unexpected expected c.current?)) c) :
    Ends (identifier expected) c Q E := by
  unfold identifier
  rw [ends_bind, ends_lexeme?]
  split
  · next name h =>
    rw [ends_bind]
    exact ends_advance h fun t c' _ hl => hread name c' hl
  · next h => exact hfail h

theorem ends_select? {α : Type} {Q : Option α → Cursor → Prop} (meaning : Lexeme → Option α)
    (hread : ∀ l a c', c.lexemes = l :: c'.lexemes → meaning l = some a → Q (some a) c')
    (hno : (∀ l, c.lexemes.head? = some l → meaning l = none) → Q none c) :
    Ends (select? meaning) c Q E := by
  unfold select?
  rw [ends_bind, ends_lexeme?]
  split
  · next a h =>
    obtain ⟨l, hl, hmeaning⟩ := Option.bind_eq_some_iff.mp h
    rw [ends_bind]
    exact ends_advance hl fun t c' _ hcons => hread l a c' hcons hmeaning
  · next h =>
    refine hno ?_
    intro l hl
    rw [hl] at h
    exact h

end CursorM

/-! ## §4. Readers of statements -/

namespace Parse

/-- A state in which there is a cursor. -/
class HasCursor (σ : Type) where
  cursor : σ → Cursor

instance : HasCursor Cursor := ⟨id⟩

instance : HasCursor State := ⟨State.cursor⟩

variable {α : Type} {s : State} {E : Failure → State → Prop}

/-- A reader of tokens moves the cursor and leaves the rest of the state. -/
theorem ends_onCursor {Q : α → State → Prop} {m : CursorM α} :
    Ends (onCursor m) s Q E
      ↔ Ends m s.cursor (fun a c => Q a { s with cursor := c })
          fun e c => E e { s with cursor := c } := by
  cases hrun : m s.cursor with
  | ok a c =>
    rw [ends_ok (m := onCursor m) (s := s) (a := a) (t := { s with cursor := c })
      (by rw [onCursor, hrun]), ends_ok hrun]
  | error e c =>
    rw [ends_error (m := onCursor m) (s := s) (e := e) (t := { s with cursor := c })
      (by rw [onCursor, hrun]), ends_error hrun]

@[simp] theorem ends_lift {Q : α → State → Prop} {m : CursorM α} :
    Ends (liftM m : ParseM α) s Q E
      ↔ Ends m s.cursor (fun a c => Q a { s with cursor := c })
          fun e c => E e { s with cursor := c } := ends_onCursor

/-- What a note leaves behind is its event. -/
theorem ends_note {Q : Unit → State → Prop} {o : Options} {e : Event}
    (h : ∀ trace, Q () { s with trace }) : Ends (note o e) s Q E := by
  unfold note
  split
  · exact h _
  · exact h s.trace

section
variable {o : Options} (hoff : o.checked = false)
include hoff

theorem ends_checking_off {Q : Unit → State → Prop} (check : Env → Except ParseError α) :
    Ends (checking o check) s Q E ↔ Q () s := ends_ok (checking_off hoff check s)

theorem ends_updating_off {Q : Unit → State → Prop} (change : Env → Except ParseError Env) :
    Ends (updating o change) s Q E ↔ Q () s := ends_ok (updating_off hoff change s)

theorem inScope_off (locals : List Param) (body : ParseM α) : inScope o locals body = body := by
  simp [inScope, hoff]

end

end Parse

end Lumen
