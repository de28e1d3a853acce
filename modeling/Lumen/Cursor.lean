/-
  Lumen.Cursor — reading a token list.

  A cursor is a token list cut in two: the tokens already read, the latest
  first, and those ahead.  Reading stops at the end token or at the end of the
  list, whichever comes first.  The only token that is ever changed is a `>=`
  that closes a list type: it is split into `>` and `=`.

  A reader either gives a result or fails, and leaves a cursor in both cases.

  Main statements:
    * `tokens_past` — moving on changes no token;
    * `weight_splitGe` — a split does not change what is left to read, when a
      `>=` counts twice;
    * `lexeme?_eq_none_iff` — there is nothing to look at just at the end.
-/
import Lumen.Error

namespace Lumen

/-- A place in a token list. -/
structure Cursor where
  before : List Token
  ahead : List Token
deriving Repr

namespace Cursor

/-! ## §1. Looking -/

/-- The start of a token list. -/
def ofTokens (tokens : List Token) : Cursor := ⟨[], tokens⟩

/-- How many tokens have been read. -/
def position (c : Cursor) : Nat := c.before.length

/-- All tokens, read or not. -/
def tokens (c : Cursor) : List Token := c.before.reverse ++ c.ahead

/-- The token at the cursor, the end token included. -/
def current? (c : Cursor) : Option Token := c.ahead.head?

/-- The token after that at the cursor. -/
def next? (c : Cursor) : Option Token := c.ahead.tail.head?

/-- The token at the cursor, unless it is the end token. -/
def token? (c : Cursor) : Option Token := c.current?.filter fun t => !t.isEof

/-- What the token at the cursor is, unless it is the end token. -/
def lexeme? (c : Cursor) : Option Lexeme := c.token?.map Token.lexeme

/-- Whether nothing is left to read. -/
def atEnd (c : Cursor) : Bool := c.token?.isNone

/-- How many tokens there are, if every `>=` is counted as two. -/
def weigh : List Token → Nat
  | [] => 0
  | t :: rest => (if t.lexeme = .mark .ge then 2 else 1) + weigh rest

/-- How much is left to read. -/
def weight (c : Cursor) : Nat := weigh c.ahead

/-! ## §2. Moving -/

/-- The cursor after the token `t`, before which it stood. -/
def past (c : Cursor) (t : Token) : Cursor := ⟨t :: c.before, c.ahead.tail⟩

/-- The cursor before `>` and `=` if it stood before a `>=`.  The two tokens
    have the places of the two characters. -/
def splitGe (c : Cursor) : Cursor :=
  match c.ahead with
  | ⟨.mark .ge, p⟩ :: rest =>
    { c with ahead := ⟨.mark .gt, p⟩ :: ⟨.mark .equal, p.right⟩ :: rest }
  | _ => c

theorem lexeme?_eq_none_iff (c : Cursor) : c.lexeme? = none ↔ c.atEnd = true := by
  simp [lexeme?, atEnd]

theorem tokens_past {c : Cursor} {t : Token} (h : c.current? = some t) :
    (c.past t).tokens = c.tokens := by
  obtain ⟨before, ahead⟩ := c
  cases ahead with
  | nil => cases h
  | cons u rest =>
    obtain rfl : u = t := by simpa [current?] using h
    simp [past, tokens]

@[simp] theorem weight_splitGe (c : Cursor) : c.splitGe.weight = c.weight := by
  unfold splitGe
  split
  · next h => simp [weight, weigh, h]; omega
  · rfl

@[simp] theorem position_splitGe (c : Cursor) : c.splitGe.position = c.position := by
  unfold splitGe
  split <;> rfl

end Cursor

/-! ## §3. Readers -/

/-- A reader of tokens. -/
abbrev CursorM := EStateM Failure Cursor

namespace CursorM

/-- Reports what is wanted in the place of the token at the cursor. -/
def unexpected {α : Type} (expected : Expected) : CursorM α := do
  throw (.error (.unexpected expected (← get).current?))

/-- The token at the cursor, unless nothing is left to read. -/
def token? : CursorM (Option Token) := return (← get).token?

/-- What the token at the cursor is, unless nothing is left to read. -/
def lexeme? : CursorM (Option Lexeme) := return (← get).lexeme?

/-- Whether the token at the cursor is a given one. -/
def isAt (l : Lexeme) : CursorM Bool := return (← get).lexeme? == some l

/-- Reads one token.  Every caller has looked at it before. -/
def advance : CursorM Token := do
  let c ← get
  match c.token? with
  | some t => set (c.past t); return t
  | none => throw .pastEnd

/-- Reads a given token if it is at the cursor, and tells whether it was. -/
def accept (l : Lexeme) : CursorM Bool := do
  if ← isAt l then
    let _ ← advance
    return true
  else return false

/-- Reads a mark. -/
def mark (m : Mark) : CursorM Unit := do
  if ← isAt (.mark m) then let _ ← advance
  else unexpected (.mark m)

/-- Reads a reserved word. -/
def word (w : Word) : CursorM Unit := do
  if ← isAt (.word w) then let _ ← advance
  else unexpected (.word w)

/-- Reads a name that stands for what is expected. -/
def identifier (expected : Expected) : CursorM Bytes := do
  match ← lexeme? with
  | some (.ident name) =>
    let _ ← advance
    return name
  | _ => unexpected expected

/-- Reads the token at the cursor if it means something. -/
def select? {α : Type} (meaning : Lexeme → Option α) : CursorM (Option α) := do
  match (← lexeme?).bind meaning with
  | some a =>
    let _ ← advance
    return some a
  | none => return none

end CursorM
end Lumen
