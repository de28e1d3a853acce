/-
  Lumen.Proofs.Access.Tagged — tokens as a tag and a payload.

  A lexeme carries what belongs to it, and nothing else can be asked of it.  A tagged
  token says what it is by a tag and carries a payload beside it, and the two need not go
  together.  A payload is asked for as one of a certain kind; whether that is right has to
  be found out from the tag before.

  Everything that is said about a token by looking at its tag first is right: where the
  payload goes with the tag, the payload that is asked for is there, and what comes of it
  is what is said about the lexeme.

  Main statements:
    * `Tagged.isSound_iff` — payload and tag go together just in the lexemes;
    * `Tagged.source_tagged`, `Tagged.describe_tagged` — the texts of a token;
    * `Tagged.value_tagged`, `Tagged.json_tagged` — the constant it stands for;
    * `Value.writing_eq` — values are written through tokens.
-/
import Lumen.Program.Json
import Lumen.Typing

namespace Lumen

/-! ## §1. Tags and payloads -/

/-- What a token says it is. -/
inductive Tag where
  | eof | ident | int | float | str | bool
  | word (w : Word)
  | mark (m : Mark)
deriving DecidableEq, Repr

/-- What a token carries. -/
inductive Payload where
  | none
  | int (n : Int64)
  | float (x : Binary64)
  | text (s : Bytes)
  | bool (b : Bool)
deriving DecidableEq, Repr

/-- A tag and a payload beside it. -/
structure Tagged where
  tag : Tag
  payload : Payload := .none
deriving DecidableEq, Repr

/-- A tag and a payload at a place. -/
structure TaggedToken where
  content : Tagged
  pos : Pos := {}
deriving DecidableEq, Repr

/-- What can go wrong when something is asked for that is not there: a token beyond either
    end, a token to pass where none is left, or another payload than the one there is. -/
inductive Fault where
  | outside
  | atEnd
  | payload (t : Tagged)
deriving DecidableEq, Repr

namespace Tag

/-- The name of a kind of token. -/
def name : Tag → String
  | eof => "end of input"
  | ident => "identifier"
  | int => "integer literal"
  | float => "float literal"
  | str => "string literal"
  | bool => "boolean literal"
  | word w => "'" ++ w.spelling ++ "'"
  | mark m => "'" ++ m.spelling ++ "'"

def isLiteral : Tag → Bool
  | int | float | str | bool => true
  | _ => false

def isTypeMarker : Tag → Bool
  | word w => w.isTypeMarker
  | _ => false

def isComparison : Tag → Bool
  | mark m => m.isComparison
  | _ => false

/-- The operators that ask which operand is greater. -/
def isOrdering : Tag → Bool
  | mark .gt | mark .lt | mark .ge | mark .le => true
  | _ => false

/-- The scalar type that a token names. -/
def scalarType? : Tag → Option Ty
  | word w => Ty.ofWord? w
  | _ => none

/-- The type of a literal. -/
def literalType? : Tag → Option Ty
  | int => some .int
  | float => some .float
  | str => some .string
  | bool => some .bool
  | _ => none

end Tag

/-! ## §2. Asking for a payload -/

namespace Tagged

/-- Whether the payload goes with the tag. -/
def isSound : Tagged → Bool
  | ⟨.ident, .text _⟩ | ⟨.str, .text _⟩ => true
  | ⟨.int, .int _⟩ | ⟨.float, .float _⟩ | ⟨.bool, .bool _⟩ => true
  | ⟨.eof, .none⟩ | ⟨.word _, .none⟩ | ⟨.mark _, .none⟩ => true
  | _ => false

/-- The text of a name or of a string. -/
def text : Tagged → Except Fault Bytes
  | ⟨.ident, .text s⟩ | ⟨.str, .text s⟩ => .ok s
  | t => .error (.payload t)

/-- The number of an integer. -/
def asInt : Tagged → Except Fault Int64
  | ⟨.int, .int n⟩ => .ok n
  | t => .error (.payload t)

/-- The number of a float. -/
def asFloat : Tagged → Except Fault Binary64
  | ⟨.float, .float x⟩ => .ok x
  | t => .error (.payload t)

/-- The truth value of a boolean. -/
def asBool : Tagged → Except Fault Bool
  | ⟨.bool, .bool b⟩ => .ok b
  | t => .error (.payload t)

/-! ## §3. What is said about a token -/

/-- A token as source text. -/
def source (t : Tagged) : Except Fault Bytes :=
  match t.tag with
  | .ident => t.text
  | .int => return decimalInt (← t.asInt).toInt
  | .float => return (← t.asFloat).text
  | .str => return quoted (← t.text)
  | .bool => return ascii (if ← t.asBool then "true" else "false")
  | .eof => .ok []
  | .word w => .ok (ascii w.spelling)
  | .mark m => .ok m.bytes

/-- A token as messages speak of it. -/
def describe (t : Tagged) : Except Fault Bytes :=
  match t.tag with
  | .ident => return ascii "identifier '" ++ (← t.text) ++ ascii "'"
  | .int => return ascii "integer " ++ decimalInt (← t.asInt).toInt
  | .float => return ascii "float " ++ (← t.asFloat).text
  | .str => return ascii "string " ++ quoted (← t.text)
  | .bool => return ascii "boolean " ++ ascii (if ← t.asBool then "true" else "false")
  | tag => .ok (ascii tag.name)

/-- The value of a literal, and unknown for any other token. -/
def value (t : Tagged) : Except Fault Value :=
  match t.tag with
  | .int => return .scalar (.int (← t.asInt))
  | .float => return .scalar (.float (← t.asFloat))
  | .str => return .scalar (.str (← t.text))
  | .bool => return .scalar (.bool (← t.asBool))
  | _ => .ok .unknown

/-- The value of a literal as JSON, and null for any other token. -/
def json (t : Tagged) : Except Fault Json :=
  match t.tag with
  | .int => return .int (← t.asInt).toInt
  | .float => return .float (← t.asFloat)
  | .str => return .str (← t.text)
  | .bool => return .bool (← t.asBool)
  | _ => .ok .null

end Tagged

/-! ## §4. Lexemes with a tag -/

/-- A constant with its tag. -/
def Literal.tagged : Literal → Tagged
  | int n => ⟨.int, .int n⟩
  | float x => ⟨.float, .float x⟩
  | str s => ⟨.str, .text s⟩
  | bool b => ⟨.bool, .bool b⟩

/-- A lexeme with its tag, and with the payload that it carries. -/
def Lexeme.tagged : Lexeme → Tagged
  | eof => ⟨.eof, .none⟩
  | ident name => ⟨.ident, .text name⟩
  | literal v => v.tagged
  | word w => ⟨.word w, .none⟩
  | mark m => ⟨.mark m, .none⟩

def Token.tagged (t : Token) : TaggedToken := ⟨t.lexeme.tagged, t.pos⟩

namespace Tagged

/-- A payload that goes with its tag is that of a lexeme. -/
theorem isSound_iff (t : Tagged) : t.isSound = true ↔ ∃ l : Lexeme, l.tagged = t := by
  constructor
  · intro h
    -- each tag allows payloads of one form
    obtain ⟨tag, payload⟩ := t
    cases tag with
    | eof =>
      cases payload with
      | none => exact ⟨.eof, rfl⟩
      | _ => cases h
    | ident =>
      cases payload with
      | text s => exact ⟨.ident s, rfl⟩
      | _ => cases h
    | int =>
      cases payload with
      | int n => exact ⟨.literal (.int n), rfl⟩
      | _ => cases h
    | float =>
      cases payload with
      | float x => exact ⟨.literal (.float x), rfl⟩
      | _ => cases h
    | str =>
      cases payload with
      | text s => exact ⟨.literal (.str s), rfl⟩
      | _ => cases h
    | bool =>
      cases payload with
      | bool b => exact ⟨.literal (.bool b), rfl⟩
      | _ => cases h
    | word w =>
      cases payload with
      | none => exact ⟨.word w, rfl⟩
      | _ => cases h
    | mark m =>
      cases payload with
      | none => exact ⟨.mark m, rfl⟩
      | _ => cases h
  · rintro ⟨l, rfl⟩
    cases l with
    | literal v => cases v <;> rfl
    | _ => rfl

theorem source_tagged (l : Lexeme) : l.tagged.source = .ok l.source := by
  cases l with
  | literal v =>
    cases v with
    | bool b => cases b <;> rfl
    | _ => rfl
  | _ => rfl

theorem describe_tagged (l : Lexeme) : l.tagged.describe = .ok l.describe := by
  cases l with
  | literal v =>
    cases v with
    | bool b => cases b <;> rfl
    | _ => rfl
  | _ => rfl

theorem value_tagged (l : Lexeme) : l.tagged.value = .ok (Value.ofLexeme l) := by
  cases l with
  | literal v => cases v <;> rfl
  | _ => rfl

theorem json_tagged (l : Lexeme) :
    l.tagged.json = .ok (Json.ofOption (l.literal?.map Json.ofLiteral)) := by
  cases l with
  | literal v => cases v <;> rfl
  | _ => rfl

theorem literalType?_tagged (v : Literal) : v.tagged.tag.literalType? = some (Ty.ofLiteral v) := by
  cases v <;> rfl

/-- Whatever is said about a sound token is said without a fault. -/
theorem answers {t : Tagged} (h : t.isSound = true) :
    (∃ text, t.source = .ok text) ∧ (∃ text, t.describe = .ok text)
      ∧ (∃ v, t.value = .ok v) ∧ ∃ j, t.json = .ok j := by
  obtain ⟨l, rfl⟩ := (isSound_iff t).mp h
  exact ⟨⟨_, source_tagged l⟩, ⟨_, describe_tagged l⟩, ⟨_, value_tagged l⟩, ⟨_, json_tagged l⟩⟩

end Tagged

/-! ## §5. Values through tokens -/

namespace Value

mutual
/-- A value as source text: each constant in it is made a token, which is written. -/
def writing : Value → Except Fault Bytes
  | unknown => .ok (ascii "<unknown>")
  | scalar v => v.tagged.source
  | list items => return ascii "[" ++ (← writingItems items) ++ ascii "]"

def writingItems : List Value → Except Fault Bytes
  | [] => .ok []
  | [v] => v.writing
  | v :: vs => return (← v.writing) ++ ascii ", " ++ (← writingItems vs)
end

/-- A value as messages speak of it, its constants written through tokens. -/
def naming (v : Value) : Except Fault Bytes := return ascii v.shape ++ ascii " " ++ (← v.writing)

mutual
theorem writing_eq (v : Value) : v.writing = .ok v.text := by
  cases v with
  | unknown => rw [writing, text]
  | scalar v =>
    rw [writing, text]
    exact Tagged.source_tagged (.literal v)
  | list items =>
    rw [writing, text, writingItems_eq items]
    rfl

theorem writingItems_eq (items : List Value) : writingItems items = .ok (textItems items) := by
  cases items with
  | nil => rw [writingItems, textItems]
  | cons v vs =>
    cases vs with
    | nil => rw [writingItems, textItems, writing_eq v]
    | cons w vs =>
      rw [writingItems, textItems, writing_eq v, writingItems_eq (w :: vs)]
      · rfl
      · exact List.cons_ne_nil _ _
      · exact List.cons_ne_nil _ _
end

theorem naming_eq (v : Value) : v.naming = .ok v.named := by
  rw [naming, writing_eq]
  rfl

end Value
end Lumen
