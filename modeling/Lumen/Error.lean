/-
  Lumen.Error — what can be wrong with a source text.

  An error is its cause: what was wanted, what was met, and where.  Every
  wording is derived from the cause here and nowhere else.  What a binding
  refuses is a cause of its own, though it is worded like the errors that are
  found in the text: only such an error can be without a place, when a caller
  stores a value by itself.

  Main statements:
    * `ParseError.found?_unexpected_eof` — the end of the text is never
      reported as a token that was found;
    * `ParseError.message_refused_misfit` — a value that does not fit is worded
      like any other mismatch.
-/
import Lumen.Value

namespace Lumen

/-- A message with its line and column in front, if they are known. -/
def report (pos : Option Pos) (message : Bytes) : Bytes :=
  match pos with
  | none => message
  | some p =>
    ascii "[line " ++ decimal p.line ++ ascii ":" ++ decimal p.col ++ ascii "] " ++ message

/-! ## §1. Errors of the text -/

/-- The ways in which a text can fail to fall into tokens. -/
inductive LexErrorKind where
  | invalidNumber
  | unterminatedString
  | unexpectedCharacter
deriving DecidableEq, Repr

/-- A text that does not fall into tokens: the piece to blame and its place. -/
structure LexError where
  kind : LexErrorKind
  text : Bytes
  pos : Pos
deriving DecidableEq, Repr

/-- The name of a kind of error. -/
def LexErrorKind.name : LexErrorKind → String
  | invalidNumber => "invalid-number"
  | unterminatedString => "unterminated-string"
  | unexpectedCharacter => "unexpected-character"

namespace LexError

/-- The message, without the place. -/
def message (e : LexError) : Bytes :=
  match e.kind with
  | .invalidNumber => ascii "invalid number literal '" ++ e.text ++ ascii "'"
  | .unterminatedString => ascii "unterminated string literal"
  | .unexpectedCharacter =>
    ascii "unexpected character '" ++ e.text ++ ascii "' at index " ++ decimal e.pos.offset

/-- The message with the place in front. -/
def what (e : LexError) : Bytes := report (some e.pos) e.message

end LexError

/-! ## §2. What was wanted and what was met -/

/-- What the grammar wants at a place. -/
inductive Expected where
  | word (w : Word)
  | mark (m : Mark)
  | statement
  | endOfStatement
  | expression
  | type
  | variableName
  | loopVariable
  | functionName
  | parameterName
  | methodName
deriving DecidableEq, Repr

def Expected.text : Expected → Bytes
  | word w => (Lexeme.word w).describe
  | mark m => (Lexeme.mark m).describe
  | statement => ascii "statement"
  | endOfStatement => ascii "end of statement"
  | expression => ascii "expression"
  | type => ascii "type"
  | variableName => ascii "variable name"
  | loopVariable => ascii "loop variable name"
  | functionName => ascii "function name"
  | parameterName => ascii "parameter name"
  | methodName => ascii "method name"

/-- What the types want of an expression. -/
inductive Wanted where
  | type (t : Ty)
  | numeric
  | ordered
  | list
deriving DecidableEq, Repr

def Wanted.text : Wanted → Bytes
  | type t => ascii t.text
  | numeric => ascii "int or float"
  | ordered => ascii "int, float or string"
  | list => ascii "list"

/-- What stands in its place: an expression of some type, a literal, or a list
    literal. -/
inductive Got where
  | type (t : Ty)
  | literal (v : Literal)
  | list
deriving DecidableEq, Repr

def Got.text : Got → Bytes
  | type t => ascii t.text
  | literal v => (Value.scalar v).named
  | list => ascii "list"

/-- Why a binding does not take a value: there is no binding of the name, or
    some part of the value does not fit its type. -/
inductive Refusal where
  | unbound
  | misfit (declared : Ty) (part : Value)
deriving Repr

/-! ## §3. Errors of the program -/

/-- A token list that is no program, a program that is not well typed, or a
    value that a binding refuses.  The token met at the end of a list is
    missing. -/
inductive ParseError where
  | unexpected (expected : Expected) (met : Option Token)
  | unknownStatement (met : Token)
  | strayTerminator (met : Token)
  | undeclared (name : Bytes) (pos : Pos)
  | mismatch (name : Bytes) (wanted : Wanted) (got : Got) (pos : Pos)
  | duplicateFunction (name : Bytes) (pos : Pos)
  | arity (name : Bytes) (expected found : Nat) (pos : Pos)
  | refused (name : Bytes) (why : Refusal) (pos : Option Pos)
deriving Repr

namespace ParseError

/-- The name of an error's kind. -/
def kindName : ParseError → String
  | unexpected _ _ => "unexpected-token"
  | unknownStatement _ => "unknown-statement"
  | strayTerminator _ => "malformed-block"
  | undeclared _ _ | refused _ .unbound _ => "undeclared-variable"
  | mismatch _ _ _ _ | refused _ (.misfit _ _) _ => "type-mismatch"
  | duplicateFunction _ _ => "duplicate-function"
  | arity _ _ _ _ => "arity-mismatch"

/-- The place of an error, if it has one. -/
def pos? : ParseError → Option Pos
  | unexpected _ met => met.map Token.pos
  | unknownStatement met => some met.pos
  | strayTerminator met => some met.pos
  | undeclared _ pos => some pos
  | mismatch _ _ _ pos => some pos
  | duplicateFunction _ pos => some pos
  | arity _ _ _ pos => some pos
  | refused _ _ pos => pos

/-- The token that was found in the wrong place; the end of the text counts as
    none. -/
def found? : ParseError → Option Token
  | unexpected _ met => met.filter fun t => !t.isEof
  | unknownStatement met => some met
  | strayTerminator met => some met
  | _ => none

/-- What was wanted, in words; empty where nothing in particular was. -/
def expectedText : ParseError → Bytes
  | unexpected expected _ => expected.text
  | unknownStatement _ => ascii "statement"
  | strayTerminator _ => ascii "statement"
  | mismatch _ wanted _ _ => wanted.text
  | arity _ expected _ _ => decimal expected
  | refused _ (.misfit declared _) _ => (Wanted.type declared).text
  | _ => []

/-- What was found, in words; empty where nothing in particular was. -/
def foundText : ParseError → Bytes
  | e@(unexpected _ _) =>
    match e.found? with
    | some t => t.lexeme.describe
    | none => Lexeme.eof.describe
  | unknownStatement met => met.lexeme.describe
  | strayTerminator met => met.lexeme.describe
  | mismatch _ _ got _ => got.text
  | arity _ _ found _ => decimal found
  | refused _ (.misfit _ part) _ => part.named
  | _ => []

/-- The name an error is about; empty if it is about none. -/
def name : ParseError → Bytes
  | undeclared name _ => name
  | mismatch name _ _ _ => name
  | duplicateFunction name _ => name
  | arity name _ _ _ => name
  | refused name _ _ => name
  | _ => []

/-- The message, without the place. -/
def message (e : ParseError) : Bytes :=
  match e with
  | unexpected _ _ =>
    ascii "unexpected token: expected " ++ e.expectedText ++ ascii ", found " ++ e.foundText
  | unknownStatement _ => ascii "unrecognized statement starting with " ++ e.foundText
  | strayTerminator _ => e.foundText ++ ascii " without an open block"
  | undeclared name _ | refused name .unbound _ =>
    ascii "undeclared variable '" ++ name ++ ascii "'"
  | mismatch name _ _ _ | refused name (.misfit _ _) _ =>
    ascii "type mismatch" ++ (if name.isEmpty then [] else ascii " for '" ++ name ++ ascii "'")
      ++ ascii ": expected " ++ e.expectedText ++ ascii ", found " ++ e.foundText
  | duplicateFunction name _ => ascii "function '" ++ name ++ ascii "' is already defined"
  | arity name _ _ _ =>
    ascii "function '" ++ name ++ ascii "' takes " ++ e.expectedText ++ ascii " argument(s), "
      ++ e.foundText ++ ascii " given"

/-- The message with the place in front. -/
def what (e : ParseError) : Bytes := report e.pos? e.message

theorem found?_unexpected_eof (expected : Expected) (pos : Pos) :
    (unexpected expected (some ⟨.eof, pos⟩)).found? = none := rfl

theorem message_refused_misfit (name : Bytes) (declared : Ty) (v : Literal) (pos : Pos) :
    (refused name (.misfit declared (.scalar v)) (some pos)).message
      = (mismatch name (.type declared) (.literal v) pos).message := rfl

end ParseError

/-! ## §4. How a run can fail -/

/-- Why a run ended without a result.  Only an error in the program, and an
    attempt to leave the global scope, can happen; the last two mark what the
    parser's own bookkeeping rules out. -/
inductive Failure where
  | error (e : ParseError)
  | globalScope
  | pastEnd
  | outOfSteps
deriving Repr

/-- What a failure says, without a place. -/
def Failure.message : Failure → Bytes
  | error e => e.message
  | globalScope => ascii "cannot pop the global scope"
  | pastEnd => ascii "no token left to read"
  | outOfSteps => ascii "no step left to take"

end Lumen
