/-
  Lumen.Trace — the record of a run.

  A traced run notes when a text has been cut into tokens, when a statement at
  top level begins, when scopes are entered and left, when a function is
  registered, and what a whole parse has found.  Each event is one line with
  its stage in front.

  Main statements:
    * `text_push` — the text of a record grows by one line for
      each event.
-/
import Lumen.Token

namespace Lumen

/-- Something that a traced run notes. -/
inductive Event where
  | lexed (tokens bytes : Nat)
  | statement (line : Nat) (first : Lexeme)
  | entered (depth : Nat)
  | left (depth : Nat)
  | registered (name : Bytes) (arity : Nat)
  | parsed (statements functions : Nat)
deriving DecidableEq, Repr

/-- The events of a run, in order. -/
abbrev Trace := Array Event

namespace Event

/-- The stage an event belongs to. -/
def stage : Event → String
  | lexed _ _ => "lex"
  | statement _ _ | parsed _ _ => "parse"
  | entered _ | left _ => "scope"
  | registered _ _ => "fn"

/-- What an event says. -/
def message : Event → Bytes
  | lexed tokens bytes =>
    decimal tokens ++ ascii " token(s) from " ++ decimal bytes ++ ascii " byte(s)"
  | statement line first =>
    ascii "statement at line " ++ decimal line ++ ascii " starting with " ++ first.describe
  | entered depth => ascii "push (depth " ++ decimal depth ++ ascii ")"
  | left depth => ascii "pop (depth " ++ decimal depth ++ ascii ")"
  | registered name arity => ascii "registered " ++ name ++ ascii "/" ++ decimal arity
  | parsed statements functions =>
    decimal statements ++ ascii " top-level statement(s), " ++ decimal functions
      ++ ascii " function(s)"

/-- An event as a line, with the line feed that ends it. -/
def line (e : Event) : Bytes :=
  ascii "[lumen:" ++ ascii e.stage ++ ascii "] " ++ e.message ++ [Byte.lineFeed]

end Event

namespace Trace

/-- The lines of a record. -/
def text (t : Trace) : Bytes := t.toList.flatMap Event.line

theorem text_push (t : Trace) (e : Event) : text (t.push e) = text t ++ e.line := by
  simp [text]

end Trace
end Lumen
