/-
  Lumen.Host — the front end as a host program sees it.

  A host hands in a source text and takes back a code and a JSON value: the
  diagnostics of the text, or its program, or its functions.  A source text
  ends at its first NUL byte, and the switches come from the environment.
  Strings in the JSON are well-formed UTF-8 in any case.

  Main statements:
    * `untilNul_of_notMem` — a text without NUL is taken whole.
-/
import Lumen.Parse.Stmt
import Lumen.Token.Scan
import Lumen.Program.Json

namespace Lumen.Host

/-! ## §1. Source texts -/

/-- A text up to its first NUL byte. -/
def untilNul (s : Bytes) : Bytes := s.takeWhile (· != 0)

theorem untilNul_of_notMem {s : Bytes} (h : (0 : UInt8) ∉ s) : untilNul s = s := by
  induction s with
  | nil => rfl
  | cons b s ih =>
    have hb : b ≠ 0 := fun he => h (by simp [he])
    have hs : (0 : UInt8) ∉ s := fun hm => h (by simp [hm])
    rw [untilNul, List.takeWhile_cons_of_pos (by simpa using hb)]
    exact congrArg (b :: ·) (ih hs)

/-- Why a source text has no program. -/
inductive Problem where
  | lexical (e : LexError)
  | failed (f : Failure)

/-- The program of a source text, and the record of the run. -/
def read (o : Options) (source : Bytes) : Except Problem Program × Trace :=
  match tokenizeTraced o source with
  | .error e => (.error (.lexical e), #[])
  | .ok (tokens, trace) =>
    match Parse.program o { cursor := .ofTokens tokens, trace } with
    | .ok p s => (.ok p, s.trace)
    | .error f s => (.error (.failed f), s.trace)

/-! ## §2. Replies -/

/-- A diagnostic; one without a place is at line and column 0. -/
def diagnostic (kind : String) (message : Bytes) (pos : Option Pos) : Json :=
  .obj
    [("message", .str message), ("kind", .word kind),
      ("line", .nat ((pos.map Pos.line).getD 0)), ("col", .nat ((pos.map Pos.col).getD 0))]

/-- The object that holds diagnostics. -/
def diagnostics (items : List Json) : Json := .obj [("diagnostics", .arr items)]

/-- What a host can ask for. -/
inductive Query where
  | check
  | program
  | symbols
deriving DecidableEq, Repr

/-- The functions at top level, with their numbers of parameters. -/
def symbols (p : Program) : Json :=
  .obj
    [("functions", .arr (p.filterMap fun
      | .fn _ name params _ => some (.obj [("name", .str name), ("arity", .nat params.length)])
      | _ => none))]

/-- What a query gives for a program. -/
def Query.result (q : Query) (p : Program) : Json :=
  match q with
  | check => diagnostics []
  | program => p.toJson
  | symbols => Host.symbols p

/-- What a host takes back. -/
structure Reply where
  code : Nat
  json : Option Json := none
  error : Option Bytes := none
  trace : Trace := #[]

/-- A program was found. -/
def codeOk : Nat := 0

/-- The source or a place for the results was missing. -/
def codeMissing : Nat := 1

/-- The run broke off for a reason that does not lie in the text. -/
def codeBroken : Nat := 3

/-- The text has diagnostics. -/
def codeDiagnostics : Nat := 4

/-- The reply to a query about the outcome of a run. -/
def reply (q : Query) : Except Problem Program × Trace → Reply
  | (.ok p, trace) => { code := codeOk, json := some (q.result p).repaired, trace }
  | (.error (.lexical e), trace) =>
    { code := codeDiagnostics, trace
      json := some (diagnostics [diagnostic e.kind.name e.message (some e.pos)]).repaired }
  | (.error (.failed (.error e)), trace) =>
    { code := codeDiagnostics, trace
      json := some (diagnostics [diagnostic e.kindName e.message e.pos?]).repaired }
  | (.error (.failed f), trace) => { code := codeBroken, error := some f.message, trace }

/-- Answers a query.  The two switches tell whether the host has given a place
    for the JSON and one for an error text. -/
def answer (settings : List (Bytes × Bytes)) (q : Query) (source : Option Bytes)
    (takesJson takesError : Bool) : Reply :=
  match source with
  | none => { code := codeMissing }
  | some s =>
    if takesJson && takesError then
      reply q (read (.ofEnvironment settings) (untilNul s))
    else { code := codeMissing }

end Lumen.Host
