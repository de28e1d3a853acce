/-
  Lumen.Token.Scan — from source text to tokens.

  A text is cut from left to right.  At each byte that no earlier piece has
  taken, `scanAt` tells what stands there: a gap, a lexeme or an error, and how
  many further bytes belong to it.  `tokensFrom` walks over the bytes one by
  one, moving the place along and passing over the bytes already taken.

  Words are the longest runs of ASCII letters, digits and underscores.  A
  number is the longest run of digits and dots, except that two dots in a row
  end it before the first.  Of the marks the longest one wins.  A string ends
  at the next quote that no backslash escapes; a backslash before any byte but
  `"`, `\`, `n` and `t` stands for itself.

  Main statements:
    * `tokensFrom_nil` — a text ends with the end token, at its place;
    * `tokensFrom_cons_gap` / `tokensFrom_cons_lexeme` — what a gap and a lexeme
      add to the tokens of the rest.
-/
import Lumen.Token
import Lumen.Error
import Lumen.Trace
import Lumen.Options
import Lumen.Binary64.Reading

namespace Lumen

/-! ## §1. Pieces -/

/-- What stands at a byte: a gap, a lexeme, or an error; the first two with the
    number of bytes after the first one. -/
inductive Scanned where
  | gap (more : Nat)
  | lexeme (l : Lexeme) (more : Nat)
  | bad (kind : LexErrorKind) (text : Bytes)
deriving DecidableEq, Repr

/-- The lexeme that a run of word bytes spells. -/
def wordLexeme (run : Bytes) : Lexeme :=
  if run == ascii "true" then .literal (.bool true)
  else if run == ascii "false" then .literal (.bool false)
  else match Word.ofSpelling? run with
    | some w => .word w
    | none => .ident run

/-- The longest run of digits and dots, up to two dots in a row. -/
def numberRun : Bytes → Bytes
  | [] => []
  | b :: rest =>
    if Byte.isDigit b || (b == Byte.dot && rest.head? != some Byte.dot) then b :: numberRun rest
    else []

/-- The number that a run of digits and dots denotes: an integer below
    `2 ^ 63` without a dot, a double with one. -/
def numberLiteral? (run : Bytes) : Option Literal :=
  match run.count Byte.dot with
  | 0 => if ofDigits run < twoTo 63 then some (.int (Int64.ofNat (ofDigits run))) else none
  | 1 =>
    let whole := run.takeWhile (· != Byte.dot)
    let places := (run.dropWhile (· != Byte.dot)).drop 1
    (Binary64.ofDigits? (ofDigits (whole ++ places)) places.length).map .float
  | _ => none

/-- What a backslash before a byte stands for. -/
def unescaped (b : UInt8) : Bytes :=
  if b == Byte.quote || b == Byte.backslash then [b]
  else if b == 110 then [Byte.lineFeed]
  else if b == 116 then [Byte.tab]
  else [Byte.backslash, b]

/-- The string up to the closing quote, and how many bytes it takes with that
    quote; `none` if no quote closes it. -/
def stringBody? : Bytes → Option (Bytes × Nat)
  | [] => none
  | b :: rest =>
    if b == Byte.quote then some ([], 1)
    else if b == Byte.backslash then
      match rest with
      | [] => none
      | e :: rest => (stringBody? rest).map fun (s, n) => (unescaped e ++ s, n + 2)
    else (stringBody? rest).map fun (s, n) => (b :: s, n + 1)

theorem stringBody?_quote (rest : Bytes) : stringBody? (Byte.quote :: rest) = some ([], 1) := by
  rw [stringBody?.eq_def]
  rfl

theorem stringBody?_escape (e : UInt8) (rest : Bytes) :
    stringBody? (Byte.backslash :: e :: rest)
      = (stringBody? rest).map fun (s, n) => (unescaped e ++ s, n + 2) := by
  rw [stringBody?.eq_def]
  rfl

theorem stringBody?_plain {b : UInt8} (hq : (b == Byte.quote) = false)
    (hb : (b == Byte.backslash) = false) (rest : Bytes) :
    stringBody? (b :: rest) = (stringBody? rest).map fun (s, n) => (b :: s, n + 1) := by
  rw [stringBody?.eq_def]
  simp [hq, hb]

/-- How many bytes the encoded character has that a byte announces; one for a
    byte that announces nothing. -/
def announcedLength (lead : UInt8) : Nat :=
  if 0xF0 ≤ lead && lead < 0xF8 then 4
  else if 0xE0 ≤ lead && lead < 0xF0 then 3
  else if 0xC0 ≤ lead && lead < 0xE0 then 2
  else 1

/-- What stands at byte `b`, before `rest`. -/
def scanAt (b : UInt8) (rest : Bytes) : Scanned :=
  -- gaps: one blank at a time, or a comment up to the end of its line
  if Byte.isBlank b then .gap 0
  else if b == Byte.slash && rest.head? == some Byte.slash then
    .gap (rest.takeWhile (· != Byte.lineFeed)).length
  -- words and numbers: the longest run there is
  else if Byte.startsWord b then
    let tail := rest.takeWhile Byte.inWord
    .lexeme (wordLexeme (b :: tail)) tail.length
  else if Byte.isDigit b then
    let tail := numberRun rest
    match numberLiteral? (b :: tail) with
    | some v => .lexeme (.literal v) tail.length
    | none => .bad .invalidNumber (b :: tail)
  -- strings: up to the closing quote, or else the whole rest is to blame
  else if b == Byte.quote then
    match stringBody? rest with
    | some (s, n) => .lexeme (.literal (.str s)) n
    | none => .bad .unterminatedString (b :: rest)
  -- marks: all that is left; what is no mark is one character too many
  else match Mark.firstOf (b :: rest) with
    | some m => .lexeme (.mark m) (m.bytes.length - 1)
    | none => .bad .unexpectedCharacter ((b :: rest).take (announcedLength b))

/-! ## §2. Tokens -/

/-- The tokens of a text that starts at `p`, of which the first `taken` bytes
    belong to what came before. -/
def tokensFrom : (taken : Nat) → Pos → Bytes → Except LexError (List Token)
  | _, p, [] => .ok [⟨.eof, p⟩]
  | taken + 1, p, b :: rest => tokensFrom taken (p.step b) rest
  | 0, p, b :: rest =>
    match scanAt b rest with
    | .gap more => tokensFrom more (p.step b) rest
    | .lexeme l more => (tokensFrom more (p.step b) rest).map (⟨l, p⟩ :: ·)
    | .bad kind text => .error ⟨kind, text, p⟩

/-- The tokens of a source text, the last of which is its end. -/
def tokenize (source : Bytes) : Except LexError (List Token) := tokensFrom 0 .start source

/-- The tokens of a source text, and what a traced run notes about them. -/
def tokenizeTraced (o : Options) (source : Bytes) : Except LexError (List Token × Trace) :=
  (tokenize source).map fun tokens =>
    (tokens, if o.trace then #[.lexed tokens.length source.length] else #[])

theorem tokensFrom_nil (taken : Nat) (p : Pos) : tokensFrom taken p [] = .ok [⟨.eof, p⟩] := by
  rw [tokensFrom]

theorem tokensFrom_cons_taken (taken : Nat) (p : Pos) (b : UInt8) (rest : Bytes) :
    tokensFrom (taken + 1) p (b :: rest) = tokensFrom taken (p.step b) rest := by
  rw [tokensFrom]

theorem tokensFrom_cons_gap {b : UInt8} {rest : Bytes} {more : Nat} (p : Pos)
    (h : scanAt b rest = .gap more) :
    tokensFrom 0 p (b :: rest) = tokensFrom more (p.step b) rest := by
  rw [tokensFrom, h]

theorem tokensFrom_cons_lexeme {b : UInt8} {rest : Bytes} {l : Lexeme} {more : Nat} (p : Pos)
    (h : scanAt b rest = .lexeme l more) :
    tokensFrom 0 p (b :: rest) = (tokensFrom more (p.step b) rest).map (⟨l, p⟩ :: ·) := by
  rw [tokensFrom, h]

theorem tokensFrom_cons_bad {b : UInt8} {rest : Bytes} {kind : LexErrorKind} {text : Bytes}
    (p : Pos) (h : scanAt b rest = .bad kind text) :
    tokensFrom 0 p (b :: rest) = .error ⟨kind, text, p⟩ := by
  rw [tokensFrom, h]

end Lumen
