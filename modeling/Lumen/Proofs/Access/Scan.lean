/-
  Lumen.Proofs.Access.Scan — tokens with their tags, off a text.

  A scanner of this kind chooses a tag and a payload for each piece of the text, each on
  its own.  It gives what the scanner of lexemes gives, with tags put on; so the payload of
  every token that is scanned goes with its tag.

  Main statements:
    * `taggedAt_eq`, `taggedFrom_eq` — one piece, and a whole text;
    * `isSound_of_taggedFrom` — the tokens of a text are sound.
-/
import Lumen.Proofs.Access.Tagged
import Lumen.Token.Scan

namespace Lumen

/-! ## §1. Pieces -/

/-- What stands at a byte: a gap, a tag with a payload, or an error. -/
inductive TaggedScanned where
  | gap (more : Nat)
  | tagged (t : Tagged) (more : Nat)
  | bad (kind : LexErrorKind) (text : Bytes)

/-- A piece with a tag on its lexeme. -/
def Scanned.tagged : Scanned → TaggedScanned
  | gap more => .gap more
  | lexeme l more => .tagged l.tagged more
  | bad kind text => .bad kind text

/-- What a run of word bytes is: a truth value, a reserved word, or a name with its text. -/
def taggedWord (run : Bytes) : Tagged :=
  if run == ascii "true" || run == ascii "false" then ⟨.bool, .bool (run == ascii "true")⟩
  else match Word.ofSpelling? run with
    | some w => ⟨.word w, .none⟩
    | none => ⟨.ident, .text run⟩

/-- What a run of digits and dots is: an integer without a dot, a double with one. -/
def taggedNumber? (run : Bytes) : Option Tagged :=
  match run.count Byte.dot with
  | 0 =>
    if ofDigits run < twoTo 63 then some ⟨.int, .int (Int64.ofNat (ofDigits run))⟩ else none
  | 1 =>
    let whole := run.takeWhile (· != Byte.dot)
    let places := (run.dropWhile (· != Byte.dot)).drop 1
    (Binary64.ofDigits? (ofDigits (whole ++ places)) places.length).map fun x =>
      ⟨.float, .float x⟩
  | _ => none

/-- What stands at byte `b`, before `rest`. -/
def taggedAt (b : UInt8) (rest : Bytes) : TaggedScanned :=
  if Byte.isBlank b then .gap 0
  else if b == Byte.slash && rest.head? == some Byte.slash then
    .gap (rest.takeWhile (· != Byte.lineFeed)).length
  else if Byte.startsWord b then
    let tail := rest.takeWhile Byte.inWord
    .tagged (taggedWord (b :: tail)) tail.length
  else if Byte.isDigit b then
    let tail := numberRun rest
    match taggedNumber? (b :: tail) with
    | some t => .tagged t tail.length
    | none => .bad .invalidNumber (b :: tail)
  else if b == Byte.quote then
    match stringBody? rest with
    | some (s, n) => .tagged ⟨.str, .text s⟩ n
    | none => .bad .unterminatedString (b :: rest)
  else match Mark.firstOf (b :: rest) with
    | some m => .tagged ⟨.mark m, .none⟩ (m.bytes.length - 1)
    | none => .bad .unexpectedCharacter ((b :: rest).take (announcedLength b))

theorem taggedWord_eq (run : Bytes) : taggedWord run = (wordLexeme run).tagged := by
  unfold taggedWord wordLexeme
  cases run == ascii "true" with
  | true => rfl
  | false =>
    cases run == ascii "false" with
    | true => rfl
    | false => cases Word.ofSpelling? run <;> rfl

theorem taggedNumber?_eq (run : Bytes) :
    taggedNumber? run = (numberLiteral? run).map Literal.tagged := by
  unfold taggedNumber? numberLiteral?
  rcases run.count Byte.dot with _ | _ | dots
  · by_cases hfits : ofDigits run < twoTo 63
    · simp [hfits, Literal.tagged]
    · simp [hfits]
  · simp [Function.comp_def, Literal.tagged]
  · rfl

theorem taggedAt_eq (b : UInt8) (rest : Bytes) : taggedAt b rest = (scanAt b rest).tagged := by
  unfold taggedAt scanAt
  simp only [taggedWord_eq, taggedNumber?_eq]
  split
  · rfl
  · split
    · rfl
    · split
      · rfl
      · split
        · cases numberLiteral? (b :: numberRun rest) <;> rfl
        · split
          · cases stringBody? rest <;> rfl
          · cases Mark.firstOf (b :: rest) <;> rfl

/-! ## §2. Texts -/

/-- The tokens of a text that starts at `p`, of which the first `taken` bytes belong to what
    came before. -/
def taggedFrom : (taken : Nat) → Pos → Bytes → Except LexError (List TaggedToken)
  | _, p, [] => .ok [⟨⟨.eof, .none⟩, p⟩]
  | taken + 1, p, b :: rest => taggedFrom taken (p.step b) rest
  | 0, p, b :: rest =>
    match taggedAt b rest with
    | .gap more => taggedFrom more (p.step b) rest
    | .tagged t more => (taggedFrom more (p.step b) rest).map (⟨t, p⟩ :: ·)
    | .bad kind text => .error ⟨kind, text, p⟩

theorem taggedFrom_eq (taken : Nat) (p : Pos) (s : Bytes) :
    taggedFrom taken p s = (tokensFrom taken p s).map (List.map Token.tagged) := by
  induction s generalizing taken p with
  | nil => rw [taggedFrom, tokensFrom]; rfl
  | cons b rest ih =>
    cases taken with
    | succ taken => rw [taggedFrom, tokensFrom, ih]
    | zero =>
      rw [taggedFrom, tokensFrom, taggedAt_eq]
      cases scanAt b rest with
      | gap more => exact ih more (p.step b)
      | bad kind text => rfl
      | lexeme l more =>
        dsimp only [Scanned.tagged]
        rw [ih]
        cases tokensFrom more (p.step b) rest <;> rfl

/-- The payload of every token of a text goes with its tag. -/
theorem isSound_of_taggedFrom {taken : Nat} {p : Pos} {s : Bytes} {ts : List TaggedToken}
    (h : taggedFrom taken p s = .ok ts) : ∀ t ∈ ts, t.content.isSound = true := by
  rw [taggedFrom_eq] at h
  cases htokens : tokensFrom taken p s with
  | error e =>
    rw [htokens] at h
    cases h
  | ok tokens =>
    rw [htokens] at h
    obtain rfl := Except.ok.inj h
    intro t ht
    obtain ⟨u, -, rfl⟩ := List.mem_map.mp ht
    exact (Tagged.isSound_iff _).mpr ⟨u.lexeme, rfl⟩

end Lumen
