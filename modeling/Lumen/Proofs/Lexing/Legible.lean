/-
  Lumen.Proofs.Lexing.Legible — lexemes that their own text is read as.

  A lexeme is legible if its text alone is read as that lexeme.  Names that
  are spelled like names, integers that are not negative and all strings are
  legible; of a double this has to be asked.  A blank ends every lexeme, and so
  does a comma or a closing bracket, so what follows it never changes how a
  legible lexeme is scanned.

  What is scanned at a byte is told by what the byte starts, and there are six
  kinds of pieces to start.  Every proof about the scanner goes through them.

  Main statements:
    * `piece_cases` — the six kinds of pieces, by what they start with;
    * `stringBody?_quotedBody` — escapes are read back byte for byte;
    * `isNumeral_text_of_readsBack` — a double that reads back is written with
      digits and dots;
    * `scanAt_source` — a legible lexeme is scanned whole, whatever follows it
      after a blank, a comma or a closing bracket.
-/
import Lumen.Proofs.Lexing.Numeral

namespace Lumen

/-! ## §1. Legible lexemes -/

/-- Whether a text is spelled like a name: a letter or an underscore, and then
    letters, digits and underscores. -/
def isName : Bytes → Bool
  | [] => false
  | b :: rest => Byte.startsWord b && rest.all Byte.inWord

/-- Whether a word is taken: a truth value or a reserved word. -/
def isReserved (s : Bytes) : Bool :=
  s == ascii "true" || s == ascii "false" || (Word.ofSpelling? s).isSome

/-- A double whose text is read as that double, and as nothing else. -/
def Binary64.ReadsBack (x : Binary64) : Prop :=
  ∃ tokens, tokenize x.text = .ok tokens
    ∧ tokens.map Token.lexeme = [.literal (.float x), .eof]

/-- A lexeme whose text is read as that lexeme. -/
def Lexeme.Legible : Lexeme → Prop
  | eof => False
  | ident name => isName name = true ∧ isReserved name = false
  | literal (.int n) => 0 ≤ n.toInt
  | literal (.float x) => x.ReadsBack
  | _ => True

/-- Nothing, or a blank, a comma or a closing bracket and anything after it: no
    lexeme goes on into it. -/
inductive AfterLexeme : Bytes → Prop where
  | nil : AfterLexeme []
  | space (rest : Bytes) : AfterLexeme (Byte.space :: rest)
  | comma (rest : Bytes) : AfterLexeme (44 :: rest)
  | bracket (rest : Bytes) : AfterLexeme (93 :: rest)

theorem AfterLexeme.endsNumber {s : Bytes} (h : AfterLexeme s) : endsNumber s = true := by
  cases h <;> rfl

/-- A word ends where a lexeme does. -/
theorem AfterLexeme.takeWhile_append {s rest : Bytes} (h : AfterLexeme rest)
    (hs : s.all Byte.inWord = true) : (s ++ rest).takeWhile Byte.inWord = s := by
  have hall : ∀ b ∈ s, Byte.inWord b = true := List.all_eq_true.mp hs
  have hrest : rest.takeWhile Byte.inWord = [] := by cases h <;> rfl
  rw [List.takeWhile_append_of_pos hall, hrest, List.append_nil]

/-! ## §2. Classes of bytes are disjoint -/

/-- There are 256 bytes to look at. -/
theorem Byte.forall_of_fin {p : UInt8 → Bool} (h : ∀ n : Fin 256, p (UInt8.ofNat n) = true)
    (b : UInt8) : p b = true := by
  have hb := h ⟨b.toNat, b.toNat_lt⟩
  rwa [UInt8.ofNat_toNat] at hb

theorem Byte.separate_of_startsWord {b : UInt8} (h : Byte.startsWord b = true) :
    Byte.isBlank b = false ∧ (b == Byte.slash) = false := by
  have hall := Byte.forall_of_fin
    (p := fun b => !Byte.startsWord b || (!Byte.isBlank b && b != Byte.slash)) (by decide +kernel) b
  simpa [h] using hall

theorem Byte.separate_of_isDigit {b : UInt8} (h : Byte.isDigit b = true) :
    Byte.isBlank b = false ∧ (b == Byte.slash) = false ∧ Byte.startsWord b = false := by
  have hall := Byte.forall_of_fin
    (p := fun b => !Byte.isDigit b || (!Byte.isBlank b && b != Byte.slash && !Byte.startsWord b))
    (by decide +kernel) b
  simpa [h, and_assoc] using hall

/-! ## §3. What the scanner looks at -/

theorem scanAt_blank {b : UInt8} (hb : Byte.isBlank b = true) (rest : Bytes) :
    scanAt b rest = .gap 0 := if_pos hb

theorem scanAt_comment {rest : Bytes} (h : rest.head? = some Byte.slash) :
    scanAt Byte.slash rest = .gap (rest.takeWhile (· != Byte.lineFeed)).length := by
  have hcomment : (Byte.slash == Byte.slash && rest.head? == some Byte.slash) = true := by
    rw [h]
    decide
  exact (if_neg (by decide)).trans (if_pos hcomment)

/-- At a letter or an underscore the longest word is scanned. -/
theorem scanAt_word {b : UInt8} (hb : Byte.startsWord b = true) (rest : Bytes) :
    scanAt b rest = .lexeme (wordLexeme (b :: rest.takeWhile Byte.inWord))
      (rest.takeWhile Byte.inWord).length := by
  obtain ⟨hblank, hslash⟩ := Byte.separate_of_startsWord hb
  simp [scanAt, hblank, hslash, hb]

/-- At a digit the longest run of digits and dots is scanned. -/
theorem scanAt_number {b : UInt8} (hb : Byte.isDigit b = true) (rest : Bytes) :
    scanAt b rest = match numberLiteral? (b :: numberRun rest) with
      | some v => .lexeme (.literal v) (numberRun rest).length
      | none => .bad .invalidNumber (b :: numberRun rest) := by
  obtain ⟨hblank, hslash, hword⟩ := Byte.separate_of_isDigit hb
  have hcomment : (b == Byte.slash && rest.head? == some Byte.slash) = false := by
    rw [hslash, Bool.false_and]
  calc scanAt b rest
      = _ := if_neg (ne_true_of_eq_false hblank)
    _ = _ := if_neg (ne_true_of_eq_false hcomment)
    _ = _ := if_neg (ne_true_of_eq_false hword)
    _ = _ := if_pos hb

theorem scanAt_quote (rest : Bytes) :
    scanAt Byte.quote rest = match stringBody? rest with
      | some (s, n) => .lexeme (.literal (.str s)) n
      | none => .bad .unterminatedString (Byte.quote :: rest) := rfl

/-- A byte that starts none of the other pieces, and no comment before `rest`. -/
structure StartsMark (b : UInt8) (rest : Bytes) : Prop where
  blank : Byte.isBlank b = false
  comment : b = Byte.slash → rest.head? ≠ some Byte.slash
  word : Byte.startsWord b = false
  digit : Byte.isDigit b = false
  quote : b ≠ Byte.quote

theorem StartsMark.scanAt {b : UInt8} {rest : Bytes} (h : StartsMark b rest) :
    scanAt b rest = match Mark.firstOf (b :: rest) with
      | some m => .lexeme (.mark m) (m.bytes.length - 1)
      | none => .bad .unexpectedCharacter ((b :: rest).take (announcedLength b)) := by
  have hcomment : ¬ (b == Byte.slash && rest.head? == some Byte.slash) = true := by
    simpa using h.comment
  calc Lumen.scanAt b rest
      = _ := if_neg (ne_true_of_eq_false h.blank)
    _ = _ := if_neg hcomment
    _ = _ := if_neg (ne_true_of_eq_false h.word)
    _ = _ := if_neg (ne_true_of_eq_false h.digit)
    _ = _ := if_neg (by simpa using h.quote)

/-- The six kinds of pieces, by what they start with. -/
theorem piece_cases (b : UInt8) (rest : Bytes) :
    Byte.isBlank b = true ∨ b = Byte.slash ∧ rest.head? = some Byte.slash
      ∨ Byte.startsWord b = true ∨ Byte.isDigit b = true ∨ b = Byte.quote
      ∨ StartsMark b rest := by
  by_cases hblank : Byte.isBlank b = true
  · exact .inl hblank
  by_cases hcomment : b = Byte.slash ∧ rest.head? = some Byte.slash
  · exact .inr (.inl hcomment)
  by_cases hword : Byte.startsWord b = true
  · exact .inr (.inr (.inl hword))
  by_cases hdigit : Byte.isDigit b = true
  · exact .inr (.inr (.inr (.inl hdigit)))
  by_cases hquote : b = Byte.quote
  · exact .inr (.inr (.inr (.inr (.inl hquote))))
  · exact .inr (.inr (.inr (.inr (.inr
      ⟨eq_false_of_ne_true hblank, fun hb hhead => hcomment ⟨hb, hhead⟩,
        eq_false_of_ne_true hword, eq_false_of_ne_true hdigit, hquote⟩))))

/-! ## §4. Scanning one lexeme -/

theorem scanAt_name {b : UInt8} {tail rest : Bytes} (hname : isName (b :: tail) = true)
    (hrest : AfterLexeme rest) :
    scanAt b (tail ++ rest) = .lexeme (wordLexeme (b :: tail)) tail.length := by
  simp only [isName, Bool.and_eq_true] at hname
  rw [scanAt_word hname.1, hrest.takeWhile_append hname.2]

theorem wordLexeme_of_not_reserved {s : Bytes} (h : isReserved s = false) :
    wordLexeme s = .ident s := by
  simp only [isReserved, Bool.or_eq_false_iff, Option.isSome_eq_false_iff,
    Option.isNone_iff_eq_none] at h
  simp [wordLexeme, h.1.1, h.1.2, h.2]

theorem wordLexeme_spelling (w : Word) : wordLexeme (ascii w.spelling) = .word w := by
  cases w <;> decide

theorem isName_spelling (w : Word) : isName (ascii w.spelling) = true := by
  cases w <;> decide

/-- A byte that is escaped is read back as itself. -/
theorem stringBody?_escaped (b : UInt8) (rest : Bytes) :
    stringBody? (escaped b ++ rest)
      = (stringBody? rest).map fun (s, n) => (b :: s, n + (escaped b).length) := by
  unfold escaped
  split
  · -- the quote and the backslash stand for themselves after a backslash
    next hb =>
    rw [List.cons_append, List.cons_append, List.nil_append, stringBody?_escape]
    simp [unescaped, hb]
  · next hb =>
    simp only [Bool.or_eq_true, not_or, Bool.not_eq_true] at hb
    split
    · next hlf =>
      rw [beq_iff_eq] at hlf
      subst hlf
      exact stringBody?_escape 110 rest
    · split
      · next htab =>
        rw [beq_iff_eq] at htab
        subst htab
        exact stringBody?_escape 116 rest
      · exact stringBody?_plain hb.1 hb.2 rest

/-- The body of a quoted string is read back up to the quote that closes it. -/
theorem stringBody?_quotedBody (s rest : Bytes) :
    stringBody? (quotedBody s ++ Byte.quote :: rest) = some (s, (quotedBody s).length + 1) := by
  induction s with
  | nil => exact stringBody?_quote rest
  | cons b s ih =>
    rw [show quotedBody (b :: s) = escaped b ++ quotedBody s from rfl, List.append_assoc,
      stringBody?_escaped, ih, List.length_append]
    exact congrArg some (Prod.ext rfl (by simp only; omega))

theorem scanAt_quoted (s rest : Bytes) :
    scanAt Byte.quote ((quotedBody s ++ [Byte.quote]) ++ rest)
      = .lexeme (.literal (.str s)) (quotedBody s ++ [Byte.quote]).length := by
  have hbody : stringBody? ((quotedBody s ++ [Byte.quote]) ++ rest)
      = some (s, (quotedBody s ++ [Byte.quote]).length) := by
    rw [List.append_assoc, List.length_append]
    exact stringBody?_quotedBody s rest
  rw [scanAt_quote, hbody]

theorem scanAt_mark (m : Mark) {rest : Bytes} (hrest : AfterLexeme rest) :
    ∃ b tail, m.bytes = b :: tail ∧ scanAt b (tail ++ rest) = .lexeme (.mark m) tail.length := by
  cases hrest <;> cases m <;> exact ⟨_, _, rfl, rfl⟩

/-! ## §5. Scanning numbers -/

theorem count_dot_of_digits {s : Bytes} (hs : ∀ b ∈ s, Byte.isDigit b = true) :
    s.count Byte.dot = 0 := by
  rw [List.count_eq_zero]
  intro hmem
  exact absurd (hs _ hmem) (by decide)

/-- The digits of a natural number below `2 ^ 63` are an integer literal. -/
theorem numberLiteral?_decimal {n : Nat} (h : n < twoTo 63) :
    numberLiteral? (decimal n) = some (.int (Int64.ofNat n)) := by
  rw [numberLiteral?, count_dot_of_digits (isDigit_of_mem_decimal n)]
  simp [ofDigits_decimal, h]

theorem scanAt_int {n : Int64} (hn : 0 ≤ n.toInt) {rest : Bytes} (hrest : AfterLexeme rest) :
    ∃ b tail, (Literal.int n).text = b :: tail
      ∧ scanAt b (tail ++ rest) = .lexeme (.literal (.int n)) tail.length := by
  have htext : (Literal.int n).text = decimal n.toInt.natAbs := by
    rw [Literal.text, decimalInt, if_neg (by omega)]
  obtain ⟨b, tail, hcons⟩ := List.exists_cons_of_ne_nil (decimal_ne_nil n.toInt.natAbs)
  have hdigits := isDigit_of_mem_decimal n.toInt.natAbs
  rw [hcons] at hdigits
  -- the digits are one run, and they denote the number
  have hrun : numberRun (tail ++ rest) = tail :=
    numberRun_append (numberRun_of_digits fun c hc => hdigits c (List.mem_cons_of_mem b hc))
      hrest.endsNumber
  have hlt : n.toInt.natAbs < twoTo 63 := by
    have hmax := n.toInt_lt
    have htwo : twoTo 63 = 9223372036854775808 := by decide
    omega
  have hvalue : Int64.ofNat n.toInt.natAbs = n := by
    rw [← Int64.ofInt_eq_ofNat, Int.natAbs_of_nonneg hn, Int64.ofInt_toInt]
  refine ⟨b, tail, htext.trans hcons, ?_⟩
  rw [scanAt_number (hdigits b List.mem_cons_self), hrun, ← hcons, numberLiteral?_decimal hlt,
    hvalue]

/-! ## §6. Reading what was scanned -/

/-- The bytes that belong to an earlier lexeme are passed over. -/
theorem tokensFrom_append (s rest : Bytes) (p : Pos) :
    tokensFrom s.length p (s ++ rest) = tokensFrom 0 (p.advance s) rest := by
  induction s generalizing p with
  | nil => rfl
  | cons b s ih =>
    rw [List.length_cons, List.cons_append, tokensFrom_cons_taken, ih, Pos.advance_cons]

/-- Where a lexeme is scanned and reading goes on without an error, that lexeme
    is the first of the tokens. -/
theorem tokens_of_scanAt {b : UInt8} {rest : Bytes} {l : Lexeme} {more : Nat} {p : Pos}
    {tokens : List Token} (hscan : scanAt b rest = .lexeme l more)
    (h : tokensFrom 0 p (b :: rest) = .ok tokens) :
    ∃ others, tokens = ⟨l, p⟩ :: others ∧ tokensFrom more (p.step b) rest = .ok others := by
  rw [tokensFrom_cons_lexeme p hscan] at h
  cases hrest : tokensFrom more (p.step b) rest with
  | error e => rw [hrest] at h; cases h
  | ok others =>
    rw [hrest] at h
    exact ⟨others, (Except.ok.inj h).symm, rfl⟩

theorem wordLexeme_ne_float (s : Bytes) (x : Binary64) :
    wordLexeme s ≠ .literal (.float x) := by
  unfold wordLexeme
  intro h
  split at h
  · cases h
  · split at h
    · cases h
    · split at h <;> cases h

/-- No lexeme and no gap starts in the middle of a number but a number or a
    dot: what is left of a numeral is never read as nothing. -/
theorem tokensFrom_inNumber_ne_eof {c : UInt8} (hc : inNumber c = true) (rest : Bytes) (p : Pos)
    {tokens : List Token} (h : tokensFrom 0 p (c :: rest) = .ok tokens) :
    tokens.map Token.lexeme ≠ [.eof] := by
  rcases Bool.or_eq_true _ _ ▸ hc with hdigit | hdot
  · have hscan := scanAt_number hdigit rest
    cases hv : numberLiteral? (c :: numberRun rest) with
    | none =>
      rw [hv] at hscan
      rw [tokensFrom_cons_bad p hscan] at h
      cases h
    | some v =>
      rw [hv] at hscan
      obtain ⟨others, rfl, -⟩ := tokens_of_scanAt hscan h
      intro hlex
      cases hlex
  · -- what starts with a dot is a mark
    rw [beq_iff_eq] at hdot
    subst hdot
    have hstarts : StartsMark Byte.dot rest :=
      ⟨rfl, fun hslash => absurd hslash (by decide), rfl, rfl, by decide⟩
    have hscan := hstarts.scanAt
    cases hm : Mark.firstOf (Byte.dot :: rest) with
    | none =>
      rw [hm] at hscan
      rw [tokensFrom_cons_bad p hscan] at h
      cases h
    | some m =>
      rw [hm] at hscan
      obtain ⟨others, rfl, -⟩ := tokens_of_scanAt hscan h
      intro hlex
      cases hlex

/-- The text of a double that reads back is made of digits and dots: with a
    sign, or as a word, it would be read as something else. -/
theorem isNumeral_text_of_readsBack {x : Binary64} (h : x.ReadsBack) :
    isNumeral x.text = true := by
  obtain ⟨tokens, htokens, hlex⟩ := h
  -- whatever is scanned first must be the double itself
  have hfirst : ∀ (b : UInt8) (rest : Bytes) (l : Lexeme) (more : Nat), x.text = b :: rest →
      scanAt b rest = .lexeme l more → l = .literal (.float x) := by
    intro b rest l more htext hscan
    rw [tokenize, htext] at htokens
    obtain ⟨others, rfl, -⟩ := tokens_of_scanAt hscan htokens
    exact (List.cons.inj hlex).1
  cases hneg : x.isNegative with
  | true =>
    have htext : x.text = 45 :: x.unsignedText := by rw [Binary64.text, hneg, if_pos rfl]
    cases hfirst 45 _ (.mark .minus) 0 htext rfl
  | false =>
    have htext : x.text = x.unsignedText := by rw [Binary64.text, hneg]; rfl
    cases hnan : x.isNaN with
    | true =>
      have hword : x.text = ascii "nan.0" := by rw [htext, Binary64.unsignedText, hnan, if_pos rfl]
      exact absurd (hfirst _ _ _ _ hword (scanAt_word (by decide) _)) (wordLexeme_ne_float _ x)
    | false =>
      cases hinf : x.isInfinite with
      | true =>
        have hword : x.text = ascii "inf.0" := by
          rw [htext, Binary64.unsignedText, hnan, hinf, if_neg (by decide), if_pos rfl]
        exact absurd (hfirst _ _ _ _ hword (scanAt_word (by decide) _)) (wordLexeme_ne_float _ x)
      | false => exact htext ▸ isNumeral_unsignedText hnan hinf

/-- A double that reads back is scanned whole. -/
theorem scanAt_float {x : Binary64} (h : x.ReadsBack) {rest : Bytes} (hrest : AfterLexeme rest) :
    ∃ b tail, x.text = b :: tail
      ∧ scanAt b (tail ++ rest) = .lexeme (.literal (.float x)) tail.length := by
  have hnum := isNumeral_text_of_readsBack h
  obtain ⟨tokens, htokens, hlex⟩ := h
  cases htext : x.text with
  | nil => rw [htext] at hnum; cases hnum
  | cons b tail =>
    rw [htext] at hnum
    simp only [isNumeral, Bool.and_eq_true] at hnum
    rw [tokenize, htext] at htokens
    have hscan := scanAt_number hnum.1 tail
    cases hv : numberLiteral? (b :: numberRun tail) with
    | none =>
      rw [hv] at hscan
      rw [tokensFrom_cons_bad _ hscan] at htokens
      cases htokens
    | some v =>
      rw [hv] at hscan
      obtain ⟨others, rfl, hothers⟩ := tokens_of_scanAt hscan htokens
      obtain ⟨hfloat, hend⟩ := List.cons.inj hlex
      -- had the run stopped early, what is left would have been read as well
      have hsplit := numberRun_append_drop tail
      have hrun : numberRun tail = tail := by
        cases hleft : tail.drop (numberRun tail).length with
        | nil => rw [hleft, List.append_nil] at hsplit; exact hsplit
        | cons c left =>
          have hc : inNumber c = true := by
            have hmem : c ∈ tail.drop (numberRun tail).length := hleft ▸ List.mem_cons_self
            exact List.all_eq_true.mp hnum.2 c (List.mem_of_mem_drop hmem)
          rw [hleft] at hsplit
          have hgo : tokensFrom (numberRun tail).length (Pos.start.step b)
              (numberRun tail ++ c :: left) = .ok others := hsplit.symm ▸ hothers
          rw [tokensFrom_append] at hgo
          exact absurd hend (tokensFrom_inNumber_ne_eof hc left _ hgo)
      refine ⟨b, tail, rfl, ?_⟩
      rw [scanAt_number hnum.1, numberRun_append hrun hrest.endsNumber]
      rw [hrun] at hv
      rw [hv]
      exact congrArg (Scanned.lexeme · tail.length) hfloat

/-- A legible lexeme is scanned whole, whatever follows where no lexeme goes on. -/
theorem scanAt_source {l : Lexeme} (h : l.Legible) {rest : Bytes} (hrest : AfterLexeme rest) :
    ∃ b tail, l.source = b :: tail ∧ scanAt b (tail ++ rest) = .lexeme l tail.length := by
  -- names, reserved words and truth values are all spelled like names
  have hnamed : ∀ s : Bytes, isName s = true → wordLexeme s = l →
      ∃ b tail, s = b :: tail ∧ scanAt b (tail ++ rest) = .lexeme l tail.length := by
    intro s hs hl
    cases s with
    | nil => cases hs
    | cons b tail => exact ⟨b, tail, rfl, hl ▸ scanAt_name hs hrest⟩
  cases l with
  | ident name => exact hnamed name h.1 (wordLexeme_of_not_reserved h.2)
  | word w => exact hnamed _ (isName_spelling w) (wordLexeme_spelling w)
  | mark m => exact scanAt_mark m hrest
  | literal v =>
    cases v with
    | int n => exact scanAt_int h hrest
    | float x => exact scanAt_float h hrest
    | str s => exact ⟨Byte.quote, _, rfl, scanAt_quoted s rest⟩
    | bool b =>
      cases b with
      | true => exact hnamed (ascii "true") (by decide) (by decide)
      | false => exact hnamed (ascii "false") (by decide) (by decide)
  | eof => exact h.elim

end Lumen
