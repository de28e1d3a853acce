/-
  Lumen.Proofs.Lexing.Lines — texts with a line feed between them.

  A line feed ends every piece that it does not stand inside.  A word, a number and
  a mark do not go on with it, a comment stops in front of it, and a string that has
  been closed is not opened again.  So a piece of a text is the same piece where a
  line feed and anything else follow the text, although the scanner looks past the
  end of what it takes.

  The other text is then cut as if it stood alone.  It only starts further down: its
  places have more bytes and more lines before them, but the columns are its own,
  since columns count from the last line feed.

  Main statements:
    * `scanAt_line` — a piece before a line feed is the piece at the end of a text;
    * `tokensFrom_line` — so is what is read of a text, piece by piece;
    * `tokensFrom_below` — reading does not ask where a text starts;
    * `tokenize_lines` — the tokens, or the error, of two texts on lines of their own.
-/
import Lumen.Proofs.Lexing.Faults

namespace Lumen

/-! ## §1. Places further down -/

/-- A place of a text when the text stands below another one, from which a line feed
    divides it. -/
def Pos.below (above : Bytes) (p : Pos) : Pos :=
  ⟨p.offset + (above.length + 1), p.line + (1 + above.count Byte.lineFeed), p.col⟩

/-- A token of a text when the text stands below another one. -/
def Token.below (above : Bytes) (t : Token) : Token := { t with pos := t.pos.below above }

/-- An error of a text when the text stands below another one. -/
def LexError.below (above : Bytes) (e : LexError) : LexError :=
  { e with pos := e.pos.below above }

/-- What is read of a text when the text stands below another one. -/
def readBelow (above : Bytes) (r : Except LexError (List Token)) : Except LexError (List Token) :=
  (r.map (List.map (Token.below above))).mapError (LexError.below above)

theorem Pos.step_below (above : Bytes) (p : Pos) (b : UInt8) :
    (p.below above).step b = (p.step b).below above := by
  unfold step below
  split
  · simp only [Pos.mk.injEq, and_true]
    omega
  · simp only [Pos.mk.injEq, and_true]
    omega

/-- The second text starts at the beginning of a line. -/
theorem Pos.below_start (above : Bytes) :
    start.below above = start.advance (above ++ [Byte.lineFeed]) := by
  rw [advance_append, advance_start, advance_cons, advance_nil]
  show _ = Pos.step _ Byte.lineFeed
  unfold step below start after
  rw [if_pos (by decide)]
  simp only [Pos.mk.injEq, and_true]
  omega

/-- Reading does not ask where a text starts. -/
theorem tokensFrom_below (above : Bytes) (taken : Nat) (p : Pos) (text : Bytes) :
    tokensFrom taken (p.below above) text = readBelow above (tokensFrom taken p text) := by
  induction text generalizing taken p with
  | nil =>
    rw [tokensFrom_nil, tokensFrom_nil]
    rfl
  | cons b rest ih =>
    cases taken with
    | succ taken => rw [tokensFrom_cons_taken, tokensFrom_cons_taken, p.step_below, ih]
    | zero =>
      cases hscan : scanAt b rest with
      | gap more => rw [tokensFrom_cons_gap _ hscan, tokensFrom_cons_gap _ hscan, p.step_below, ih]
      | lexeme l more =>
        rw [tokensFrom_cons_lexeme _ hscan, tokensFrom_cons_lexeme _ hscan, p.step_below, ih]
        cases tokensFrom more (p.step b) rest <;> rfl
      | bad kind text =>
        rw [tokensFrom_cons_bad _ hscan, tokensFrom_cons_bad _ hscan]
        rfl

/-! ## §2. Pieces in front of a line feed -/

section
variable (rest after : Bytes)

/-- A byte that is no line feed comes first just where it does without what follows. -/
theorem head?_line {c : UInt8} (hc : c ≠ Byte.lineFeed) :
    (rest ++ Byte.lineFeed :: after).head? = some c ↔ rest.head? = some c := by
  cases rest with
  | nil => simp [hc.symm]
  | cons d rest => rfl

/-- A run of bytes of a class that has no line feed ends in front of one. -/
theorem takeWhile_line {p : UInt8 → Bool} (hp : p Byte.lineFeed = false) :
    (rest ++ Byte.lineFeed :: after).takeWhile p = rest.takeWhile p := by
  rw [List.takeWhile_append]
  split
  · next hall =>
    rw [List.takeWhile_cons, hp, if_neg (by decide), List.append_nil]
    exact ((List.takeWhile_prefix p).eq_of_length hall).symm
  · rfl

theorem numberRun_line : numberRun (rest ++ Byte.lineFeed :: after) = numberRun rest := by
  induction rest with
  | nil =>
    rw [List.nil_append, numberRun.eq_def]
    exact if_neg (by simp [Byte.isDigit, Byte.lineFeed, Byte.dot])
  | cons b rest ih =>
    have hhead : ((rest ++ Byte.lineFeed :: after).head? != some Byte.dot)
        = (rest.head? != some Byte.dot) := by
      rw [Bool.eq_iff_iff, bne_iff_ne, bne_iff_ne, Ne, Ne, head?_line rest after (by decide)]
    rw [List.cons_append, numberRun, numberRun, hhead, ih]

/-- A string that is closed is read up to its quote, whatever follows. -/
theorem stringBody?_append {found : Bytes × Nat} (h : stringBody? rest = some found) :
    stringBody? (rest ++ after) = some found := by
  obtain ⟨value, n⟩ := found
  obtain ⟨body, left, rfl, hlength, hdecodes⟩ := decodes_of_stringBody? h
  rw [List.append_assoc, List.cons_append, stringBody?_of_decodes hdecodes, ← hlength]

theorem Mark.lineFeed_notMem (m : Mark) : Byte.lineFeed ∉ m.bytes := by cases m <;> decide

/-- A text that has no line feed starts what stands before one, if it starts anything
    of it. -/
theorem prefix_line {s : Bytes} (hs : Byte.lineFeed ∉ s)
    (h : s <+: rest ++ Byte.lineFeed :: after) : s <+: rest := by
  obtain hshort | ⟨more, rfl⟩ := List.prefix_or_prefix_of_prefix h (List.prefix_append rest _)
  · exact hshort
  · cases more with
    | nil => simp only [List.append_nil, List.prefix_rfl]
    | cons c more =>
      -- what goes on after `rest` goes on with the line feed
      obtain ⟨rfl, -⟩ := List.cons_prefix_cons.mp ((List.prefix_append_right_inj rest).mp h)
      exact absurd (List.mem_append_right rest List.mem_cons_self) hs

/-- No mark goes on with a line feed, so the same one is found. -/
theorem firstOf_line : Mark.firstOf (rest ++ Byte.lineFeed :: after) = Mark.firstOf rest := by
  unfold Mark.firstOf
  congr 1
  funext m
  rw [Bool.eq_iff_iff, List.isPrefixOf_iff_prefix, List.isPrefixOf_iff_prefix]
  exact ⟨prefix_line rest after m.lineFeed_notMem, fun h => h.trans (List.prefix_append _ _)⟩

end

/-- **Pieces end before a line feed.**  What is taken at a byte is taken there too
    where a line feed and anything else follow the text. -/
theorem scanAt_line {b : UInt8} {rest : Bytes} {n : Nat} (h : (scanAt b rest).more? = some n)
    (after : Bytes) : scanAt b (rest ++ Byte.lineFeed :: after) = scanAt b rest := by
  obtain hblank | ⟨rfl, hhead⟩ | hword | hdigit | rfl | hmark := piece_cases b rest
  · rw [scanAt_blank hblank, scanAt_blank hblank]
  · rw [scanAt_comment hhead, scanAt_comment ((head?_line rest after (by decide)).mpr hhead),
      takeWhile_line rest after (by decide)]
  · rw [scanAt_word hword, scanAt_word hword, takeWhile_line rest after (by decide)]
  · rw [scanAt_number hdigit, scanAt_number hdigit, numberRun_line]
  · rw [scanAt_quote] at h ⊢
    rw [scanAt_quote]
    cases hbody : stringBody? rest with
    | none =>
      -- a string that is not closed is no piece
      rw [hbody] at h
      cases h
    | some found => rw [stringBody?_append rest _ hbody]
  · have hmark' : StartsMark b (rest ++ Byte.lineFeed :: after) :=
      { hmark with
        comment := fun hb hhead =>
          hmark.comment hb ((head?_line rest after (by decide)).mp hhead) }
    rw [hmark.scanAt] at h ⊢
    rw [hmark'.scanAt, ← List.cons_append, firstOf_line]
    cases hm : Mark.firstOf (b :: rest) with
    | none =>
      rw [hm] at h
      cases h
    | some m => rfl

/-! ## §3. Texts on lines of their own -/

/-- A text that falls into tokens is read to its end where a line feed follows it, and
    then reading goes on after the line feed.  By induction on the length of the text,
    of which every piece takes at least one byte. -/
theorem tokensFrom_line {p : Pos} {text : Bytes} {tokens : List Token}
    (h : tokensFrom 0 p text = .ok tokens) (after : Bytes) :
    ∃ front, tokens = front ++ [⟨.eof, p.advance text⟩]
      ∧ tokensFrom 0 p (text ++ Byte.lineFeed :: after)
        = (tokensFrom 0 (p.advance (text ++ [Byte.lineFeed])) after).map (front ++ ·) := by
  induction hn : text.length using Nat.strongRecOn generalizing p text tokens with
  | ind n ih =>
    cases text with
    | nil =>
      rw [tokensFrom_nil] at h
      obtain rfl := Except.ok.inj h
      refine ⟨[], rfl, ?_⟩
      rw [List.nil_append, tokensFrom_cons_gap p (scanAt_blank (by decide) after)]
      show tokensFrom 0 (p.step Byte.lineFeed) after
        = (tokensFrom 0 (p.step Byte.lineFeed) after).map ([] ++ ·)
      cases tokensFrom 0 (p.step Byte.lineFeed) after <;> rfl
    | cons b rest =>
      cases hmore : (scanAt b rest).more? with
      | none =>
        cases hscan : scanAt b rest with
        | gap more | lexeme l more =>
          rw [hscan] at hmore
          cases hmore
        | bad kind text =>
          rw [tokensFrom_cons_bad p hscan] at h
          cases h
      | some more =>
        -- a piece, and what is left after it
        have hsame := scanAt_line hmore after
        obtain ⟨tail, left, rfl, rfl⟩ := tail_of_more? hmore
        rw [tokensFrom_cons_more p hmore, tokensFrom_append] at h
        cases hleft : tokensFrom 0 ((p.step b).advance tail) left with
        | error e =>
          rw [hleft] at h
          cases h
        | ok others =>
          rw [hleft] at h
          obtain rfl := Except.ok.inj h
          rw [List.length_cons, List.length_append] at hn
          obtain ⟨front, rfl, hgo⟩ := ih left.length (by omega) hleft rfl
          refine ⟨(scanAt b (tail ++ left)).tokensAt p ++ front, ?_, ?_⟩
          · rw [Pos.advance_cons, Pos.advance_append, List.append_assoc]
          · have hplace : p.advance (b :: (tail ++ left) ++ [Byte.lineFeed])
                = ((p.step b).advance tail).advance (left ++ [Byte.lineFeed]) := by
              rw [List.cons_append, Pos.advance_cons, List.append_assoc, Pos.advance_append]
            rw [← hsame] at hmore
            rw [List.cons_append, tokensFrom_cons_more p hmore, hsame, List.append_assoc,
              tokensFrom_append, hgo, hplace]
            generalize tokensFrom 0 (((p.step b).advance tail).advance (left ++ [Byte.lineFeed]))
              after = r
            cases r with
            | error e => rfl
            | ok last => exact congrArg Except.ok (List.append_assoc _ _ _).symm

/-- **Texts on lines of their own are read one by one.**  Where a text falls into
    tokens, and a line feed and another text follow it, the tokens are those of the
    first text without the end token, and then those of the second text, further down
    by the bytes and the lines of the first, and in the same columns.  If the second
    text has an error, so has the whole, of the same kind and with the same text, at
    the place that is further down by as much. -/
theorem tokenize_lines {above : Bytes} {tokens : List Token} (h : tokenize above = .ok tokens)
    (text : Bytes) :
    ∃ front last, tokens = front ++ [last] ∧ last.lexeme = .eof
      ∧ (∀ t ∈ front, t.lexeme ≠ .eof)
      ∧ (∀ others, tokenize text = .ok others →
        tokenize (above ++ Byte.lineFeed :: text)
          = .ok (front ++ others.map fun t =>
              ⟨t.lexeme, t.pos.offset + (above.length + 1),
                t.pos.line + (1 + above.count Byte.lineFeed), t.pos.col⟩))
      ∧ ∀ e, tokenize text = .error e →
        tokenize (above ++ Byte.lineFeed :: text)
          = .error ⟨e.kind, e.text, e.pos.offset + (above.length + 1),
              e.pos.line + (1 + above.count Byte.lineFeed), e.pos.col⟩ := by
  obtain ⟨front, htokens, hgo⟩ := tokensFrom_line h text
  -- the end token stands last in a tiling, and nowhere else
  obtain ⟨front', last, htokens', heof, -, hfront⟩ := (tokenize_tiles h).2.1
  obtain ⟨rfl, -⟩ := List.append_inj' (htokens'.symm.trans htokens) rfl
  rw [← Pos.below_start, tokensFrom_below] at hgo
  refine ⟨front', last, htokens', heof, hfront, ?_, ?_⟩
  · intro others hothers
    have hread : tokensFrom 0 .start text = .ok others := hothers
    rw [hread] at hgo
    exact hgo
  · intro e he
    have hread : tokensFrom 0 .start text = .error e := he
    rw [hread] at hgo
    exact hgo

/-- A comment, a string with a line feed of its own and a number that ends with a dot;
    then a number after a dot, and then a character that there is not. -/
theorem tokenize_lines_dots :
    tokenize (ascii "x//=\n\"\n\" 7." ++ Byte.lineFeed :: ascii ".5")
        = .ok [⟨.ident (ascii "x"), ⟨0, 1, 1⟩⟩, ⟨.literal (.str [10]), ⟨5, 2, 1⟩⟩,
          ⟨.literal (.float ⟨0x401c000000000000⟩), ⟨9, 3, 3⟩⟩, ⟨.mark .dot, ⟨12, 4, 1⟩⟩,
          ⟨.literal (.int 5), ⟨13, 4, 2⟩⟩, ⟨.eof, ⟨14, 4, 3⟩⟩]
      ∧ tokenize (ascii "x//=\n\"\n\" 7." ++ Byte.lineFeed :: ascii ".\n @")
        = .error ⟨.unexpectedCharacter, ascii "@", ⟨15, 5, 2⟩⟩ := by
  have habove : tokenize (ascii "x//=\n\"\n\" 7.")
      = .ok [⟨.ident (ascii "x"), ⟨0, 1, 1⟩⟩, ⟨.literal (.str [10]), ⟨5, 2, 1⟩⟩,
          ⟨.literal (.float ⟨0x401c000000000000⟩), ⟨9, 3, 3⟩⟩, ⟨.eof, ⟨11, 3, 5⟩⟩] := by
    decide +kernel
  have hbelow : tokenize (ascii ".5")
      = .ok [⟨.mark .dot, ⟨0, 1, 1⟩⟩, ⟨.literal (.int 5), ⟨1, 1, 2⟩⟩, ⟨.eof, ⟨2, 1, 3⟩⟩] := by
    decide +kernel
  have hbad : tokenize (ascii ".\n @") = .error ⟨.unexpectedCharacter, ascii "@", ⟨3, 2, 2⟩⟩ := by
    decide +kernel
  obtain ⟨front, last, htokens, -, -, hok, -⟩ := tokenize_lines habove (ascii ".5")
  obtain ⟨-, -, -, -, -, -, herror⟩ := tokenize_lines habove (ascii ".\n @")
  -- the tokens of the first text but the last
  have hfront := congrArg List.dropLast htokens
  rw [List.dropLast_concat] at hfront
  subst hfront
  exact ⟨hok _ hbelow, herror _ hbad⟩

end Lumen
