/-
  Lumen.Proofs.Lexing.RoundTrip — text that falls into the lexemes it was made of.

  Each legible lexeme is scanned whole before a blank, and a blank itself is
  passed over.  So legible lexemes with blanks between them are read one after
  the other.  What is read from a text is legible in turn, but for its doubles.

  Main statements:
    * `tokensFrom_spaced` — legible lexemes with blanks between them are read
      as themselves;
    * `legible_of_scanAt` — what is scanned in a text is legible, but for its
      doubles;
    * `ReadBefore` — a text that is read as some lexemes in front of another;
    * `tokenize_joined` — the round trip, for lexemes and for source texts.
-/
import Lumen.Proofs.Lexing.Legible

namespace Lumen

/-! ## §1. Lexemes with blanks between them -/

/-- A legible lexeme is the first that is read, and reading goes on after it. -/
theorem tokensFrom_source {l : Lexeme} (h : l.Legible) {rest : Bytes} (hrest : AfterLexeme rest)
    (p : Pos) :
    tokensFrom 0 p (l.source ++ rest)
      = (tokensFrom 0 (p.advance l.source) rest).map (⟨l, p⟩ :: ·) := by
  obtain ⟨b, tail, hsource, hscan⟩ := scanAt_source h hrest
  rw [hsource, List.cons_append, tokensFrom_cons_lexeme p hscan, tokensFrom_append,
    Pos.advance_cons]

theorem tokensFrom_space (p : Pos) (rest : Bytes) :
    tokensFrom 0 p (Byte.space :: rest) = tokensFrom 0 (p.step Byte.space) rest :=
  tokensFrom_cons_gap p rfl

/-- The text of some lexemes with a blank between each two. -/
def spaced (ls : List Lexeme) : Bytes := joinWith [Byte.space] (ls.map Lexeme.source)

theorem spaced_cons_cons (l l' : Lexeme) (ls : List Lexeme) :
    spaced (l :: l' :: ls) = l.source ++ Byte.space :: spaced (l' :: ls) := by
  rw [spaced, List.map_cons, List.map_cons, joinWith_cons, List.append_assoc]
  rfl

/-- Legible lexemes with blanks between them are read as themselves. -/
theorem tokensFrom_spaced {ls : List Lexeme} (h : ∀ l ∈ ls, l.Legible) {tail : Bytes}
    (htail : tail = [] ∨ tail = [Byte.space]) (p : Pos) :
    ∃ tokens, tokensFrom 0 p (spaced ls ++ tail) = .ok tokens
      ∧ tokens.map Token.lexeme = ls ++ [.eof] := by
  -- a blank at the end is passed over
  have hend : ∀ p, ∃ q, tokensFrom 0 p tail = .ok [⟨.eof, q⟩] := by
    intro p
    rcases htail with rfl | rfl
    · exact ⟨p, tokensFrom_nil 0 p⟩
    · exact ⟨_, (tokensFrom_space p []).trans (tokensFrom_nil 0 _)⟩
  have hafter : AfterLexeme tail := by
    rcases htail with rfl | rfl
    · exact .nil
    · exact .space []
  induction ls generalizing p with
  | nil =>
    obtain ⟨q, hq⟩ := hend p
    exact ⟨_, hq, rfl⟩
  | cons l ls ih =>
    have hl := h l List.mem_cons_self
    cases ls with
    | nil =>
      obtain ⟨q, hq⟩ := hend (p.advance l.source)
      refine ⟨[⟨l, p⟩, ⟨.eof, q⟩], ?_, rfl⟩
      rw [show spaced [l] = l.source from rfl, tokensFrom_source hl hafter, hq]
      rfl
    | cons l' ls =>
      obtain ⟨tokens, htokens, hlex⟩ :=
        ih (fun m hm => h m (List.mem_cons_of_mem l hm)) ((p.advance l.source).step Byte.space)
      refine ⟨⟨l, p⟩ :: tokens, ?_, by rw [List.map_cons, hlex]; rfl⟩
      rw [spaced_cons_cons, List.append_assoc, List.cons_append, tokensFrom_source hl (.space _),
        tokensFrom_space, htokens]
      rfl

/-! ## §2. What was read is legible -/

theorem legible_wordLexeme {s : Bytes} (h : isName s = true) : (wordLexeme s).Legible := by
  unfold wordLexeme
  split
  · trivial
  · next htrue =>
    split
    · trivial
    · next hfalse =>
      split
      · trivial
      · next hnone =>
        refine ⟨h, ?_⟩
        rw [isReserved, hnone]
        simpa using And.intro htrue hfalse

theorem legible_numberLiteral? {run : Bytes} {v : Literal} (h : numberLiteral? run = some v)
    (hfloat : ∀ x, v = .float x → x.ReadsBack) : (Lexeme.literal v).Legible := by
  unfold numberLiteral? at h
  split at h
  · split at h
    · next hlt =>
      obtain rfl := Option.some.inj h
      show 0 ≤ (Int64.ofNat (ofDigits run)).toInt
      rw [Int64.toInt_ofNat_of_lt hlt]
      exact Int.natCast_nonneg _
    · cases h
  · obtain ⟨x, -, rfl⟩ := Option.map_eq_some_iff.mp h
    exact hfloat x rfl
  · cases h

/-- What is scanned in a text is legible, but for its doubles. -/
theorem legible_of_scanAt {b : UInt8} {rest : Bytes} {l : Lexeme} {more : Nat}
    (h : scanAt b rest = .lexeme l more) (hfloat : ∀ x, l = .literal (.float x) → x.ReadsBack) :
    l.Legible := by
  obtain hblank | ⟨rfl, hslash⟩ | hword | hdigit | rfl | hmark := piece_cases b rest
  -- blanks and comments are no lexemes
  · rw [scanAt_blank hblank] at h
    cases h
  · rw [scanAt_comment hslash] at h
    cases h
  · rw [scanAt_word hword] at h
    cases h
    apply legible_wordLexeme
    rw [isName, hword, List.all_takeWhile]
    rfl
  · rw [scanAt_number hdigit] at h
    split at h
    · next v hv =>
      cases h
      exact legible_numberLiteral? hv fun x hx => hfloat x (congrArg Lexeme.literal hx)
    · cases h
  -- strings and marks are always legible
  · rw [scanAt_quote] at h
    split at h <;> cases h
    trivial
  · rw [hmark.scanAt] at h
    split at h <;> cases h
    trivial

/-- Reading gives lexemes that were scanned, and the end token after them. -/
theorem lexemes_of_tokensFrom {taken : Nat} {p : Pos} {s : Bytes} {tokens : List Token}
    (h : tokensFrom taken p s = .ok tokens) :
    ∃ ls, tokens.map Token.lexeme = ls ++ [.eof]
      ∧ ∀ l ∈ ls, ∃ b rest more, scanAt b rest = .lexeme l more := by
  induction s generalizing taken p tokens with
  | nil =>
    rw [tokensFrom_nil] at h
    obtain rfl := Except.ok.inj h
    exact ⟨[], rfl, fun l hl => absurd hl List.not_mem_nil⟩
  | cons b rest ih =>
    -- inside a lexeme or a gap nothing is scanned
    cases taken with
    | succ taken => exact ih (tokensFrom_cons_taken taken p b rest ▸ h)
    | zero =>
      cases hscan : scanAt b rest with
      | gap more => exact ih (tokensFrom_cons_gap p hscan ▸ h)
      | bad kind text =>
        rw [tokensFrom_cons_bad p hscan] at h
        cases h
      | lexeme l more =>
        obtain ⟨others, rfl, hothers⟩ := tokens_of_scanAt hscan h
        obtain ⟨ls, hls, hscanned⟩ := ih hothers
        refine ⟨l :: ls, by rw [List.map_cons, hls]; rfl, ?_⟩
        intro m hm
        rcases List.mem_cons.mp hm with rfl | hm
        · exact ⟨b, rest, more, hscan⟩
        · exact hscanned m hm

/-! ## §3. A text in front of another -/

/-- Whether a text is read as some lexemes where `rest` follows it, wherever it stands. -/
def ReadBefore (rest s : Bytes) (ls : List Lexeme) : Prop :=
  ∀ p, ∃ tokens : List Token, tokens.map Token.lexeme = ls
    ∧ tokensFrom 0 p (s ++ rest) = (tokensFrom 0 (p.advance s) rest).map (tokens ++ ·)

section
variable {rest s t : Bytes} {ls ms : List Lexeme}

theorem ReadBefore.append (hs : ReadBefore (t ++ rest) s ls) (ht : ReadBefore rest t ms) :
    ReadBefore rest (s ++ t) (ls ++ ms) := by
  intro p
  obtain ⟨first, hfirst, hreads⟩ := hs p
  obtain ⟨second, hsecond, hreads'⟩ := ht (p.advance s)
  refine ⟨first ++ second, by rw [List.map_append, hfirst, hsecond], ?_⟩
  rw [List.append_assoc, hreads, hreads', Pos.advance_append]
  cases tokensFrom 0 ((p.advance s).advance t) rest with
  | error e => rfl
  | ok tokens => exact congrArg Except.ok (List.append_assoc first second tokens).symm

/-- A lexeme that is scanned whole in front of `rest`. -/
theorem readBefore_of_scanAt {b : UInt8} {l : Lexeme}
    (h : scanAt b (s ++ rest) = .lexeme l s.length) : ReadBefore rest (b :: s) [l] := by
  intro p
  refine ⟨[⟨l, p⟩], rfl, ?_⟩
  rw [List.cons_append, tokensFrom_cons_lexeme p h, tokensFrom_append, Pos.advance_cons]
  rfl

end

/-! ## §4. The round trip -/

theorem Lexeme.Legible.source_ne_nil {l : Lexeme} (h : l.Legible) : l.source ≠ [] := by
  obtain ⟨b, tail, hsource, -⟩ := scanAt_source h .nil
  rw [hsource]
  exact List.cons_ne_nil b tail

/-- A lexeme's text after a blank. -/
def afterSpace (l : Lexeme) : Bytes := Byte.space :: l.source

theorem spaced_cons (l : Lexeme) (ls : List Lexeme) :
    spaced (l :: ls) = l.source ++ ls.flatMap afterSpace := by
  induction ls generalizing l with
  | nil => exact (List.append_nil _).symm
  | cons l' ls ih =>
    rw [spaced_cons_cons, ih, List.flatMap_cons]
    rfl

/-- Once there is some text, every token is put after a blank. -/
theorem foldl_joined {text : Bytes} (h : text ≠ []) (tokens : List Token) :
    tokens.foldl (fun text t => if text.isEmpty then t.lexeme.source
        else text ++ Byte.space :: t.lexeme.source) text
      = text ++ (tokens.map Token.lexeme).flatMap afterSpace := by
  induction tokens generalizing text with
  | nil => exact (List.append_nil text).symm
  | cons t tokens ih =>
    have hne : text ++ Byte.space :: t.lexeme.source ≠ [] :=
      List.append_ne_nil_of_left_ne_nil h _
    rw [List.foldl_cons, if_neg (by simpa using h), ih hne, List.map_cons, List.flatMap_cons,
      List.append_assoc]
    rfl

/-- The joined text of legible lexemes and the end token. -/
theorem joinedSource_eq {tokens : List Token} {ls : List Lexeme} (h : ∀ l ∈ ls, l.Legible)
    (htokens : tokens.map Token.lexeme = ls ++ [.eof]) :
    ∃ tail, (tail = [] ∨ tail = [Byte.space]) ∧ Token.joinedSource tokens = spaced ls ++ tail := by
  obtain ⟨t, others, rfl⟩ : ∃ t others, tokens = t :: others := by
    cases tokens with
    | nil => simp at htokens
    | cons t others => exact ⟨t, others, rfl⟩
  -- the end token has no text, but a blank before it if it is not alone
  cases ls with
  | nil =>
    obtain ⟨ht, hothers⟩ := List.cons.inj htokens
    rw [List.map_eq_nil_iff.mp hothers]
    exact ⟨[], .inl rfl, congrArg Lexeme.source ht⟩
  | cons l ls =>
    rw [List.map_cons, List.cons_append] at htokens
    obtain ⟨ht, hothers⟩ := List.cons.inj htokens
    have hne : t.lexeme.source ≠ [] := ht ▸ (h l List.mem_cons_self).source_ne_nil
    refine ⟨[Byte.space], .inr rfl, ?_⟩
    show (others.foldl _ t.lexeme.source : Bytes) = _
    rw [foldl_joined hne, hothers, spaced_cons, List.flatMap_append, ht, List.append_assoc]
    rfl

/-- **Canonical text reads back.**  Legible lexemes, written with a blank
    between each two and perhaps one at the end, are read as just these lexemes
    and the end token.  So the tokens of any source text, all of whose doubles
    read back, are the tokens of their joined texts. -/
theorem tokenize_joined :
    (∀ ls : List Lexeme, (∀ l ∈ ls, l.Legible) →
      ∀ tail : Bytes, tail = [] ∨ tail = [Byte.space] →
        ∃ tokens, tokenize (spaced ls ++ tail) = .ok tokens
          ∧ tokens.map Token.lexeme = ls ++ [.eof])
    ∧ ∀ (source : Bytes) (tokens : List Token), tokenize source = .ok tokens →
        (∀ x, .literal (.float x) ∈ tokens.map Token.lexeme → x.ReadsBack) →
        ∃ again, tokenize (Token.joinedSource tokens) = .ok again
          ∧ again.map Token.lexeme = tokens.map Token.lexeme := by
  refine ⟨fun ls hls tail htail => tokensFrom_spaced hls htail .start, ?_⟩
  intro source tokens htokens hfloats
  obtain ⟨ls, hls, hscanned⟩ := lexemes_of_tokensFrom htokens
  have hlegible : ∀ l ∈ ls, l.Legible := by
    intro l hl
    obtain ⟨b, rest, more, hscan⟩ := hscanned l hl
    refine legible_of_scanAt hscan fun x hx => hfloats x ?_
    rw [hls, ← hx]
    exact List.mem_append_left _ hl
  obtain ⟨tail, htail, hjoined⟩ := joinedSource_eq hlegible hls
  obtain ⟨again, hagain, hlex⟩ := tokensFrom_spaced hlegible htail .start
  exact ⟨again, hjoined ▸ hagain, hlex.trans hls.symm⟩

/-- Two and a half. -/
def twoAndAHalf : Binary64 := ⟨0x4004000000000000⟩

theorem readsBack_twoAndAHalf : twoAndAHalf.ReadsBack := by
  have htext : twoAndAHalf.text = ascii "2.5" := by decide +kernel
  refine ⟨[⟨.literal (.float twoAndAHalf), {}⟩, ⟨.eof, ⟨3, 1, 4⟩⟩], ?_, rfl⟩
  rw [htext]
  rfl

/-- Two slashes that are no comment, a number before two dots, a double, and a
    string with a quote, a backslash, a line feed, a NUL and an ill-formed byte. -/
theorem tokenize_joined_mixed :
    (∃ tokens, tokenize (spaced [.mark .slash, .mark .slash, .literal (.int 7), .mark .dotDot,
          .literal (.float twoAndAHalf), .literal (.str [34, 92, 10, 0, 255]), .word .end_]
          ++ [Byte.space]) = .ok tokens
        ∧ tokens.map Token.lexeme = [.mark .slash, .mark .slash, .literal (.int 7), .mark .dotDot,
          .literal (.float twoAndAHalf), .literal (.str [34, 92, 10, 0, 255]), .word .end_, .eof])
    ∧ ∃ again, tokenize (Token.joinedSource
          [⟨.literal (.float twoAndAHalf), {}⟩, ⟨.eof, ⟨3, 1, 4⟩⟩]) = .ok again
        ∧ again.map Token.lexeme = [.literal (.float twoAndAHalf), .eof] := by
  constructor
  · refine tokenize_joined.1 [.mark .slash, .mark .slash, .literal (.int 7), .mark .dotDot,
      .literal (.float twoAndAHalf), .literal (.str [34, 92, 10, 0, 255]), .word .end_] ?_
      [Byte.space] (.inr rfl)
    simp only [List.forall_mem_cons, Lexeme.Legible, true_and]
    exact ⟨by decide, readsBack_twoAndAHalf, fun l hl => absurd hl List.not_mem_nil⟩
  · refine tokenize_joined.2 (ascii "2.5") [⟨.literal (.float twoAndAHalf), {}⟩, ⟨.eof, ⟨3, 1, 4⟩⟩]
      rfl ?_
    intro x hx
    obtain rfl : x = twoAndAHalf := by simpa using hx
    exact readsBack_twoAndAHalf

end Lumen
