/-
  Lumen.Proofs.Lexing.Pieces — what a piece of a text is, and what it denotes.

  A text falls into gaps and runs.  This file says what each of them is without
  a word about how it is found: a gap is made of blanks and comments, a run is
  a word, a number, a string or a mark, and of words, numbers and marks it is
  the longest one that can stand where it begins.  The scanner is then shown to
  find such pieces and nothing else.

  Main statements:
    * `numberRun_longest` — a run of digits and dots ends before two dots, and
      only there or before another byte;
    * `decodes_of_stringBody?` — the body of a string ends at the first quote
      that no backslash escapes;
    * `gap_of_scanAt` / `denotes_of_scanAt` — what is scanned is a piece of a
      gap, or a run with what it denotes.
-/
import Lumen.Proofs.Lexing.Legible

namespace Lumen

/-! ## §1. Gaps -/

/-- A gap before some text: blanks and comments.  A comment goes on to the next
    line feed, or to the end of the text. -/
inductive Gap : (gap after : Bytes) → Prop where
  | nil {after : Bytes} : Gap [] after
  | blank {b : UInt8} {gap after : Bytes} (hb : Byte.isBlank b = true) (h : Gap gap after) :
      Gap (b :: gap) after
  | comment {body gap after : Bytes} (hbody : Byte.lineFeed ∉ body)
      (hend : ∀ b ∈ (gap ++ after).head?, b = Byte.lineFeed) (h : Gap gap after) :
      Gap (Byte.slash :: Byte.slash :: (body ++ gap)) after

/-! ## §2. Longest runs -/

/-- `run` belongs to a class of runs where `after` follows it, and so does no
    longer part of the text that begins with it. -/
structure Longest (Class : (run after : Bytes) → Prop) (run after : Bytes) : Prop where
  belongs : Class run after
  longest : ∀ more after', after = more ++ after' → Class (run ++ more) after' → more = []

/-- Words start with a letter or an underscore and go on with those and digits. -/
def IsWord (run _after : Bytes) : Prop := isName run = true

/-- Numbers start with a digit and go on with digits and dots; a dot that is
    followed by another one belongs to no number. -/
structure IsNumber (run after : Bytes) : Prop where
  isNumeral : isNumeral run = true
  dots : ∀ front back, run ++ after = front ++ Byte.dot :: Byte.dot :: back →
    run.length ≤ front.length

/-- Marks have fixed spellings. -/
def IsMark (run _after : Bytes) : Prop := ∃ m : Mark, m.bytes = run

/-! ## §3. What runs denote -/

/-- The bytes between the quotes of a string, and the bytes they stand for. -/
inductive Decodes : (body value : Bytes) → Prop where
  | nil : Decodes [] []
  | plain {b : UInt8} {body value : Bytes} (hquote : b ≠ Byte.quote)
      (hbackslash : b ≠ Byte.backslash) (h : Decodes body value) : Decodes (b :: body) (b :: value)
  | quote {body value : Bytes} (h : Decodes body value) :
      Decodes (Byte.backslash :: Byte.quote :: body) (Byte.quote :: value)
  | backslash {body value : Bytes} (h : Decodes body value) :
      Decodes (Byte.backslash :: Byte.backslash :: body) (Byte.backslash :: value)
  /-- An `n` stands for a line feed. -/
  | lineFeed {body value : Bytes} (h : Decodes body value) :
      Decodes (Byte.backslash :: 110 :: body) (Byte.lineFeed :: value)
  /-- A `t` stands for a tab. -/
  | tab {body value : Bytes} (h : Decodes body value) :
      Decodes (Byte.backslash :: 116 :: body) (Byte.tab :: value)
  /-- Before any other byte the backslash stands for itself. -/
  | other {e : UInt8} {body value : Bytes}
      (he : e ∉ [Byte.quote, Byte.backslash, 110, 116]) (h : Decodes body value) :
      Decodes (Byte.backslash :: e :: body) (Byte.backslash :: e :: value)

/-- What a run denotes where `after` follows it. -/
inductive Denotes : (run after : Bytes) → Lexeme → Prop where
  | truth {after : Bytes} (b : Bool)
      (h : Longest IsWord (ascii (if b then "true" else "false")) after) :
      Denotes (ascii (if b then "true" else "false")) after (.literal (.bool b))
  | word {after : Bytes} (w : Word) (h : Longest IsWord (ascii w.spelling) after) :
      Denotes (ascii w.spelling) after (.word w)
  | name {run after : Bytes} (h : Longest IsWord run after) (hname : isReserved run = false) :
      Denotes run after (.ident run)
  /-- Without a dot it is an integer, and one that there is. -/
  | int {run after : Bytes} {n : Int64} (h : Longest IsNumber run after)
      (hdigits : Byte.dot ∉ run) (hvalue : n.toInt = (ofDigits run : Int)) :
      Denotes run after (.literal (.int n))
  /-- With one dot it is the double nearest to the decimal fraction. -/
  | float {whole places after : Bytes} {x : Binary64}
      (h : Longest IsNumber (whole ++ Byte.dot :: places) after) (hwhole : Byte.dot ∉ whole)
      (hplaces : Byte.dot ∉ places)
      (hvalue : Binary64.ofDigits? (ofDigits (whole ++ places)) places.length = some x) :
      Denotes (whole ++ Byte.dot :: places) after (.literal (.float x))
  | str {body value after : Bytes} (h : Decodes body value) :
      Denotes (Byte.quote :: (body ++ [Byte.quote])) after (.literal (.str value))
  /-- Two slashes are no marks. -/
  | mark {after : Bytes} (m : Mark) (h : Longest IsMark m.bytes after)
      (hcomment : ¬ [Byte.slash, Byte.slash] <+: m.bytes ++ after) :
      Denotes m.bytes after (.mark m)

/-! ## §4. Words -/

theorem longest_word {b : UInt8} (hb : Byte.startsWord b = true) (rest : Bytes) :
    Longest IsWord (b :: rest.takeWhile Byte.inWord) (rest.dropWhile Byte.inWord) where
  belongs := by
    show (Byte.startsWord b && (rest.takeWhile Byte.inWord).all Byte.inWord) = true
    rw [hb, List.all_takeWhile]
    rfl
  longest := by
    intro more after' hafter hword
    cases more with
    | nil => rfl
    | cons c more =>
      -- the next byte would have been taken
      have hstop : ¬ Byte.inWord c = true := by
        have hhead : (rest.dropWhile Byte.inWord).head? = some c := by rw [hafter]; rfl
        have hnot := List.head?_dropWhile_not Byte.inWord rest
        rw [hhead] at hnot
        simpa using hnot
      have hall : (rest.takeWhile Byte.inWord ++ c :: more).all Byte.inWord = true := by
        have hsplit : Byte.startsWord b = true
            ∧ (rest.takeWhile Byte.inWord ++ c :: more).all Byte.inWord = true := by
          simpa [IsWord, isName] using hword
        exact hsplit.2
      exact absurd (List.all_eq_true.mp hall c (by simp)) hstop

theorem Word.eq_of_ofSpelling? {run : Bytes} {w : Word} (h : Word.ofSpelling? run = some w) :
    ascii w.spelling = run := by
  have hfound := List.find?_some h
  simpa using hfound

/-- A word denotes a truth value, a reserved word or itself. -/
theorem denotes_wordLexeme {run after : Bytes} (h : Longest IsWord run after) :
    Denotes run after (wordLexeme run) := by
  unfold wordLexeme
  split
  · next htrue =>
    rw [beq_iff_eq] at htrue
    subst htrue
    exact Denotes.truth true h
  · next htrue =>
    split
    · next hfalse =>
      rw [beq_iff_eq] at hfalse
      subst hfalse
      exact Denotes.truth false h
    · next hfalse =>
      split
      · next w hw =>
        have hspelling := Word.eq_of_ofSpelling? hw
        subst hspelling
        exact Denotes.word w h
      · next hnone =>
        apply Denotes.name h
        rw [isReserved, hnone]
        simpa using And.intro htrue hfalse

/-! ## §5. Numbers -/

theorem all_inNumber_numberRun (s : Bytes) : (numberRun s).all inNumber = true := by
  induction s with
  | nil => rfl
  | cons b s ih =>
    rw [numberRun]
    split
    · next hb =>
      have hin : inNumber b = true := by
        unfold inNumber
        simp only [Bool.or_eq_true, Bool.and_eq_true] at hb ⊢
        exact hb.imp_right And.left
      rw [List.all_cons, hin, ih]
      rfl
    · rfl

/-- No dot that is followed by another one is taken. -/
theorem numberRun_dots {s front back : Bytes} (h : s = front ++ Byte.dot :: Byte.dot :: back) :
    (numberRun s).length ≤ front.length := by
  induction front generalizing s with
  | nil =>
    subst h
    exact Nat.le_refl 0
  | cons b front ih =>
    subst h
    rw [List.cons_append, numberRun]
    split
    · have := ih (s := front ++ Byte.dot :: Byte.dot :: back) rfl
      simp only [List.length_cons]
      omega
    · simp

/-- After the run there is nothing, or a byte that belongs to no number, or the
    first of two dots. -/
theorem numberRun_stops {s after : Bytes} {c : UInt8} (h : s = numberRun s ++ c :: after) :
    inNumber c = false ∨ c = Byte.dot ∧ after.head? = some Byte.dot := by
  induction s with
  | nil => cases h
  | cons b s ih =>
    rw [numberRun] at h
    split at h
    · exact ih (List.cons.inj h).2
    · next hb =>
      obtain ⟨rfl, rfl⟩ := List.cons.inj h
      by_cases hdigit : Byte.isDigit b = true
      · simp [hdigit] at hb
      · by_cases hdot : b = Byte.dot
        · simp [hdot] at hb
          exact .inr ⟨hdot, hb.2⟩
        · simp [inNumber, hdigit, hdot]

/-- At a digit the run of digits and dots is the longest number. -/
theorem numberRun_longest {b : UInt8} (hb : Byte.isDigit b = true) (rest : Bytes) :
    Longest IsNumber (b :: numberRun rest) (rest.drop (numberRun rest).length) where
  belongs := by
    constructor
    · simp [isNumeral, hb, all_inNumber_numberRun]
    · intro front back h
      rw [List.cons_append, numberRun_append_drop] at h
      -- the first byte is no dot
      cases front with
      | nil =>
        obtain ⟨rfl, -⟩ := List.cons.inj h
        cases hb
      | cons c front =>
        exact Nat.succ_le_succ (numberRun_dots (List.cons.inj h).2)
  longest := by
    intro more after' hafter hnumber
    cases more with
    | nil => rfl
    | cons c more =>
      have hrest : rest = numberRun rest ++ c :: (more ++ after') := by
        have hsplit := numberRun_append_drop rest
        rw [hafter] at hsplit
        exact hsplit.symm
      obtain hstop | ⟨rfl, hdots⟩ := numberRun_stops hrest
      · have hall : ((b :: numberRun rest) ++ c :: more).all inNumber = true := by
          have hin := hnumber.isNumeral
          simp only [List.cons_append, isNumeral, Bool.and_eq_true] at hin
          rw [List.cons_append, List.all_cons, inNumber_of_isDigit hb, hin.2]
          rfl
        have hc := List.all_eq_true.mp hall c (by simp)
        rw [hstop] at hc
        cases hc
      · -- a dot before a dot would be in the run
        obtain ⟨back, hback⟩ := List.head?_eq_some_iff.mp hdots
        have htext : (b :: numberRun rest ++ Byte.dot :: more) ++ after'
            = b :: numberRun rest ++ Byte.dot :: Byte.dot :: back := by
          rw [List.append_assoc]
          exact congrArg (fun t => b :: numberRun rest ++ Byte.dot :: t) hback
        have hlen := hnumber.dots _ back htext
        simp only [List.length_append, List.length_cons] at hlen
        omega

/-- The parts of a text before its first dot and after it. -/
theorem parts_at_dot {whole : Bytes} (hwhole : Byte.dot ∉ whole) (places : Bytes) :
    (whole ++ Byte.dot :: places).takeWhile (· != Byte.dot) = whole
      ∧ ((whole ++ Byte.dot :: places).dropWhile (· != Byte.dot)).drop 1 = places := by
  have hbefore : ∀ b ∈ whole, (b != Byte.dot) = true := by
    intro b hb
    simpa using fun hdot : b = Byte.dot => hwhole (hdot ▸ hb)
  constructor
  · rw [List.takeWhile_append_of_pos hbefore]
    simp
  · rw [List.dropWhile_append_of_pos hbefore]
    simp

/-- A text with one dot is cut at it. -/
theorem split_at_dot {run : Bytes} (h : run.count Byte.dot = 1) :
    ∃ whole places, run = whole ++ Byte.dot :: places ∧ Byte.dot ∉ whole ∧ Byte.dot ∉ places
      ∧ run.takeWhile (· != Byte.dot) = whole
      ∧ (run.dropWhile (· != Byte.dot)).drop 1 = places := by
  have hmem : Byte.dot ∈ run := List.count_pos_iff.mp (by omega)
  obtain ⟨whole, places, rfl, hwhole⟩ := List.eq_append_cons_of_mem hmem
  have hplaces : Byte.dot ∉ places := by
    rw [List.count_append, List.count_cons_self] at h
    exact List.count_eq_zero.mp (by omega)
  exact ⟨whole, places, rfl, hwhole, hplaces, parts_at_dot hwhole places⟩

/-- A number denotes an integer that there is, or the nearest double. -/
theorem denotes_numberLiteral? {run after : Bytes} {v : Literal} (h : Longest IsNumber run after)
    (hv : numberLiteral? run = some v) : Denotes run after (.literal v) := by
  unfold numberLiteral? at hv
  split at hv
  · next hcount =>
    split at hv
    · next hlt =>
      obtain rfl := Option.some.inj hv
      exact .int h (List.count_eq_zero.mp hcount) (Int64.toInt_ofNat_of_lt hlt)
    · cases hv
  · next hcount =>
    obtain ⟨x, hx, rfl⟩ := Option.map_eq_some_iff.mp hv
    obtain ⟨whole, places, rfl, hwhole, hplaces, htake, hdrop⟩ := split_at_dot hcount
    rw [htake, hdrop] at hx
    exact .float h hwhole hplaces hx
  · cases hv

/-! ## §6. Strings -/

theorem decodes_unescaped {e : UInt8} {body value : Bytes} (h : Decodes body value) :
    Decodes (Byte.backslash :: e :: body) (unescaped e ++ value) := by
  unfold unescaped
  split
  · next hself =>
    rw [Bool.or_eq_true, beq_iff_eq, beq_iff_eq] at hself
    obtain rfl | rfl := hself
    · exact .quote h
    · exact .backslash h
  · next hself =>
    split
    · next hn =>
      rw [beq_iff_eq] at hn
      subst hn
      exact .lineFeed h
    · next hn =>
      split
      · next ht =>
        rw [beq_iff_eq] at ht
        subst ht
        exact .tab h
      · next ht =>
        apply Decodes.other _ h
        simp only [Bool.or_eq_true, beq_iff_eq, not_or] at hself hn ht
        simp [hself, hn, ht]

/-- The body of a string ends at the first quote that no backslash escapes. -/
theorem decodes_of_stringBody? {s value : Bytes} {n : Nat} (h : stringBody? s = some (value, n)) :
    ∃ body after, s = body ++ Byte.quote :: after ∧ n = body.length + 1
      ∧ Decodes body value := by
  induction s using stringBody?.induct generalizing value n with
  | case1 => cases h
  | case2 b rest hb =>
    rw [beq_iff_eq] at hb
    subst hb
    rw [stringBody?_quote] at h
    cases h
    exact ⟨[], rest, rfl, rfl, .nil⟩
  | case3 b hq hb =>
    rw [beq_iff_eq] at hb
    subst hb
    cases h
  | case4 b hq hb e rest ih =>
    rw [beq_iff_eq] at hb
    subst hb
    rw [stringBody?_escape] at h
    obtain ⟨⟨inner, k⟩, hinner, hpair⟩ := Option.map_eq_some_iff.mp h
    obtain ⟨body, after, rfl, rfl, hdecodes⟩ := ih hinner
    cases hpair
    exact ⟨Byte.backslash :: e :: body, after, rfl, rfl, decodes_unescaped hdecodes⟩
  | case5 b rest hq hb ih =>
    rw [stringBody?_plain (eq_false_of_ne_true hq) (eq_false_of_ne_true hb)] at h
    obtain ⟨⟨inner, k⟩, hinner, hpair⟩ := Option.map_eq_some_iff.mp h
    obtain ⟨body, after, rfl, rfl, hdecodes⟩ := ih hinner
    cases hpair
    exact ⟨b :: body, after, rfl, rfl, .plain (by simpa using hq) (by simpa using hb) hdecodes⟩

/-! ## §7. Marks -/

/-- No mark is the beginning of one that is looked for later. -/
theorem Mark.all_longest_first :
    all.Pairwise fun m m' => m.bytes.isPrefixOf m'.bytes = false := by decide

/-- The mark that is found is the longest that the text starts with. -/
theorem longest_of_firstOf {text after : Bytes} {m : Mark} (h : Mark.firstOf text = some m)
    (htext : text = m.bytes ++ after) : Longest IsMark m.bytes after where
  belongs := ⟨m, rfl⟩
  longest := by
    intro more after' hafter hmark
    obtain ⟨m', hm'⟩ := hmark
    obtain ⟨-, earlier, later, hall, hearlier⟩ := List.find?_eq_some_iff_append.mp h
    have hstarts : m'.bytes.isPrefixOf text = true := by
      rw [htext, hafter, hm', List.isPrefixOf_iff_prefix, ← List.append_assoc]
      exact List.prefix_append _ _
    have hextends : m.bytes.isPrefixOf m'.bytes = true := by
      rw [hm', List.isPrefixOf_iff_prefix]
      exact List.prefix_append _ _
    have hmem : m' ∈ earlier ++ m :: later := hall ▸ Mark.mem_all m'
    have hpairwise := hall ▸ Mark.all_longest_first
    rw [List.pairwise_append, List.pairwise_cons] at hpairwise
    -- an earlier mark would have been found, and a later one is no longer
    rw [List.mem_append, List.mem_cons] at hmem
    obtain hbefore | rfl | hlater := hmem
    · have hnot := hearlier m' hbefore
      simp [hstarts] at hnot
    · simpa using hm'
    · have hnot := hpairwise.2.1.1 m' hlater
      rw [hextends] at hnot
      cases hnot

/-! ## §8. What is scanned -/

/-- Up to the next line feed there is none, and after that there is one or
    nothing. -/
theorem gap_comment {rest gap after : Bytes}
    (h : rest.dropWhile (· != Byte.lineFeed) = gap ++ after) (hgap : Gap gap after) :
    Gap (Byte.slash :: Byte.slash :: (rest.takeWhile (· != Byte.lineFeed) ++ gap)) after := by
  apply Gap.comment _ _ hgap
  · intro hmem
    have hnot := List.all_eq_true.mp (List.all_takeWhile (p := (· != Byte.lineFeed)) (l := rest))
      _ hmem
    simp at hnot
  · intro b hb
    have hnot := List.head?_dropWhile_not (· != Byte.lineFeed) rest
    rw [h, Option.mem_def.mp hb] at hnot
    simpa using hnot

/-- What is passed over belongs to the gap that goes on after it. -/
theorem gap_of_scanAt {b : UInt8} {rest : Bytes} {more : Nat} (h : scanAt b rest = .gap more) :
    ∃ tail left, rest = tail ++ left ∧ tail.length = more
      ∧ ∀ gap after, left = gap ++ after → Gap gap after → Gap (b :: (tail ++ gap)) after := by
  obtain hblank | ⟨rfl, hslash⟩ | hword | hdigit | rfl | hmark := piece_cases b rest
  · rw [scanAt_blank hblank] at h
    cases h
    exact ⟨[], rest, rfl, rfl, fun gap after _ hgap => .blank hblank hgap⟩
  · rw [scanAt_comment hslash] at h
    cases h
    obtain ⟨body, rfl⟩ := List.head?_eq_some_iff.mp hslash
    refine ⟨_, _, (List.takeWhile_append_dropWhile (p := (· != Byte.lineFeed))).symm, rfl, ?_⟩
    intro gap after hleft hgap
    have htail : (Byte.slash :: body).takeWhile (· != Byte.lineFeed)
        = Byte.slash :: body.takeWhile (· != Byte.lineFeed) := rfl
    rw [htail]
    exact gap_comment hleft hgap
  -- the other pieces are lexemes or errors
  · rw [scanAt_word hword] at h
    cases h
  · rw [scanAt_number hdigit] at h
    split at h <;> cases h
  · rw [scanAt_quote] at h
    split at h <;> cases h
  · rw [hmark.scanAt] at h
    split at h <;> cases h

/-- The mark that is found at a byte is a run, unless a comment starts there. -/
theorem denotes_firstOf {b : UInt8} {rest : Bytes} {m : Mark}
    (hm : Mark.firstOf (b :: rest) = some m)
    (hcomment : b = Byte.slash → rest.head? ≠ some Byte.slash) :
    ∃ tail after, rest = tail ++ after ∧ tail.length = m.bytes.length - 1
      ∧ Denotes (b :: tail) after (.mark m) := by
  have hprefix : m.bytes <+: b :: rest := by
    have hfound := List.find?_some hm
    rwa [List.isPrefixOf_iff_prefix] at hfound
  obtain ⟨after, hafter⟩ := hprefix
  have hne : m.bytes ≠ [] := by cases m <;> decide
  obtain ⟨c, tail, hbytes⟩ := List.exists_cons_of_ne_nil hne
  have hdenotes : Denotes m.bytes after (.mark m) := by
    apply Denotes.mark m (longest_of_firstOf hm hafter.symm)
    rw [hafter]
    rintro ⟨others, hothers⟩
    cases hothers
    exact hcomment rfl rfl
  rw [hbytes] at hafter hdenotes
  obtain ⟨rfl, rfl⟩ := List.cons.inj hafter
  refine ⟨tail, after, rfl, ?_, hdenotes⟩
  rw [hbytes]
  rfl

/-- What is taken for a lexeme is a run, and the lexeme is what it denotes. -/
theorem denotes_of_scanAt {b : UInt8} {rest : Bytes} {l : Lexeme} {more : Nat}
    (h : scanAt b rest = .lexeme l more) :
    ∃ tail after, rest = tail ++ after ∧ tail.length = more ∧ Denotes (b :: tail) after l := by
  obtain hblank | ⟨rfl, hslash⟩ | hword | hdigit | rfl | hmark := piece_cases b rest
  -- blanks and comments are no lexemes
  · rw [scanAt_blank hblank] at h
    cases h
  · rw [scanAt_comment hslash] at h
    cases h
  · rw [scanAt_word hword] at h
    cases h
    exact ⟨_, _, List.takeWhile_append_dropWhile.symm, rfl,
      denotes_wordLexeme (longest_word hword rest)⟩
  · rw [scanAt_number hdigit] at h
    split at h
    · next v hv =>
      cases h
      exact ⟨_, _, (numberRun_append_drop rest).symm, rfl,
        denotes_numberLiteral? (numberRun_longest hdigit rest) hv⟩
    · cases h
  · rw [scanAt_quote] at h
    split at h
    · next value n hbody =>
      cases h
      obtain ⟨body, after, rfl, rfl, hdecodes⟩ := decodes_of_stringBody? hbody
      refine ⟨body ++ [Byte.quote], after, ?_, ?_, .str hdecodes⟩
      · rw [List.append_assoc]
        rfl
      · exact List.length_append
    · cases h
  · rw [hmark.scanAt] at h
    split at h
    · next m hm =>
      cases h
      exact denotes_firstOf hm hmark.comment
    · cases h

end Lumen
