/-
  Lumen.Proofs.Reading.TypeTexts — types and their texts.

  The text of a type is one word, or `list<`, the text of another type and `>`.  Cut
  into tokens it gives the lexemes of the type, for a word ends before a bracket and no
  two closing brackets are one mark.  Only where a `=` comes next, the last bracket of a
  list type is taken together with it, and reading the type has to split them again.

  So a type is read back from its text, with or without a `=` behind it.  The other way
  round, whatever a type was read from, the tokens that it took are those of its text,
  but for the places where they stand and for a `>=` that was split at their end.

  Main statements:
    * `readBefore_word`, `readBefore_gt`, `readBefore_ge` — words and brackets in a text;
    * `Ty.readBefore_text` / `Ty.exists_headsValue` — the text of a type, and with a `=`;
    * `Ty.eq_of_text_eq` — no two types have the same text;
    * `Consumes`, `type_consumes` — what the reader of types takes off a token list;
    * `types_and_texts` — a type and its text determine each other.
-/
import Lumen.Proofs.Reading.StmtComplete
import Lumen.Proofs.Reading.Rereads
import Lumen.Proofs.Reading.Values
import Lumen.Proofs.Checking.Inline
import Lumen.Proofs.Encoding.Wording

namespace Lumen

/-! ## §1. Whole texts, words and brackets -/

section
variable {rest s : Bytes} {ls : List Lexeme}

/-- A text that is read to the end of the source. -/
theorem ReadBefore.tokenize (h : ReadBefore [] s ls) :
    ∃ tokens, tokenize s = .ok tokens ∧ tokens.map Token.lexeme = ls ++ [.eof]
      ∧ Token.lexemes tokens = ls := by
  obtain ⟨tokens, hlexemes, hreads⟩ := h .start
  have hrun : Lumen.tokenize s = .ok (tokens ++ [⟨.eof, Pos.start.advance s⟩]) := by
    show tokensFrom 0 .start s = _
    rw [← List.append_nil s, hreads, tokensFrom_nil, List.append_nil]
    rfl
  -- what is scanned is never the end
  obtain ⟨ls', hls', hscanned⟩ := lexemes_of_tokensFrom hrun
  have hwhole : ls ++ [.eof] = ls' ++ [.eof] := by
    rw [← hls', List.map_append, hlexemes]
    rfl
  obtain rfl := List.append_cancel_right hwhole
  refine ⟨_, hrun, hls', ?_⟩
  have hne : ∀ l ∈ ls, (l != .eof) = true := by
    intro l hl
    obtain ⟨b, rest, more, hscan⟩ := hscanned l hl
    rw [bne_iff_ne]
    rintro rfl
    exact legible_of_scanAt hscan fun x hx => by cases hx
  rw [Token.lexemes, hls', List.takeWhile_append_of_pos hne]
  simp

/-- A reserved word, in front of anything that it does not go on into. -/
theorem readBefore_word (w : Word) (hrest : ∀ b ∈ rest.head?, Byte.inWord b = false) :
    ReadBefore rest (ascii w.spelling) [.word w] := by
  have hname := isName_spelling w
  have hword := wordLexeme_spelling w
  generalize ascii w.spelling = run at hname hword ⊢
  cases run with
  | nil => cases hname
  | cons b tail =>
    simp only [isName, Bool.and_eq_true] at hname
    have hnone : rest.takeWhile Byte.inWord = [] := by
      cases rest with
      | nil => rfl
      | cons c rest => exact List.takeWhile_cons_of_neg (by simp [hrest c rfl])
    have htail : (tail ++ rest).takeWhile Byte.inWord = tail := by
      rw [List.takeWhile_append_of_pos (List.all_eq_true.mp hname.2), hnone, List.append_nil]
    apply readBefore_of_scanAt
    rw [scanAt_word hname.1, htail, hword]

/-- A mark of two bytes does not stand where the second one is another. -/
theorem isPrefixOf_pair {a b : UInt8} (hrest : ∀ c ∈ rest.head?, c ≠ b) :
    [a, b].isPrefixOf (a :: rest) = false := by
  cases rest with
  | nil => simp [List.isPrefixOf]
  | cons c rest =>
    have hc : (b == c) = false := by simpa using (hrest c rfl).symm
    simp [List.isPrefixOf, hc]

/-- An opening bracket, in front of anything but a `=`. -/
theorem readBefore_lt (hrest : ∀ c ∈ rest.head?, c ≠ 61) : ReadBefore rest [60] [.mark .lt] := by
  have hlonger : Mark.le.bytes.isPrefixOf (60 :: rest) = false := isPrefixOf_pair hrest
  have hfirst : Mark.firstOf (60 :: rest) = some .lt := by
    simp only [Mark.firstOf, Mark.all, List.find?_cons, hlonger]
    rfl
  have hstarts : StartsMark 60 rest :=
    ⟨rfl, fun hslash => absurd hslash (by decide), rfl, rfl, by decide⟩
  apply readBefore_of_scanAt
  rw [List.nil_append, hstarts.scanAt, hfirst]
  rfl

/-- A closing bracket, in front of anything but a `=`. -/
theorem readBefore_gt (hrest : ∀ c ∈ rest.head?, c ≠ 61) : ReadBefore rest [62] [.mark .gt] := by
  have hlonger : Mark.ge.bytes.isPrefixOf (62 :: rest) = false := isPrefixOf_pair hrest
  have hfirst : Mark.firstOf (62 :: rest) = some .gt := by
    simp only [Mark.firstOf, Mark.all, List.find?_cons, hlonger]
    rfl
  have hstarts : StartsMark 62 rest :=
    ⟨rfl, fun hslash => absurd hslash (by decide), rfl, rfl, by decide⟩
  apply readBefore_of_scanAt
  rw [List.nil_append, hstarts.scanAt, hfirst]
  rfl

/-- A closing bracket and a `=` are one mark, whatever comes next. -/
theorem readBefore_ge (rest : Bytes) : ReadBefore rest [62, 61] [.mark .ge] :=
  readBefore_of_scanAt rfl

theorem readBefore_equal : ReadBefore [] [61] [.mark .equal] :=
  readBefore_of_scanAt rfl

end

/-! ## §2. The text of a type -/

namespace Ty

/-- The word and the bracket that a list type starts with. -/
def listHead : Bytes := ascii "list" ++ [60]

theorem ascii_text_list (elem : Ty) :
    ascii (list elem).text = listHead ++ (ascii elem.text ++ [62]) := by
  rw [text, ascii_append, ascii_append, List.append_assoc]
  rfl

/-- The text of a type starts with a letter, unless it is the `?` of any type. -/
theorem head?_text_ne (t : Ty) (rest : Bytes) :
    ∀ c ∈ (ascii t.text ++ rest).head?, c ≠ 61 := by
  cases t with
  | list elem =>
    rw [ascii_text_list]
    simp [listHead, ascii]
  | _ => simp [text, ascii]

theorem readBefore_listHead (elem : Ty) (rest : Bytes) :
    ReadBefore (ascii elem.text ++ rest) listHead [.word .list, .mark .lt] :=
  ReadBefore.append (s := ascii "list")
    (readBefore_word .list fun b hb => by simp at hb; subst hb; rfl)
    (readBefore_lt (head?_text_ne elem rest))

/-- The text of a type that can be declared is read as the lexemes of the type, in front of
    anything that no word goes on with, and no closing bracket either. -/
theorem readBefore_text {t : Ty} (ht : t.isDeclarable = true) {rest : Bytes}
    (hword : ∀ b ∈ rest.head?, Byte.inWord b = false)
    (hequal : t.isList → ∀ b ∈ rest.head?, b ≠ 61) :
    ReadBefore rest (ascii t.text) t.lexemes := by
  induction t generalizing rest with
  | list elem ih =>
    rw [ascii_text_list]
    -- each piece is read in front of those after it, so the last one comes first here
    have hclose : ReadBefore rest [62] [.mark .gt] := readBefore_gt (hequal rfl)
    have helem : ReadBefore ([62] ++ rest) (ascii elem.text) elem.lexemes :=
      ih ht (by simp [Byte.inWord, Byte.isLetter, Byte.isDigit, Byte.underscore]) (by simp)
    have hhead := readBefore_listHead elem ([62] ++ rest)
    rw [← List.append_assoc] at hhead
    exact hhead.append (helem.append hclose)
  | any => cases ht
  | int => exact readBefore_word .int hword
  | float => exact readBefore_word .float hword
  | string => exact readBefore_word .string hword
  | bool => exact readBefore_word .bool hword

/-- The text of a type with a `=` right behind it.  In a list type the last bracket and the
    `=` are one lexeme. -/
theorem exists_headsValue {t : Ty} (ht : t.isDeclarable = true) :
    ∃ head, t.HeadsValue head ∧ ReadBefore [] (ascii t.text ++ ascii "=") head := by
  cases hlist : t.isList with
  | false =>
    refine ⟨_, .apart t, ReadBefore.append ?_ readBefore_equal⟩
    rw [List.append_nil]
    refine readBefore_text ht ?_ (by simp [hlist])
    rintro b ⟨⟩
    rfl
  | true =>
    cases t with
    | list elem =>
      refine ⟨_, .joined elem, ?_⟩
      -- the type of the items is read in front of the joined bracket
      have helem : ReadBefore ([62, 61] ++ []) (ascii elem.text) elem.lexemes := by
        apply readBefore_text (t := elem) ht
        · rintro b ⟨⟩
          rfl
        · simp
      have hhead := readBefore_listHead elem ([62, 61] ++ [])
      rw [← List.append_assoc] at hhead
      rw [ascii_text_list, List.append_assoc, List.append_assoc]
      exact hhead.append (helem.append (readBefore_ge []))
    | _ => cases hlist

/-- No two types have the same text. -/
theorem eq_of_text_eq {t u : Ty} (h : ascii t.text = ascii u.text) : t = u := by
  induction t generalizing u with
  | list elem ih =>
    cases u with
    | list other =>
      rw [ascii_text_list, ascii_text_list] at h
      have hinner := List.append_cancel_right (List.append_cancel_left h)
      rw [ih hinner]
    | _ => simp [text, ascii] at h
  | _ =>
    cases u with
    | list other =>
      rw [ascii_text_list] at h
      simp [text, listHead, ascii] at h
    | _ => first | rfl | simp [text, ascii] at h

end Ty

/-! ## §3. What a type is read from -/

/-- A cursor has taken some tokens off a token list, of which the last may be the first half
    of a `>=`; the other half is left then. -/
inductive Cursor.Consumes (c : Cursor) (read : List Token) : Cursor → Prop where
  | whole {rest : List Token} (h : c.ahead = read ++ rest) :
    Consumes c read ⟨read.reverse ++ c.before, rest⟩
  | half {init rest : List Token} {p : Pos} (hread : read = init ++ [⟨.mark .gt, p⟩])
    (h : c.ahead = init ++ ⟨.mark .ge, p⟩ :: rest) :
    Consumes c read ⟨read.reverse ++ c.before, ⟨.mark .equal, p.right⟩ :: rest⟩

namespace Parse
open CursorM Cursor

section
variable {c c' : Cursor} {read : List Token}

/-- One token more at the front. -/
theorem consumes_past {t : Token} (ht : c.token? = some t) (h : (c.past t).Consumes read c') :
    c.Consumes (t :: read) c' := by
  have hahead : c.ahead = t :: (c.past t).ahead := ahead_of_token? ht
  have hbefore : read.reverse ++ (c.past t).before = (t :: read).reverse ++ c.before := by
    rw [List.reverse_cons, List.append_assoc]
    rfl
  cases h with
  | whole h =>
    rw [hbefore]
    exact .whole (by rw [hahead, h, List.cons_append])
  | half hread h =>
    rw [hbefore]
    exact .half (by rw [hread, List.cons_append]) (by rw [hahead, h, List.cons_append])

/-- The bracket that closes a list type at the end.  It may be taken from a `>=`, unless one
    has been split already: then a `=` is left, which closes nothing. -/
theorem consumes_close {p : Pos} (h : c.Consumes read c')
    (hclose : c'.splitGe.token? = some ⟨.mark .gt, p⟩) :
    c.Consumes (read ++ [⟨.mark .gt, p⟩]) (c'.splitGe.past ⟨.mark .gt, p⟩) := by
  have hbefore (t : Token) : t :: (read.reverse ++ c.before)
      = (read ++ [t]).reverse ++ c.before := by simp
  cases h with
  | @whole rest h =>
    unfold splitGe at hclose ⊢
    split at hclose
    -- a `>=` gives its first half; any other token is the bracket itself
    · next q rest hge =>
      simp only at hge
      subst hge
      obtain rfl : q = p := by simpa [Cursor.token?, current?, Token.isEof] using hclose
      rw [Cursor.past, hbefore]
      exact .half rfl h
    · next hne =>
      have hrest := ahead_of_token? hclose
      rw [Cursor.past, hbefore]
      refine .whole ?_
      rw [h, List.append_assoc]
      exact congrArg (read ++ ·) hrest
  | half hread h => cases hclose

end

/-- A token that has been looked at is read. -/
theorem known_passes {l : Lexeme} {c : Cursor} (h : c.lexemes.head? = some l) :
    Ends advance c (fun t c' => t.lexeme = l ∧ c.token? = some t ∧ c' = c.past t)
      fun _ _ => True := by
  rcases advance_cases c with ⟨-, hadvance⟩ | ⟨t, ht, hadvance⟩
  · exact (ends_error hadvance).mpr trivial
  · refine (ends_ok hadvance).mpr ⟨?_, ht, rfl⟩
    rw [← map_token?, ht] at h
    exact Option.some.inj h

theorem mark_passes (m : Mark) (c : Cursor) :
    Ends (mark m) c (fun _ c' => ∃ p, c.token? = some ⟨.mark m, p⟩ ∧ c' = c.past ⟨.mark m, p⟩)
      fun _ _ => True := by
  unfold mark
  rw [ends_bind, ends_isAt]
  split
  · next h =>
    apply (known_passes (eq_of_beq h)).bind
    rintro ⟨l, p⟩ c' ⟨rfl, ht, hc'⟩
    exact ⟨p, ht, hc'⟩
  · exact trivial

/-- What is taken off by the reader of types spells the type. -/
theorem type_consumes (steps : Nat) (c : Cursor) :
    Ends (type steps) c
      (fun t c' => ∃ read, c.Consumes read c' ∧ read.map Token.lexeme = t.lexemes)
      fun _ _ => True := by
  induction steps generalizing c with
  | zero => exact trivial
  | succ steps ih =>
    unfold type
    rw [ends_bind, ends_lexeme?]
    split
    · next hlist =>
      apply (known_passes hlist).bind
      rintro first c₁ ⟨hfirst, hc, rfl⟩
      apply (mark_passes .lt _).bind
      rintro _ c₂ ⟨p, hc₁, rfl⟩
      apply (ih _).bind
      rintro elem c₃ ⟨read, hread, helem⟩
      rw [ends_bind, ends_modify]
      apply (mark_passes .gt _).bind
      rintro _ c₄ ⟨q, hgt, rfl⟩
      exact ⟨_, consumes_past hc (consumes_past hc₁ (consumes_close hread hgt)),
        by simp [Ty.lexemes, hfirst, helem]⟩
    · next l _ hl =>
      split
      · next t ht =>
        apply (known_passes hl).bind
        rintro first c₁ ⟨rfl, hc, rfl⟩
        exact ⟨[first], .whole (ahead_of_token? hc), (Ty.lexemes_of_ofLexeme? ht).2.symm⟩
      · exact trivial
    · exact trivial

/-! ## §4. Types and their texts -/

/-- Where a type is found on the tokens that are left, its reader finds it in any state. -/
theorem typeName_of_finds {t : Ty} {rest : List Lexeme} {c : Cursor}
    (h : Ends (type (c.weight + 1)) c (fun t' c' => t' = t ∧ c'.lexemes = rest)
      fun f _ => f = .outOfSteps) :
    ∃ c', c'.lexemes = rest ∧ ∀ env trace, typeName ⟨c, env, trace⟩ = .ok t ⟨c', env, trace⟩ := by
  have hsteps : HasSteps (type (c.weight + 1)) c :=
    hasSteps_of_sound (type_sound _ c (Nat.lt_succ_of_le c.weighLexemes_lexemes_le))
  obtain ⟨t', c', hrun, ⟨rfl, hc'⟩, -⟩ := Ends.exists_ok
    ((h.and hsteps).mono (fun _ _ hq => hq) fun _ _ he => he.2 he.1)
  refine ⟨c', hc', fun env trace => ?_⟩
  show onCursor (type (c.weight + 1)) ⟨c, env, trace⟩ = _
  rw [onCursor, hrun]

/-- A type that is read can be declared, and what is taken for it spells it. -/
theorem typeName_consumes {s s' : State} {t : Ty} (h : typeName s = .ok t s') :
    t.isDeclarable = true ∧ ∃ read, s.cursor.Consumes read s'.cursor
      ∧ read.map Token.lexeme = t.lexemes := by
  have hlift : onCursor (type (s.cursor.weight + 1)) s = .ok t s' := h
  unfold onCursor at hlift
  cases hrun : type (s.cursor.weight + 1) s.cursor with
  | error e c =>
    rw [hrun] at hlift
    cases hlift
  | ok t' c =>
    rw [hrun] at hlift
    cases hlift
    exact ⟨(type_declarable _ s.cursor).of_ok hrun, (type_consumes _ s.cursor).of_ok hrun⟩

/-- What is left of a text that is the type and nothing else is its end. -/
theorem current?_of_consumes {c c' : Cursor} {read : List Token} {ls : List Lexeme}
    (h : c.Consumes read c') (hread : read.map Token.lexeme = ls)
    (hwhole : c.ahead.map Token.lexeme = ls ++ [.eof]) (hnone : c'.lexemes = []) :
    c'.current?.map Token.lexeme = some .eof := by
  cases h with
  | @whole rest h =>
    rw [h, List.map_append, hread] at hwhole
    have hrest : rest.map Token.lexeme = [.eof] := List.append_cancel_left hwhole
    show rest.head?.map Token.lexeme = _
    rw [← List.head?_map, hrest]
    rfl
  | half => cases hnone

/-- **A type and its text determine each other.**

    The text of a type that can be declared is read as that type, up to the end; with a `=`
    right behind it, it is read as that type too, and the cursor stands before a `=`.  No
    two types have the same text, be they declarable or not.  And any type that is read,
    whatever the state, can be declared, and the tokens taken for it are the lexemes of its
    text; of a `>=` at their end the first half is taken, and the second is left. -/
theorem types_and_texts :
    (∀ t : Ty, t.isDeclarable = true →
      (∃ tokens c, tokenize (ascii t.text) = .ok tokens
        ∧ c.current?.map Token.lexeme = some .eof
        ∧ ∀ env trace, typeName ⟨.ofTokens tokens, env, trace⟩ = .ok t ⟨c, env, trace⟩)
      ∧ ∃ tokens c, tokenize (ascii t.text ++ ascii "=") = .ok tokens
        ∧ c.current?.map Token.lexeme = some (.mark .equal)
        ∧ ∀ env trace, typeName ⟨.ofTokens tokens, env, trace⟩ = .ok t ⟨c, env, trace⟩)
    ∧ (∀ t u : Ty, ascii t.text = ascii u.text → t = u)
    ∧ ∀ (s s' : State) (t : Ty), typeName s = .ok t s' →
      t.isDeclarable = true ∧ ∃ tokens read, tokenize (ascii t.text) = .ok tokens
        ∧ s.cursor.Consumes read s'.cursor
        ∧ tokens.map Token.lexeme = read.map Token.lexeme ++ [.eof] := by
  -- the text of a type that can be declared is read as its lexemes
  have htext : ∀ t : Ty, t.isDeclarable = true → ReadBefore [] (ascii t.text) t.lexemes :=
    fun t ht => Ty.readBefore_text ht (fun _ h => by cases h) fun _ _ h => by cases h
  refine ⟨fun t ht => ⟨?_, ?_⟩, fun t u => Ty.eq_of_text_eq, fun s s' t hrun => ?_⟩
  · obtain ⟨tokens, htokens, hwhole, hlexemes⟩ := (htext t ht).tokenize
    have hahead : (Cursor.ofTokens tokens).lexemes = t.lexemes ++ [] := by
      rw [List.append_nil]
      exact hlexemes
    obtain ⟨c, hc, hrun⟩ := typeName_of_finds (type_finds _ ht [] _ hahead)
    obtain ⟨read, hread, hspells⟩ := (typeName_consumes (hrun {} #[])).2
    exact ⟨tokens, c, htokens, current?_of_consumes hread hspells hwhole hc, hrun⟩
  · obtain ⟨head, hhead, htext⟩ := Ty.exists_headsValue ht
    obtain ⟨tokens, htokens, -, hlexemes⟩ := htext.tokenize
    have hahead : (Cursor.ofTokens tokens).lexemes = head ++ [] := by
      rw [List.append_nil]
      exact hlexemes
    obtain ⟨c, hc, hrun⟩ := typeName_of_finds (headType_finds _ ht hhead [] _ hahead)
    obtain ⟨e, he, hequal⟩ := exists_token? hc
    refine ⟨tokens, c, htokens, ?_, hrun⟩
    rw [(Option.filter_eq_some_iff.mp he).1, Option.map_some, hequal]
  · obtain ⟨hdeclarable, read, hread, hspells⟩ := typeName_consumes hrun
    obtain ⟨tokens, htokens, hwhole, -⟩ := (htext t hdeclarable).tokenize
    exact ⟨hdeclarable, tokens, read, htokens, hread, by rw [hwhole, hspells]⟩

theorem types_and_texts_nested :
    (∃ tokens c, tokenize (ascii "list<list<int>>") = .ok tokens
      ∧ c.current?.map Token.lexeme = some .eof
      ∧ ∀ env trace, typeName ⟨.ofTokens tokens, env, trace⟩
          = .ok (.list (.list .int)) ⟨c, env, trace⟩)
    ∧ ∃ tokens c, tokenize (ascii "list<list<int>>=") = .ok tokens
      ∧ c.current?.map Token.lexeme = some (.mark .equal)
      ∧ ∀ env trace, typeName ⟨.ofTokens tokens, env, trace⟩
          = .ok (.list (.list .int)) ⟨c, env, trace⟩ :=
  types_and_texts.1 (.list (.list .int)) rfl

end Parse
end Lumen
