/-
  Lumen.Proofs.Encoding.FrontEnd — well-formed text in, well-formed text out.

  A source text goes through three stages, and each keeps well-formed what it is given.
  The tokens of a well-formed text carry well-formed texts.  An unchecked parser makes up
  no text: what a program is written with are the lexemes it has read, and an error is
  about a token that it has met.  A checked parser reports the same errors, or those
  that a walk reports over a program that was read up to there.

  So all strings in a reply are well-formed before the reply is written, and the
  repair of its strings, which a host relies on for any other text, changes nothing.

  Main statements:
    * `program_encoded` — a parser, with checking or without;
    * `Host.read_encoded` — a source text as a host reads it;
    * `Host.encoded_of_written` — what a host writes;
    * `Host.front_end_encoded` — a well-formed source, from its bytes to the reply.
-/
import Lumen.Host
import Lumen.Proofs.Encoding.Programs
import Lumen.Proofs.Reading.StmtDrawn

namespace Lumen

open Utf8

/-! ## §1. Parsers -/

/-- Whether all tokens ahead carry well-formed texts. -/
def Cursor.Encoded (c : Cursor) : Prop := ∀ t ∈ c.ahead, t.lexeme.Encoded

theorem Cursor.Encoded.lexemes {c : Cursor} (h : c.Encoded) : ∀ l ∈ c.lexemes, l.Encoded := by
  intro l hl
  obtain ⟨t, ht, rfl⟩ := List.mem_map.mp (List.takeWhile_subset _ hl)
  exact h t ht

namespace Parse

/-- The halves of a `>=` carry no text, and the variable of a loop was read. -/
theorem supplies_encoded :
    Supplies Cursor.Encoded (fun t => t.lexeme.Encoded) ParseError.Encoded := by
  apply supplies_ahead
  · exact fun _ _ => ⟨Lexeme.encoded_of_none rfl, Lexeme.encoded_of_none rfl⟩
  · intro var t name ty hvar hname _
    rw [hname] at hvar
    exact ⟨isWellFormed_of_ident hvar, trivial⟩

theorem encoded_of_meets {c : Cursor} {e : ParseError} (hc : c.Encoded)
    (h : Meets ParseError.Encoded c (.error e)) : e.Encoded := by
  cases e with
  | unexpected expected met =>
    obtain rfl : c.current? = met := h
    exact fun t ht => hc t (List.mem_of_mem_head? ht)
  | unknownStatement met => exact hc met (List.mem_of_mem_head? h)
  | strayTerminator met => exact hc met (List.mem_of_mem_head? h)
  | _ => exact h

section
variable {tokens : List Token} (htokens : ∀ t ∈ tokens, t.lexeme.Encoded)
include htokens

/-- **An unchecked parser.**  It makes up no text, and so no name. -/
theorem program_encoded_of_unchecked {o : Options} (hoff : o.checked = false) (trace : Trace) :
    Ends (program o) { cursor := .ofTokens tokens, trace } (fun p _ => p.Encoded)
      fun f _ => ∃ e, f = .error e ∧ e.Encoded := by
  have hstart : (Cursor.ofTokens tokens).Encoded := htokens
  have hchecks : o.checked = true → ∀ e, Blamed (fun t => t.lexeme.Encoded) e → e.Encoded := by
    intro hon
    rw [hoff] at hon
    cases hon
  have hdraws := program_draws supplies_encoded o hchecks
    { cursor := .ofTokens tokens, trace } hstart
  apply ((program_sound hoff _).and hdraws).mono
  · rintro p t ⟨⟨hspells, -⟩, -⟩ site hsite l hl
    exact hstart.lexemes l (Program.written hspells site hsite hl)
  · rintro f t ⟨hsyntactic, hcursor, hmeets⟩
    cases f with
    | error e => exact ⟨e, rfl, encoded_of_meets hcursor hmeets⟩
    | _ => cases hsyntactic

/-- What a check objects to is part of a program that was read up to there. -/
theorem encoded_of_static {o : Options} (hon : o.checked = true) {trace : Trace} {e : ParseError}
    {s : State} (h : program o { cursor := .ofTokens tokens, trace } = .error (.error e) s)
    (hstatic : e.isStatic = true) : e.Encoded := by
  have hoff : ({ checked := false } : Options).checked = false := rfl
  rcases program_completed hon hoff h hstatic with
    ⟨read, left, ends, p, hahead, hends, hcheck, hreads⟩ | hstuck
  -- what was read, with words for the ends of its blocks, is a program by itself
  · have hread : ∀ t ∈ read ++ ends, t.lexeme.Encoded := by
      have hahead : tokens = read ++ left := hahead
      refine List.forall_mem_append.mpr ⟨fun t ht => htokens t (by simp [hahead, ht]), ?_⟩
      intro t ht
      rw [hends t ht]
      exact Lexeme.encoded_of_none rfl
    obtain ⟨t, hrun⟩ := hreads { cursor := .ofTokens (read ++ ends) } rfl
    have hp : p.Encoded := (program_encoded_of_unchecked hread hoff #[]).of_ok hrun
    obtain ⟨_, ⟨rfl⟩, hcases⟩ := (Program.check_encoded hp).of_error hcheck
    refine hcases.resolve_left ?_
    rw [not_refused_of_cases (.inr hstatic)]
    exact Bool.false_ne_true
  -- the type of a loop variable is checked by the reader, whatever the options
  · obtain ⟨t, hrun⟩ := hstuck { cursor := .ofTokens tokens } rfl
    obtain ⟨_, ⟨rfl⟩, he⟩ := (program_encoded_of_unchecked htokens hoff #[]).of_error hrun
    exact he

/-- **A parser, with checking or without.** -/
theorem program_encoded (o : Options) (trace : Trace) :
    Ends (program o) { cursor := .ofTokens tokens, trace } (fun p _ => p.Encoded)
      fun f _ => ∃ e, f = .error e ∧ e.Encoded := by
  cases hon : o.checked with
  | false => exact program_encoded_of_unchecked htokens hon trace
  | true =>
    have hoff : ({ checked := false } : Options).checked = false := rfl
    have hunchecked := program_encoded_of_unchecked htokens hoff #[]
    cases hrun : program o { cursor := .ofTokens tokens, trace } with
    | ok p s =>
      refine (ends_ok hrun).mpr ?_
      rcases whole_follows hon hoff tokens trace with ⟨p', t, hread, -, hends⟩ | ⟨e, t, -, -, hends⟩
      · obtain ⟨rfl, -⟩ := hends.of_ok hrun
        exact hunchecked.of_ok hread
      · exact (hends.of_ok hrun).elim
    | error f s =>
      refine (ends_error hrun).mpr ?_
      have hcases := (program_error_cases o tokens trace).of_error hrun
      cases f with
      | error e =>
        by_cases hstatic : e.isStatic = true
        · exact ⟨e, rfl, encoded_of_static htokens hon hrun hstatic⟩
        -- an error of grammar is found without checking as well
        · obtain ⟨t, hfails⟩ := unchecked_of_not_static hon hoff tokens hrun hstatic
          exact hunchecked.of_error hfails
      | _ => rcases hcases with h | h <;> cases h

end

end Parse

namespace Host

/-! ## §2. Replies -/

/-- What is before a NUL byte is well-formed if the whole is. -/
theorem isWellFormed_untilNul {source : Bytes} (h : isWellFormed source = true) :
    isWellFormed (untilNul source) = true := by
  have htext : untilNul source ++ source.dropWhile (· != 0) = source :=
    List.takeWhile_append_dropWhile
  have hhead := List.head?_dropWhile_not (· != 0) source
  cases hrest : source.dropWhile (· != 0) with
  | nil =>
    rw [hrest, List.append_nil] at htext
    rwa [htext]
  | cons b rest =>
    rw [hrest] at hhead htext
    -- the text is cut before a byte of ASCII
    obtain rfl : b = 0 := by simpa using hhead
    rw [← htext] at h
    exact (isWellFormed_cut (by decide) h).1

/-- Whether what is wrong with a text says well-formed things only. -/
def Problem.Encoded : Problem → Prop
  | lexical e => e.Encoded
  | failed (.error e) => e.Encoded
  | failed _ => False

/-- **A source text as a host reads it.** -/
theorem read_encoded (o : Options) {source : Bytes} (h : isWellFormed source = true) :
    Gives (read o source).1 Program.Encoded Problem.Encoded := by
  have hencoded := tokenize_encoded h
  unfold read tokenizeTraced
  cases htokens : tokenize source with
  | error e => exact hencoded.of_error htokens
  | ok tokens =>
    have hprogram := Parse.program_encoded (hencoded.of_ok htokens) o
      (if o.trace then #[.lexed tokens.length source.length] else #[])
    dsimp only [Except.map]
    split
    · next p s hrun => exact hprogram.of_ok hrun
    · next f s hrun =>
      obtain ⟨e, rfl, he⟩ := hprogram.of_error hrun
      exact he

/-- What a host writes about the outcome of a run, as it is before any repair. -/
def Query.written (q : Query) : Except Problem Program → Option Json
  | .ok p => some (q.result p)
  | .error (.lexical e) => some (diagnostics [diagnostic e.kind.name e.message (some e.pos)])
  | .error (.failed (.error e)) => some (diagnostics [diagnostic e.kindName e.message e.pos?])
  | .error (.failed _) => none

/-- Nothing else goes wrong with a well-formed text, so there is always something to
    write. -/
theorem exists_written (q : Query) {outcome : Except Problem Program}
    (h : Gives outcome Program.Encoded Problem.Encoded) : ∃ j, q.written outcome = some j := by
  cases outcome with
  | ok p => exact ⟨_, rfl⟩
  | error problem =>
    cases problem with
    | lexical e => exact ⟨_, rfl⟩
    | failed f =>
      cases f with
      | error e => exact ⟨_, rfl⟩
      | _ => exact h.elim

/-- A reply is what is written, with its strings repaired. -/
theorem json_reply (q : Query) (outcome : Except Problem Program × Trace) :
    (reply q outcome).json = (q.written outcome.1).map Json.repaired := by
  obtain ⟨result, trace⟩ := outcome
  cases result with
  | ok p => rfl
  | error problem =>
    cases problem with
    | lexical e => rfl
    | failed f => cases f <;> rfl

theorem encoded_diagnostic {kind : String} (hkind : (ascii kind).IsAscii) {message : Bytes}
    (hmessage : isWellFormed message = true) (pos : Option Pos) :
    (diagnostics [diagnostic kind message pos]).Encoded := by
  simp [diagnostics, diagnostic, Json.nat, Json.encoded_word hkind, hmessage]

theorem encoded_symbols {p : Program} (h : p.Encoded) : (symbols p).Encoded := by
  have hall : ∀ s ∈ p, ∀ site ∈ s.sites, site.node.Encoded := forall_sitesAfter.mp h
  rw [symbols, Json.encoded_obj, List.forall_mem_singleton, Json.encoded_arr]
  intro j hj
  obtain ⟨s, hs, hj⟩ := List.mem_filterMap.mp hj
  cases s with
  | fn pos name params body =>
    obtain rfl := Option.some.inj hj
    have hown := hall _ hs _ (Stmt.ownSites_subset _ List.mem_cons_self)
    have hname : isWellFormed name = true := Stmt.isWellFormed_of_names hown name List.mem_cons_self
    simp [Json.nat, hname]
  | _ => cases hj

/-- **What a host writes.** -/
theorem encoded_of_written (q : Query) {outcome : Except Problem Program}
    (h : Gives outcome Program.Encoded Problem.Encoded) :
    ∀ j ∈ q.written outcome, j.Encoded := by
  intro j hj
  cases outcome with
  | ok p =>
    obtain rfl := Option.some.inj hj
    cases q with
    | check => simp [Query.result, diagnostics]
    | program => exact Program.Encoded.toJson h
    | symbols => exact encoded_symbols h
  | error problem =>
    cases problem with
    | lexical e =>
      obtain rfl := Option.some.inj hj
      exact encoded_diagnostic e.kind.isAscii_name (LexError.Encoded.message h) _
    | failed f =>
      cases f with
      | error e =>
        obtain rfl := Option.some.inj hj
        exact encoded_diagnostic e.isAscii_kindName (ParseError.Encoded.message h) _
      | _ => cases hj

/-! ## §3. From the source to the reply -/

/-- **Well-formed text in, well-formed text out.**  Of a well-formed source, an error of
    the scanner says well-formed texts, and a character that it does not expect is one
    whole code point.  The names and the strings among the tokens are well-formed.  With
    checking or without, so are the strings in the JSON of the program, or else there is
    an error, and all that it says is.  Hence what a host takes back is what is written,
    without any repair. -/
theorem front_end_encoded {source : Bytes} (h : isWellFormed source = true) :
    (∀ e, tokenize source = .error e →
        isWellFormed e.text = true ∧ isWellFormed e.message = true
          ∧ (e.kind = .unexpectedCharacter → IsCodePoint e.text))
      ∧ (∀ tokens, tokenize source = .ok tokens →
        (∀ t ∈ tokens, ∀ text, t.lexeme = .ident text ∨ t.lexeme = .literal (.str text) →
            isWellFormed text = true)
          ∧ ∀ o : Options,
            (∀ p s, Parse.whole o tokens = .ok p s →
                ∀ text ∈ p.toJson.strings, isWellFormed text = true)
              ∧ ∀ f s, Parse.whole o tokens = .error f s → ∃ e, f = .error e ∧ e.Worded)
      ∧ ∀ (settings : List (Bytes × Bytes)) (q : Query),
        ∃ j, q.written (read (.ofEnvironment settings) (untilNul source)).1 = some j
          ∧ j.Encoded ∧ (answer settings q (some source) true true).json = some j := by
  refine ⟨?_, ?_, ?_⟩
  · intro e herr
    have he : e.Encoded := (tokenize_encoded h).of_error herr
    exact ⟨he.text, he.message, he.character⟩
  · intro tokens htokens
    have hencoded : ∀ t ∈ tokens, t.lexeme.Encoded := (tokenize_encoded h).of_ok htokens
    refine ⟨?_, ?_⟩
    · intro t ht text htext
      apply hencoded t ht
      rcases htext with hname | hstring
      · rw [hname]; rfl
      · rw [hstring]; rfl
    · intro o
      have hprogram := Parse.program_encoded hencoded o #[]
      refine ⟨fun p s hrun => Program.Encoded.toJson (hprogram.of_ok hrun), ?_⟩
      intro f s hrun
      obtain ⟨e, rfl, he⟩ := hprogram.of_error hrun
      exact ⟨e, rfl, he.worded⟩
  · intro settings q
    -- the host reads up to the first null byte, and what is cut there is well-formed
    have hread := read_encoded (.ofEnvironment settings) (isWellFormed_untilNul h)
    obtain ⟨j, hj⟩ := exists_written q hread
    have hencoded : j.Encoded := encoded_of_written q hread j hj
    refine ⟨j, hj, hencoded, ?_⟩
    show (reply q (read (.ofEnvironment settings) (untilNul source))).json = some j
    rw [json_reply, hj, Option.map_some, Json.repaired_of_encoded hencoded]

/-- `print "\é"`: a string with a backslash before a character of two bytes. -/
def accented : Bytes := ascii "print \"\\" ++ [0xC3, 0xA9] ++ ascii "\""

/-- `€`, which starts nothing. -/
def currency : Bytes := [0xE2, 0x82, 0xAC]

/-- The string is shown without any repair, and the character is blamed as a whole. -/
theorem front_end_encoded_multibyte :
    (∃ j, (answer [] .program (some accented) true true).json = some j ∧ j.Encoded)
      ∧ ∃ e, tokenize currency = .error e ∧ e.text = currency ∧ IsCodePoint e.text := by
  have haccented : isWellFormed accented = true := by decide +kernel
  have hcurrency : isWellFormed currency = true := by decide +kernel
  obtain ⟨j, -, hj, hanswer⟩ := (front_end_encoded haccented).2.2 [] .program
  have herr : tokenize currency = .error ⟨.unexpectedCharacter, currency, .start⟩ := by rfl
  exact ⟨⟨j, hanswer, hj⟩, _, herr, rfl, ((front_end_encoded hcurrency).1 _ herr).2.2 rfl⟩

end Host

end Lumen
