/-
  Lumen.Proofs.Lexing.Faults — the first piece of a text that is none.

  A text that does not fall into tokens has a first place where no piece of it can
  be taken: a number that there is not, a string that nothing closes, or a character
  that starts nothing.  What the error says is told by the text from that place on
  alone, and the three kinds exclude each other.

  What stands before that place falls into tokens when it stands alone.  To take a
  piece is to look at what follows it, but only ever for a reason to go on, and a
  text that is cut off gives fewer such reasons.  The one exception is a number
  before two dots: it would go on if the second of them were gone.  But two dots are
  a mark, so no text is ever cut off between them.

  Main statements:
    * `faulty_iff` — what the scanner finds fault with, and what it says then;
    * `scanAt_cut` — a piece is taken from a text that is cut off after it;
    * `tokensFrom_fault` — an error in a text has tokens in front of it;
    * `tokenize_fault` — an error names the first fault of its source.
-/
import Lumen.Proofs.Lexing.Tiling

namespace Lumen

/-! ## §1. Faults -/

/-- A run of digits and dots that denotes no number: it has more than one dot, or
    none and an integer too large, or one and a fraction out of range. -/
inductive Unnumbered : (run : Bytes) → Prop where
  | dots {run : Bytes} (h : 2 ≤ run.count Byte.dot) : Unnumbered run
  | int {run : Bytes} (hdigits : Byte.dot ∉ run) (h : twoTo 63 ≤ ofDigits run) : Unnumbered run
  | float {whole places : Bytes} (hwhole : Byte.dot ∉ whole) (hplaces : Byte.dot ∉ places)
      (h : Binary64.ofDigits? (ofDigits (whole ++ places)) places.length = none) :
      Unnumbered (whole ++ Byte.dot :: places)

/-- By its leading bits a byte announces an encoded character of some length.  A
    byte that announces none counts for itself. -/
inductive Announces (lead : UInt8) : (length : Nat) → Prop where
  | two (h : lead.toNat / 32 = 0b110) : Announces lead 2
  | three (h : lead.toNat / 16 = 0b1110) : Announces lead 3
  | four (h : lead.toNat / 8 = 0b11110) : Announces lead 4
  | one (htwo : lead.toNat / 32 ≠ 0b110) (hthree : lead.toNat / 16 ≠ 0b1110)
      (hfour : lead.toNat / 8 ≠ 0b11110) : Announces lead 1

/-- What is wrong at the start of a text, and the part of the text that is to blame
    for it. -/
inductive Faulty (left : Bytes) : (text : Bytes) → LexErrorKind → Prop where
  | number {run after : Bytes} (hleft : left = run ++ after) (hrun : Longest IsNumber run after)
      (h : Unnumbered run) : Faulty left run .invalidNumber
  /-- No quote after the first one is free of a backslash before it. -/
  | string {rest : Bytes} (hleft : left = Byte.quote :: rest)
      (hopen : ∀ body value after, Decodes body value → rest ≠ body ++ Byte.quote :: after) :
      Faulty left left .unterminatedString
  /-- The character may itself be cut off by the end of the text. -/
  | character {b : UInt8} {rest : Bytes} {n : Nat} (hleft : left = b :: rest)
      (hblank : Byte.isBlank b = false) (hword : Byte.startsWord b = false)
      (hdigit : Byte.isDigit b = false) (hquote : b ≠ Byte.quote)
      (hmark : ∀ m : Mark, ¬ m.bytes <+: left) (hn : Announces b n) :
      Faulty left (left.take n) .unexpectedCharacter

/-! ## §2. Runs that there is one of -/

/-- Of the runs that begin a text one is the longest. -/
theorem Longest.unique {Class : (run after : Bytes) → Prop} {run after run' after' : Bytes}
    (h : Longest Class run after) (h' : Longest Class run' after')
    (htext : run ++ after = run' ++ after') : run = run' := by
  obtain ⟨more, rfl, hafter⟩ | ⟨more, rfl, hafter⟩ := List.append_eq_append_iff.mp htext
  · rw [h.longest more after' hafter h'.belongs, List.append_nil]
  · rw [h'.longest more after hafter h.belongs, List.append_nil]

theorem numberLiteral?_eq_none_iff {run : Bytes} :
    numberLiteral? run = none ↔ Unnumbered run := by
  constructor
  · intro h
    unfold numberLiteral? at h
    split at h
    · next hcount =>
      split at h
      · cases h
      · next hlarge => exact .int (List.count_eq_zero.mp hcount) (Nat.le_of_not_lt hlarge)
    · next hcount =>
      -- one dot: digits before it and digits after it
      obtain ⟨whole, places, rfl, hwhole, hplaces, htake, hdrop⟩ := split_at_dot hcount
      simp only [htake, hdrop, Option.map_eq_none_iff] at h
      exact .float hwhole hplaces h
    · next hzero hone => exact .dots (Nat.lt_of_le_of_ne (Nat.pos_of_ne_zero hzero) (Ne.symm hone))
  · intro h
    unfold numberLiteral?
    cases h with
    | dots h =>
      split
      · omega
      · omega
      · rfl
    | int hdigits h =>
      rw [List.count_eq_zero.mpr hdigits]
      exact if_neg (Nat.not_lt_of_le h)
    | @float whole places hwhole hplaces h =>
      have hcount : (whole ++ Byte.dot :: places).count Byte.dot = 1 := by
        rw [List.count_append, List.count_cons_self, List.count_eq_zero.mpr hwhole,
          List.count_eq_zero.mpr hplaces]
      obtain ⟨htake, hdrop⟩ := parts_at_dot hwhole places
      rw [hcount]
      simp only [htake, hdrop, h, Option.map_none]

theorem announces_iff {lead : UInt8} {n : Nat} : Announces lead n ↔ n = announcedLength lead := by
  have hlength : announcedLength lead
      = if lead.toNat / 32 = 0b110 then 2 else if lead.toNat / 16 = 0b1110 then 3
        else if lead.toNat / 8 = 0b11110 then 4 else 1 := by
    have hall := Byte.forall_of_fin
      (p := fun lead => announcedLength lead
        == if lead.toNat / 32 = 0b110 then 2 else if lead.toNat / 16 = 0b1110 then 3
          else if lead.toNat / 8 = 0b11110 then 4 else 1) (by decide +kernel) lead
    simpa only [beq_iff_eq] using hall
  rw [hlength]
  constructor
  · intro h
    cases h with
    | two h => rw [if_pos h]
    | three h => rw [if_neg (by omega), if_pos h]
    | four h => rw [if_neg (by omega), if_neg (by omega), if_pos h]
    | one htwo hthree hfour => rw [if_neg htwo, if_neg hthree, if_neg hfour]
  · rintro rfl
    split
    · next h => exact .two h
    · next htwo =>
      split
      · next h => exact .three h
      · next hthree =>
        split
        · next h => exact .four h
        · next hfour => exact .one htwo hthree hfour

/-! ## §3. Strings and marks -/

/-- Before a quote a body is read up to that quote. -/
theorem stringBody?_of_decodes {body value : Bytes} (h : Decodes body value) (after : Bytes) :
    stringBody? (body ++ Byte.quote :: after) = some (value, body.length + 1) := by
  induction h with
  | nil => exact stringBody?_quote after
  | plain hquote hbackslash h ih =>
    rw [List.cons_append, stringBody?_plain (by simpa using hquote) (by simpa using hbackslash), ih]
    rfl
  | quote h ih | backslash h ih | lineFeed h ih | tab h ih =>
    rw [List.cons_append, List.cons_append, stringBody?_escape, ih]
    rfl
  | @other e body value he h ih =>
    have hself : unescaped e = [Byte.backslash, e] := by
      simp only [List.mem_cons, List.not_mem_nil, or_false, not_or] at he
      simp [unescaped, he.1, he.2.1, he.2.2.1, he.2.2.2]
    rw [List.cons_append, List.cons_append, stringBody?_escape, ih, Option.map_some, hself]
    rfl

/-- Without a quote that is free of backslashes there is no string. -/
theorem stringBody?_eq_none_iff {rest : Bytes} :
    stringBody? rest = none
      ↔ ∀ body value after, Decodes body value → rest ≠ body ++ Byte.quote :: after := by
  constructor
  · rintro h body value after hdecodes rfl
    rw [stringBody?_of_decodes hdecodes] at h
    cases h
  · intro h
    cases hbody : stringBody? rest with
    | none => rfl
    | some found =>
      obtain ⟨body, after, htext, -, hdecodes⟩ := decodes_of_stringBody? hbody
      exact absurd htext (h body _ after hdecodes)

theorem Mark.firstOf_eq_none_iff {text : Bytes} :
    Mark.firstOf text = none ↔ ∀ m : Mark, ¬ m.bytes <+: text := by
  unfold Mark.firstOf
  simp only [List.find?_eq_none, List.isPrefixOf_iff_prefix]
  exact ⟨fun h m => h m (Mark.mem_all m), fun h m _ => h m⟩

/-! ## §4. What the scanner finds fault with -/

/-- The scanner finds fault with what is faulty, and with nothing else. -/
theorem faulty_iff {b : UInt8} {rest text : Bytes} {kind : LexErrorKind} :
    Faulty (b :: rest) text kind ↔ scanAt b rest = .bad kind text := by
  constructor
  · intro h
    cases h with
    | @number run after hleft hrun h =>
      have hnumeral := hrun.belongs.isNumeral
      cases text with
      | nil => cases hnumeral
      | cons c tail =>
        obtain ⟨rfl, hrest⟩ := List.cons.inj hleft
        simp only [isNumeral, Bool.and_eq_true] at hnumeral
        have htext : b :: numberRun rest ++ rest.drop (numberRun rest).length
            = b :: tail ++ after := by
          rw [List.cons_append, numberRun_append_drop]
          exact hleft
        have hsame := (numberRun_longest hnumeral.1 rest).unique hrun htext
        rw [scanAt_number hnumeral.1, hsame, numberLiteral?_eq_none_iff.mpr h]
    | string hleft hopen =>
      obtain ⟨rfl, rfl⟩ := List.cons.inj hleft
      rw [scanAt_quote, stringBody?_eq_none_iff.mpr hopen]
    | @character c others n hleft hblank hword hdigit hquote hmark hn =>
      obtain ⟨rfl, rfl⟩ := List.cons.inj hleft
      -- a slash is a mark, so no comment starts here
      have hslash : b ≠ Byte.slash := by
        rintro rfl
        exact hmark .slash ⟨rest, rfl⟩
      have hstarts : StartsMark b rest :=
        ⟨hblank, fun hb => absurd hb hslash, hword, hdigit, hquote⟩
      rw [hstarts.scanAt, Mark.firstOf_eq_none_iff.mpr hmark, announces_iff.mp hn]
  · intro h
    obtain hblank | ⟨rfl, hhead⟩ | hword | hdigit | rfl | hmark := piece_cases b rest
    · rw [scanAt_blank hblank] at h
      cases h
    · rw [scanAt_comment hhead] at h
      cases h
    · rw [scanAt_word hword] at h
      cases h
    · rw [scanAt_number hdigit] at h
      split at h
      · cases h
      · next hnone =>
        cases h
        have htext : b :: rest
            = b :: numberRun rest ++ rest.drop (numberRun rest).length := by
          rw [List.cons_append, numberRun_append_drop]
        exact .number htext (numberRun_longest hdigit rest) (numberLiteral?_eq_none_iff.mp hnone)
    · rw [scanAt_quote] at h
      split at h
      · cases h
      · next hnone =>
        cases h
        exact .string rfl (stringBody?_eq_none_iff.mp hnone)
    · rw [hmark.scanAt] at h
      split at h
      · cases h
      · next hnone =>
        cases h
        exact .character rfl hmark.blank hmark.word hmark.digit hmark.quote
          (Mark.firstOf_eq_none_iff.mp hnone) (announces_iff.mpr rfl)

theorem Faulty.text_ne_nil {left text : Bytes} {kind : LexErrorKind}
    (h : Faulty left text kind) : text ≠ [] := by
  cases h with
  | number hleft hrun h =>
    rintro rfl
    cases hrun.belongs.isNumeral
  | string hleft hopen =>
    rw [hleft]
    exact List.cons_ne_nil _ _
  | character hleft hblank hword hdigit hquote hmark hn =>
    rw [hleft]
    cases hn <;> exact List.cons_ne_nil _ _

theorem Faulty.starts {left text : Bytes} {kind : LexErrorKind} (h : Faulty left text kind) :
    text <+: left := by
  cases h with
  | number hleft hrun h => exact ⟨_, hleft.symm⟩
  | string hleft hopen => exact List.prefix_rfl
  | character hleft hblank hword hdigit hquote hmark hn => exact List.take_prefix _ _

/-! ## §5. Texts that are cut off -/

/-- The start of a text, but not just the first of two dots. -/
structure CutOff (start text : Bytes) : Prop where
  starts : start <+: text
  dots : ∀ back, text = Byte.dot :: Byte.dot :: back → start ≠ [Byte.dot]

theorem CutOff.nil (text : Bytes) : CutOff [] text :=
  ⟨List.nil_prefix, fun _ _ => (List.cons_ne_nil _ _).symm⟩

section
variable {start text : Bytes} (h : start <+: text)
include h

/-- After something else the first byte is the same, if there is one. -/
theorem head?_of_cut {tail : Bytes} {c : UInt8} (hc : (tail ++ start).head? = some c) :
    (tail ++ text).head? = some c := by
  obtain ⟨others, rfl⟩ := h
  rw [← List.append_assoc, List.head?_append, hc]
  rfl

/-- A run that ends where the text is cut off ends there all the same. -/
theorem takeWhile_cut {p : UInt8 → Bool} {tail : Bytes}
    (hrun : ((tail ++ text).takeWhile p).length = tail.length) :
    (tail ++ start).takeWhile p = (tail ++ text).takeWhile p := by
  have htail : (tail ++ text).takeWhile p = tail := by
    have hstarts := List.prefix_iff_eq_take.mp (List.takeWhile_prefix p (l := tail ++ text))
    rw [hrun, List.take_left] at hstarts
    exact hstarts
  have hall : ∀ b ∈ tail, p b = true := by
    intro b hb
    rw [← htail] at hb
    exact List.all_eq_true.mp List.all_takeWhile b hb
  rw [List.takeWhile_append_of_pos hall] at htail ⊢
  rw [List.takeWhile_append_of_pos hall, htail]
  have hnone : text.takeWhile p = [] := List.append_right_eq_self.mp htail
  -- the first byte of the rest is none of the run
  cases start with
  | nil => exact List.append_nil tail
  | cons c start =>
    obtain ⟨others, rfl⟩ := h
    rw [List.cons_append, List.takeWhile_cons] at hnone
    rw [List.takeWhile_cons]
    split at hnone
    · cases hnone
    · next hc => rw [if_neg hc, List.append_nil]

end

section
variable {start text : Bytes} (h : CutOff start text)
include h

/-- A number that ends where the text is cut off ends there all the same: if two
    dots follow it, they both stay or both go. -/
theorem numberRun_cut {tail : Bytes} (hrun : (numberRun (tail ++ text)).length = tail.length) :
    numberRun (tail ++ start) = numberRun (tail ++ text) := by
  induction tail with
  | nil =>
    -- nothing of the text went into the number, so neither may the first byte of the start
    rw [List.nil_append] at hrun ⊢
    rw [List.nil_append, List.length_eq_zero_iff.mp hrun]
    cases start with
    | nil => rfl
    | cons c start =>
      obtain ⟨others, rfl⟩ := h.starts
      rw [List.cons_append, numberRun] at hrun
      rw [numberRun]
      split at hrun
      · cases hrun
      · next hc =>
        simp only [Bool.or_eq_true, Bool.and_eq_true, beq_iff_eq, bne_iff_ne, not_or, not_and,
          not_not] at hc
        apply if_neg
        simp only [Bool.or_eq_true, Bool.and_eq_true, beq_iff_eq, bne_iff_ne, not_or, not_and,
          not_not]
        -- a dot that ended the number had another one after it, and they are never parted
        refine ⟨hc.1, ?_⟩
        rintro rfl
        obtain ⟨back, hback⟩ := List.head?_eq_some_iff.mp (hc.2 rfl)
        cases start with
        | nil => exact absurd rfl (h.dots back (by rw [List.cons_append, hback]))
        | cons d start =>
          obtain ⟨rfl, -⟩ := List.cons.inj hback
          rfl
  | cons b tail ih =>
    rw [List.cons_append, numberRun] at hrun
    rw [List.cons_append, List.cons_append, numberRun, numberRun]
    split at hrun
    · next hb =>
      -- a byte inside of the number; if it is a dot, what follows it is no other dot
      have hsame := ih (Nat.succ.inj hrun)
      rw [if_pos hb, hsame]
      apply if_pos
      simp only [Bool.or_eq_true, Bool.and_eq_true, beq_iff_eq, bne_iff_ne] at hb ⊢
      exact hb.imp_right fun hdot => ⟨hdot.1, fun hhead => hdot.2 (head?_of_cut h.starts hhead)⟩
    · cases hrun

end

/-- A mark that ends where the text is cut off is found all the same: no longer one
    comes up. -/
theorem firstOf_cut {m : Mark} {tail start text : Bytes} (h : start <+: text)
    (hm : Mark.firstOf (tail ++ text) = some m) (htail : m.bytes.length = tail.length) :
    Mark.firstOf (tail ++ start) = some m := by
  obtain ⟨hfound, earlier, later, hall, hearlier⟩ := List.find?_eq_some_iff_append.mp hm
  have hshorter : tail ++ start <+: tail ++ text := (List.prefix_append_right_inj tail).mpr h
  have hbytes : m.bytes <+: tail := by
    rw [List.isPrefixOf_iff_prefix] at hfound
    exact List.prefix_of_prefix_length_le hfound (List.prefix_append _ _) (by omega)
  apply List.find?_eq_some_iff_append.mpr
  refine ⟨?_, earlier, later, hall, ?_⟩
  · rw [List.isPrefixOf_iff_prefix]
    exact hbytes.trans (List.prefix_append _ _)
  · intro m' hm'
    have hnot := hearlier m' hm'
    simp only [Bool.not_eq_true', ← Bool.not_eq_true, List.isPrefixOf_iff_prefix] at hnot ⊢
    exact fun hstarts => hnot (hstarts.trans hshorter)

/-! ## §6. Pieces of texts that are cut off -/

namespace Scanned

/-- How many bytes belong to a piece besides the first one. -/
def more? : Scanned → Option Nat
  | gap more | lexeme _ more => some more
  | bad _ _ => none

/-- The tokens that a piece at some place gives. -/
def tokensAt (p : Pos) : Scanned → List Token
  | lexeme l _ => [⟨l, p⟩]
  | gap _ | bad _ _ => []

end Scanned

theorem tail_of_more? {b : UInt8} {rest : Bytes} {n : Nat}
    (h : (scanAt b rest).more? = some n) : ∃ tail left, rest = tail ++ left ∧ tail.length = n := by
  cases hscan : scanAt b rest with
  | gap more =>
    rw [hscan] at h
    obtain rfl := Option.some.inj h
    obtain ⟨tail, left, hrest, hlength, -⟩ := gap_of_scanAt hscan
    exact ⟨tail, left, hrest, hlength⟩
  | lexeme l more =>
    rw [hscan] at h
    obtain rfl := Option.some.inj h
    obtain ⟨tail, left, hrest, hlength, -⟩ := denotes_of_scanAt hscan
    exact ⟨tail, left, hrest, hlength⟩
  | bad kind text =>
    rw [hscan] at h
    cases h

theorem tokensFrom_cons_more {b : UInt8} {rest : Bytes} {n : Nat} (p : Pos)
    (h : (scanAt b rest).more? = some n) :
    tokensFrom 0 p (b :: rest)
      = (tokensFrom n (p.step b) rest).map ((scanAt b rest).tokensAt p ++ ·) := by
  cases hscan : scanAt b rest with
  | gap more =>
    rw [hscan] at h
    obtain rfl := Option.some.inj h
    rw [tokensFrom_cons_gap p hscan]
    cases tokensFrom more (p.step b) rest <;> rfl
  | lexeme l more =>
    rw [hscan] at h
    obtain rfl := Option.some.inj h
    exact tokensFrom_cons_lexeme p hscan
  | bad kind text =>
    rw [hscan] at h
    cases h

/-- A piece is taken from a text that is cut off somewhere after it. -/
theorem scanAt_cut {b : UInt8} {tail start text : Bytes} (h : CutOff start text)
    (hmore : (scanAt b (tail ++ text)).more? = some tail.length) :
    scanAt b (tail ++ start) = scanAt b (tail ++ text) := by
  obtain hblank | ⟨rfl, hhead⟩ | hword | hdigit | rfl | hmark := piece_cases b (tail ++ text)
  · rw [scanAt_blank hblank, scanAt_blank hblank]
  · rw [scanAt_comment hhead] at hmore
    have hlength := Option.some.inj hmore
    have hsame := takeWhile_cut h.starts hlength
    -- a comment has its second slash before the text is cut off
    have hhead' : (tail ++ start).head? = some Byte.slash := by
      cases tail with
      | nil =>
        obtain ⟨back, hback⟩ := List.head?_eq_some_iff.mp hhead
        rw [hback] at hlength
        cases hlength
      | cons c tail => exact hhead
    rw [scanAt_comment hhead, scanAt_comment hhead', hsame]
  · rw [scanAt_word hword] at hmore ⊢
    rw [scanAt_word hword, takeWhile_cut h.starts (Option.some.inj hmore)]
  · have hlength : (numberRun (tail ++ text)).length = tail.length := by
      rw [scanAt_number hdigit] at hmore
      split at hmore
      · exact Option.some.inj hmore
      · cases hmore
    rw [scanAt_number hdigit, scanAt_number hdigit, numberRun_cut h hlength]
  · rw [scanAt_quote] at hmore ⊢
    rw [scanAt_quote]
    cases hbody : stringBody? (tail ++ text) with
    | none =>
      rw [hbody] at hmore
      cases hmore
    | some found =>
      obtain ⟨value, n⟩ := found
      rw [hbody] at hmore
      obtain rfl := Option.some.inj hmore
      obtain ⟨body, after, htext, hlength, hdecodes⟩ := decodes_of_stringBody? hbody
      have hquoted : tail ++ text = (body ++ [Byte.quote]) ++ after := by
        rw [htext, List.append_assoc]
        rfl
      obtain ⟨rfl, rfl⟩ := List.append_inj hquoted (by rw [hlength, List.length_append]; rfl)
      rw [List.append_assoc]
      have hcut := stringBody?_of_decodes hdecodes start
      rw [← hlength] at hcut
      rw [List.singleton_append, hcut]
  · have hmark' : StartsMark b (tail ++ start) :=
      { hmark with comment := fun hb hhead => hmark.comment hb (head?_of_cut h.starts hhead) }
    rw [hmark.scanAt] at hmore ⊢
    rw [hmark'.scanAt]
    cases hm : Mark.firstOf (b :: (tail ++ text)) with
    | none =>
      rw [hm] at hmore
      cases hmore
    | some m =>
      rw [hm] at hmore
      have hlength : m.bytes.length = (b :: tail).length := by
        have hpos : 0 < m.bytes.length := by cases m <;> decide
        have hrest : m.bytes.length - 1 = tail.length := Option.some.inj hmore
        rw [List.length_cons]
        omega
      have hcut : Mark.firstOf ((b :: tail) ++ start) = some m := firstOf_cut h.starts hm hlength
      rw [List.cons_append] at hcut
      rw [hcut]

/-- Two dots are taken together, so a text is not cut off between them. -/
theorem CutOff.after {b : UInt8} {tail start text : Bytes}
    (hmore : (scanAt b (tail ++ text)).more? = some tail.length) (h : CutOff start text) :
    CutOff (b :: (tail ++ start)) (b :: (tail ++ text)) where
  starts := (List.prefix_append_right_inj (b :: tail)).mpr h.starts
  dots := by
    intro back htext hstart
    obtain ⟨rfl, hrest⟩ := List.cons.inj htext
    rw [hrest] at hmore
    have htail : 1 = tail.length := Option.some.inj hmore
    have hlength := congrArg List.length hstart
    rw [List.length_cons, List.length_append, List.length_singleton] at hlength
    omega

/-! ## §7. The first fault -/

/-- An error in a text is found after some pieces, and these are all of the text that
    stands in front of it.  By induction on the length of the text, of which every
    piece takes at least one byte. -/
theorem tokensFrom_fault {p : Pos} {text : Bytes} {e : LexError}
    (h : tokensFrom 0 p text = .error e) :
    ∃ read b rest, text = read ++ b :: rest ∧ scanAt b rest = .bad e.kind e.text
      ∧ e.pos = p.advance read ∧ (∃ tokens, tokensFrom 0 p read = .ok tokens)
      ∧ CutOff read text := by
  induction hn : text.length using Nat.strongRecOn generalizing p text with
  | ind n ih =>
    cases text with
    | nil =>
      rw [tokensFrom_nil] at h
      cases h
    | cons b rest =>
      cases hmore : (scanAt b rest).more? with
      | none =>
        cases hscan : scanAt b rest with
        | gap more | lexeme l more =>
          rw [hscan] at hmore
          cases hmore
        | bad kind text =>
          rw [tokensFrom_cons_bad p hscan] at h
          obtain rfl := Except.error.inj h
          exact ⟨[], b, rest, rfl, hscan, rfl, ⟨_, tokensFrom_nil 0 p⟩, .nil _⟩
      | some more =>
        obtain ⟨tail, left, rfl, rfl⟩ := tail_of_more? hmore
        rw [tokensFrom_cons_more p hmore, tokensFrom_append] at h
        have hleft : tokensFrom 0 ((p.step b).advance tail) left = .error e := by
          cases hrun : tokensFrom 0 ((p.step b).advance tail) left with
          | ok tokens => rw [hrun] at h; cases h
          | error e' => rw [hrun] at h; exact h
        rw [List.length_cons, List.length_append] at hn
        obtain ⟨read, c, after, hread, hfault, hpos, ⟨tokens, htokens⟩, hcut⟩ :=
          ih left.length (by omega) hleft rfl
        -- the piece is taken again, and then the pieces that follow it
        have hagain := scanAt_cut hcut hmore
        refine ⟨b :: (tail ++ read), c, after, ?_, hfault, ?_, ?_, hcut.after hmore⟩
        · rw [hread, List.cons_append, List.append_assoc]
        · rw [hpos, Pos.advance_cons, Pos.advance_append]
        · rw [← hagain] at hmore
          rw [tokensFrom_cons_more p hmore, tokensFrom_append, htokens]
          exact ⟨_, rfl⟩

/-- **An error names the first fault.**  The text to blame is not empty, and it is
    what stands in the source at the place of the error, the line and column of which
    are told by the bytes before it.  These bytes alone fall into tokens.  What is
    wrong at that place is what the error says, and nothing else. -/
theorem tokenize_fault {source : Bytes} {e : LexError} (h : tokenize source = .error e) :
    e.text ≠ [] ∧ e.text <+: source.drop e.pos.offset ∧ e.pos.IsIn source
      ∧ (∃ tokens, tokenize (source.take e.pos.offset) = .ok tokens)
      ∧ ∀ text kind, Faulty (source.drop e.pos.offset) text kind
          ↔ text = e.text ∧ kind = e.kind := by
  obtain ⟨read, b, rest, rfl, hscan, hpos, htokens, -⟩ := tokensFrom_fault h
  rw [advance_start] at hpos
  have hoffset : e.pos.offset = read.length := congrArg Pos.offset hpos
  have hfaulty : Faulty (b :: rest) e.text e.kind := faulty_iff.mpr hscan
  rw [hoffset, List.drop_left, List.take_left]
  refine ⟨hfaulty.text_ne_nil, hfaulty.starts, ?_, htokens, ?_⟩
  · rw [hpos]
    exact Pos.isIn_after read (b :: rest)
  · intro text kind
    constructor
    · intro hother
      -- the scanner finds one thing at a place, so nothing else is wrong there
      have hsame := faulty_iff.mp hother
      rw [hscan] at hsame
      injection hsame with hkind htext
      exact ⟨htext.symm, hkind.symm⟩
    · rintro ⟨rfl, rfl⟩
      exact hfaulty

/-- A number before two dots, a comment, a string with an escaped quote at its end,
    and then a character of three bytes of which the last is missing. -/
theorem tokenize_fault_character :
    (ascii "7../=//c\n\"a\\\"\"" ++ [0xE2, 0x82]).drop 14 = [0xE2, 0x82]
      ∧ (∃ tokens, tokenize ((ascii "7../=//c\n\"a\\\"\"" ++ [0xE2, 0x82]).take 14) = .ok tokens)
      ∧ Faulty [0xE2, 0x82] [0xE2, 0x82] .unexpectedCharacter := by
  have herror : tokenize (ascii "7../=//c\n\"a\\\"\"" ++ [0xE2, 0x82])
      = .error ⟨.unexpectedCharacter, [0xE2, 0x82], ⟨14, 2, 6⟩⟩ := by
    decide +kernel
  obtain ⟨-, -, -, htokens, hfaulty⟩ := tokenize_fault herror
  exact ⟨rfl, htokens, (hfaulty _ _).mpr ⟨rfl, rfl⟩⟩

end Lumen
