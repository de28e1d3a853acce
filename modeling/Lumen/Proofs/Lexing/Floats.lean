/-
  Lumen.Proofs.Lexing.Floats — doubles and the texts they are written as.

  A text with a point writes a quotient out, and it is read as the double nearest
  to that quotient.  Both notations write out quotients: the plain one the decimal
  itself, the fixed one the decimal that the number is rounded to.  What a double
  reads back as is then a matter of these quotients alone.

  A double that is read in a text has no sign and is finite.  It reads back from its
  own text unless it is subnormal.  A subnormal one never does: its text is not
  exact, and a number that loses digits below the least normal one is out of range.

  Main statements:
    * `writesOut_plain`, `writesOut_fixed` — what the notations write out;
    * `tokenize_of_some`, `tokenize_of_none` — how such a text is read;
    * `Binary64.readsBack_of_normal`, `Binary64.tokenize_text_of_subnormal` — the two
      kinds of doubles;
    * `floats_read_back` — the doubles that are read in a text.
-/
import Lumen.Proofs.Lexing.Pieces
import Lumen.Proofs.Lexing.RoundTrip
import Lumen.Proofs.Numbers.Decimals

namespace Lumen

/-! ## §1. Digits put together -/

theorem ofDigits_append (s t : Bytes) :
    ofDigits (s ++ t) = ofDigits s * tenTo t.length + ofDigits t := by
  induction t using List.reverseRecOn with
  | nil =>
    show ofDigits (s ++ []) = ofDigits s * 1 + 0
    rw [List.append_nil]
    omega
  | append_singleton t b ih =>
    rw [← List.append_assoc, ofDigits_append_single, ofDigits_append_single, ih,
      List.length_append, List.length_singleton, tenTo_succ]
    ring

theorem ofDigits_zeros (k : Nat) : ofDigits (List.replicate k (digitByte 0)) = 0 := by
  induction k with
  | zero => rfl
  | succ k ih =>
    rw [List.replicate_succ', ofDigits_append_single, ih]
    rfl

theorem isDigit_zeros (k : Nat) :
    ∀ b ∈ List.replicate k (digitByte 0), Byte.isDigit b = true := by
  intro b hb
  rw [List.eq_of_mem_replicate hb]
  decide

/-- The zero that stands alone in front of a point or after it. -/
theorem isDigit_zero : ∀ b ∈ ascii "0", Byte.isDigit b = true := List.all_eq_true.mp (by decide)

theorem ofDigits_zero : ofDigits (ascii "0") = 0 := by decide

theorem isDigit_append {s t : Bytes} (hs : ∀ b ∈ s, Byte.isDigit b = true)
    (ht : ∀ b ∈ t, Byte.isDigit b = true) : ∀ b ∈ s ++ t, Byte.isDigit b = true := by
  intro b hb
  rcases List.mem_append.mp hb with hb | hb
  · exact hs b hb
  · exact ht b hb

theorem length_decimal_le {n k : Nat} (hk : 0 < k) (h : n < tenTo k) : (decimal n).length ≤ k := by
  induction n using decimal_induction generalizing k with
  | small n hn =>
    rw [decimal_of_lt hn]
    exact hk
  | step n hn ih =>
    obtain ⟨k, rfl⟩ : ∃ j, k = j + 1 := ⟨k - 1, by omega⟩
    rw [tenTo_succ] at h
    have htenth : n / 10 < tenTo k := by omega
    have hpos : 0 < k := by
      apply Nat.pos_of_ne_zero
      rintro rfl
      have hzero : tenTo 0 = 1 := rfl
      omega
    rw [decimal_of_le hn, List.length_append, List.length_singleton]
    exact Nat.succ_le_succ (ih hpos htenth)

section
variable (width n : Nat)

theorem isDigit_padded : ∀ b ∈ padded width n, Byte.isDigit b = true :=
  isDigit_append (isDigit_zeros _) (isDigit_of_mem_decimal n)

theorem ofDigits_padded : ofDigits (padded width n) = n := by
  unfold padded
  rw [ofDigits_append, ofDigits_zeros, ofDigits_decimal]
  omega

theorem length_padded {width n : Nat} (h : (decimal n).length ≤ width) :
    (padded width n).length = width := by
  unfold padded
  rw [List.length_append, List.length_replicate]
  omega

end

/-! ## §2. Texts that write out a quotient -/

/-- A text is the quotient written out: some digits, a point and the places. -/
inductive WritesOut : Bytes → Ratio → Prop where
  | intro {whole places : Bytes} (hne : whole ≠ []) (hwhole : ∀ b ∈ whole, Byte.isDigit b = true)
      (hplaces : ∀ b ∈ places, Byte.isDigit b = true) :
      WritesOut (whole ++ Byte.dot :: places)
        ⟨ofDigits (whole ++ places), tenTo places.length⟩

theorem WritesOut.den_pos {s : Bytes} {r : Ratio} (h : WritesOut s r) : 0 < r.den := by
  cases h
  exact tenTo_pos _

/-- Zeros follow the digits, and one place. -/
theorem writesOut_whole (n e : Nat) :
    WritesOut (decimal n ++ List.replicate e (digitByte 0) ++ ascii ".0")
      ⟨n * tenTo e * tenTo 1, tenTo 1⟩ := by
  have hwrites : WritesOut (decimal n ++ List.replicate e (digitByte 0) ++ ascii ".0")
      ⟨ofDigits (decimal n ++ List.replicate e (digitByte 0) ++ ascii "0"), tenTo 1⟩ :=
    .intro (List.append_ne_nil_of_left_ne_nil (decimal_ne_nil _) _)
      (isDigit_append (isDigit_of_mem_decimal n) (isDigit_zeros e)) isDigit_zero
  have hone : tenTo (ascii "0").length = tenTo 1 := rfl
  rwa [ofDigits_append, ofDigits_append, ofDigits_zeros, ofDigits_decimal, ofDigits_zero,
    List.length_replicate, hone] at hwrites

/-- Digits stand on both sides of the point. -/
theorem writesOut_inside {n places : Nat} (h : places < (decimal n).length) :
    WritesOut ((decimal n).take ((decimal n).length - places) ++ ascii "."
      ++ (decimal n).drop ((decimal n).length - places)) ⟨n, tenTo places⟩ := by
  have hdigits := isDigit_of_mem_decimal n
  have hdenotes := ofDigits_decimal n
  set digits := decimal n
  -- fewer places than digits, so some digits are left in front of the point
  have hne : digits.take (digits.length - places) ≠ [] := by
    intro hnil
    have hlength := congrArg List.length hnil
    rw [List.length_take, List.length_nil] at hlength
    omega
  have hwrites : WritesOut
      (digits.take (digits.length - places) ++ Byte.dot :: digits.drop (digits.length - places))
      ⟨ofDigits (digits.take (digits.length - places) ++ digits.drop (digits.length - places)),
        tenTo (digits.drop (digits.length - places)).length⟩ :=
    .intro hne (fun b hb => hdigits b (List.mem_of_mem_take hb))
      fun b hb => hdigits b (List.mem_of_mem_drop hb)
  have hlength : digits.length - (digits.length - places) = places := by omega
  rw [List.take_append_drop, hdenotes, List.length_drop, hlength] at hwrites
  rw [List.append_assoc]
  exact hwrites

/-- Nothing but zeros stands in front of the digits. -/
theorem writesOut_below {n places : Nat} (h : (decimal n).length ≤ places) :
    WritesOut (ascii "0." ++ padded places n) ⟨n, tenTo places⟩ := by
  have hwrites : WritesOut (ascii "0" ++ Byte.dot :: padded places n)
      ⟨ofDigits (ascii "0" ++ padded places n), tenTo (padded places n).length⟩ :=
    .intro (by decide) isDigit_zero (isDigit_padded _ _)
  rw [ofDigits_append, ofDigits_padded, ofDigits_zero, Nat.zero_mul, Nat.zero_add,
    length_padded h] at hwrites
  exact hwrites

/-- Plain notation writes out the decimal. -/
theorem writesOut_plain (d : Decimal) : ∃ r, WritesOut d.plain r ∧ r.value = d.value := by
  unfold Decimal.plain
  dsimp only
  split
  · next hwhole =>
    -- a whole number: zeros are put behind the digits
    obtain ⟨e, he⟩ := Int.eq_ofNat_of_zero_le hwhole
    rw [he, Int.toNat_natCast]
    refine ⟨_, writesOut_whole d.coefficient e, ?_⟩
    unfold Ratio.value Decimal.value
    push_cast
    rw [he, zpow_natCast, cast_tenTo, cast_tenTo]
    field_simp
  · next hfraction =>
    have hvalue : (⟨d.coefficient, tenTo (-d.exponent).toNat⟩ : Ratio).value = d.value := by
      have hexp : (((-d.exponent).toNat : Nat) : Int) = -d.exponent := by omega
      unfold Ratio.value Decimal.value
      rw [cast_tenTo, ← zpow_natCast, hexp, zpow_neg, div_inv_eq_mul]
    refine ⟨_, ?_, hvalue⟩
    split
    · next hlt => exact writesOut_inside hlt
    · next hle =>
      rw [List.append_assoc]
      exact writesOut_below (Nat.not_lt.mp hle)

/-- Fixed notation writes out the decimal that the quotient is rounded to. -/
theorem writesOut_fixed (r : Ratio) {places : Nat} (h : 0 < places) :
    WritesOut (r.fixed places) (r.toPlaces places) := by
  have hmod := Nat.mod_lt (r.scaleTen places).round (tenTo_pos places)
  have hlength := length_padded (length_decimal_le h hmod)
  have hvalue : r.toPlaces places
      = ⟨ofDigits (decimal ((r.scaleTen places).round / tenTo places)
          ++ padded places ((r.scaleTen places).round % tenTo places)),
        tenTo (padded places ((r.scaleTen places).round % tenTo places)).length⟩ := by
    rw [ofDigits_append, ofDigits_decimal, ofDigits_padded, hlength, Nat.mul_comm,
      Nat.div_add_mod]
    rfl
  rw [hvalue]
  unfold Ratio.fixed
  rw [List.append_assoc]
  exact .intro (decimal_ne_nil _) (isDigit_of_mem_decimal _) (isDigit_padded _ _)

/-! ## §3. Reading such a text -/

/-- One point among digits ends no run. -/
theorem numberRun_dot {s t : Bytes} (hs : ∀ b ∈ s, Byte.isDigit b = true)
    (ht : ∀ b ∈ t, Byte.isDigit b = true) :
    numberRun (s ++ Byte.dot :: t) = s ++ Byte.dot :: t := by
  induction s with
  | nil =>
    have hnext : t.head? ≠ some Byte.dot := by
      intro hdot
      exact absurd (ht _ (List.mem_of_mem_head? hdot)) (by decide)
    rw [List.nil_append, numberRun, numberRun_of_digits ht, if_pos (by simp [hnext])]
  | cons b s ih =>
    have hb := hs b List.mem_cons_self
    rw [List.cons_append, numberRun, hb, Bool.true_or, if_pos rfl,
      ih fun c hc => hs c (List.mem_cons_of_mem b hc)]

section
variable {s : Bytes} {r : Ratio} (h : WritesOut s r)
include h

/-- It is scanned whole, for the double nearest to the quotient. -/
theorem WritesOut.scanned : ∃ b tail, s = b :: tail ∧ Byte.isDigit b = true
    ∧ numberRun tail = tail ∧ numberLiteral? s = (Binary64.ofRatio? r).map .float := by
  cases h with
  | @intro whole places hne hwhole hplaces =>
    obtain ⟨b, tail, rfl⟩ := List.exists_cons_of_ne_nil hne
    refine ⟨b, tail ++ Byte.dot :: places, rfl, hwhole b List.mem_cons_self,
      numberRun_dot (fun c hc => hwhole c (List.mem_cons_of_mem b hc)) hplaces, ?_⟩
    have hcount : (b :: tail ++ Byte.dot :: places).count Byte.dot = 1 := by
      rw [List.count_append, List.count_cons_self, count_dot_of_digits hwhole,
        count_dot_of_digits hplaces]
    -- the run is parted at its only dot
    have hbefore : ∀ c ∈ b :: tail, (c != Byte.dot) = true := by
      intro c hc
      rw [bne_iff_ne]
      rintro rfl
      exact absurd (hwhole _ hc) (by decide)
    have htake : (b :: tail ++ Byte.dot :: places).takeWhile (· != Byte.dot) = b :: tail := by
      rw [List.takeWhile_append_of_pos hbefore]
      simp
    have hdrop : ((b :: tail ++ Byte.dot :: places).dropWhile (· != Byte.dot)).drop 1
        = places := by
      rw [List.dropWhile_append_of_pos hbefore]
      simp
    unfold numberLiteral?
    rw [hcount]
    dsimp only
    rw [htake, hdrop]
    rfl

theorem tokenize_of_some {x : Binary64} (hx : Binary64.ofRatio? r = some x) :
    tokenize s = .ok [⟨.literal (.float x), .start⟩, ⟨.eof, Pos.start.advance s⟩] := by
  obtain ⟨b, tail, rfl, hdigit, hrun, hliteral⟩ := h.scanned
  have hscan := scanAt_number hdigit tail
  rw [hrun, hliteral, hx] at hscan
  have hrest := tokensFrom_append tail [] (Pos.start.step b)
  rw [List.append_nil, tokensFrom_nil] at hrest
  unfold tokenize
  rw [tokensFrom_cons_lexeme _ hscan, hrest]
  rfl

theorem tokenize_of_none (hnone : Binary64.ofRatio? r = none) :
    tokenize s = .error ⟨.invalidNumber, s, .start⟩ := by
  obtain ⟨b, tail, rfl, hdigit, hrun, hliteral⟩ := h.scanned
  have hscan := scanAt_number hdigit tail
  rw [hrun, hliteral, hnone] at hscan
  exact tokensFrom_cons_bad _ hscan

end

/-! ## §4. Doubles without a sign -/

namespace Binary64

section
variable {x : Binary64} (hx : x.IsMagnitude)
include hx

theorem text_eq : x.text = if isMiddling x.shortest.leadingExponent || x.isZero
    then x.shortest.plain else x.magnitude.fixed x.places := by
  have htop : (x.biased == topExponent) = false := beq_eq_false_iff_ne.mpr (biased_lt hx).ne
  unfold text unsignedText isNaN isInfinite
  rw [isNegative_eq_false hx, htop]
  rfl

theorem eq_zero_of_isZero (hzero : x.isZero = true) : x = ⟨0⟩ := by
  unfold isZero at hzero
  rw [Bool.and_eq_true, beq_iff_eq, beq_iff_eq] at hzero
  have hbits := bits_eq hx
  rw [hzero.1, hzero.2] at hbits
  have hword : x.bits = 0 := UInt64.toNat_inj.mp hbits
  cases x
  exact congrArg mk hword

end

theorem readsBack_zero : (⟨0⟩ : Binary64).ReadsBack := by
  have htext : (⟨0⟩ : Binary64).text = ascii "0.0" := by decide +kernel
  refine ⟨[⟨.literal (.float ⟨0⟩), {}⟩, ⟨.eof, ⟨3, 1, 4⟩⟩], ?_, rfl⟩
  rw [htext]
  rfl

theorem places_pos (x : Binary64) : 0 < x.places := by
  unfold places
  split
  · omega
  · omega

/-- Zero and the normal numbers read back. -/
theorem readsBack_of_normal {x : Binary64} (hx : x.IsMagnitude) (h : x.isSubnormal = false) :
    x.ReadsBack := by
  cases hzero : x.isZero with
  | true => exact eq_zero_of_isZero hx hzero ▸ readsBack_zero
  | false =>
    have hne : x.mantissa ≠ 0 := by
      rw [← Bool.not_eq_true, isZero_iff] at hzero
      exact hzero
    have hnormal : x.biased ≠ 0 := by
      intro hbiased
      have hfraction : x.fraction = 0 := by simpa [isSubnormal, hbiased] using h
      simp [isZero, hbiased, hfraction] at hzero
    have htext := text_eq hx
    rw [hzero, Bool.or_false] at htext
    -- the text writes out something that is near
    have hnear : ∃ r, WritesOut x.text r ∧ x.Attracts r.value := by
      cases hmiddling : isMiddling x.shortest.leadingExponent with
      | true =>
        obtain ⟨r, hwrites, hvalue⟩ := writesOut_plain x.shortest
        have hattracts := (shortest_resembles hne).attracts (one_lt_biased hne hmiddling)
        rw [hmiddling, if_pos rfl] at htext
        exact ⟨r, htext ▸ hwrites, hvalue ▸ hattracts⟩
      | false =>
        have hattracts := attracts_of_abs_lt hnormal (rounded_near hne hmiddling)
        rw [hmiddling, if_neg (by decide)] at htext
        exact ⟨_, htext ▸ writesOut_fixed x.magnitude x.places_pos, hattracts⟩
    obtain ⟨r, hwrites, hattracts⟩ := hnear
    exact ⟨_, tokenize_of_some hwrites
      (ofRatio?_of_attracts hx hnormal hwrites.den_pos hattracts), rfl⟩

/-- The text of a subnormal number is no number. -/
theorem tokenize_text_of_subnormal {x : Binary64} (hx : x.IsMagnitude)
    (h : x.isSubnormal = true) : tokenize x.text = .error ⟨.invalidNumber, x.text, .start⟩ := by
  unfold isSubnormal at h
  rw [Bool.and_eq_true, beq_iff_eq, bne_iff_ne] at h
  obtain ⟨hbiased, hfraction⟩ := h
  have hne : x.mantissa ≠ 0 := by
    unfold mantissa
    rwa [if_pos hbiased]
  have hzero : x.isZero = false := by
    rw [← Bool.not_eq_true, isZero_iff]
    exact hne
  -- it is too small to be written in plain notation
  have hmiddling : isMiddling x.shortest.leadingExponent = false := by
    rw [← Bool.not_eq_true]
    intro hmiddling
    have hone := one_lt_biased hne hmiddling
    omega
  have htext := text_eq hx
  rw [hzero, hmiddling, Bool.or_false, if_neg (by decide)] at htext
  have hwrites := writesOut_fixed x.magnitude x.places_pos
  rw [← htext] at hwrites
  exact tokenize_of_none hwrites (rounded_between hbiased hne)

end Binary64

/-! ## §5. The doubles in a text -/

/-- What is read has no sign and is finite. -/
theorem isMagnitude_of_denotes {run after : Bytes} {l : Lexeme} {x : Binary64}
    (h : Denotes run after l) (hl : l = .literal (.float x)) : x.IsMagnitude := by
  cases h with
  | float hlongest hwhole hplaces hvalue =>
    cases hl
    exact Binary64.isMagnitude_of_ofRatio? hvalue
  | _ => cases hl

theorem isMagnitude_of_tokenize {source : Bytes} {tokens : List Token}
    (h : tokenize source = .ok tokens) {x : Binary64}
    (hx : .literal (.float x) ∈ tokens.map Token.lexeme) : x.IsMagnitude := by
  obtain ⟨ls, hls, hscanned⟩ := lexemes_of_tokensFrom h
  rw [hls] at hx
  rcases List.mem_append.mp hx with hmem | heof
  · obtain ⟨b, rest, more, hscan⟩ := hscanned _ hmem
    obtain ⟨tail, after, -, -, hdenotes⟩ := denotes_of_scanAt hscan
    exact isMagnitude_of_denotes hdenotes rfl
  · cases List.mem_singleton.mp heof

/-- **Which doubles read back.**  The text of a double that was read in a source text is
    read as that double and nothing else, unless the double is subnormal.  The text of
    a subnormal one is an invalid number from its start to its end. -/
theorem floats_read_back {source : Bytes} {tokens : List Token}
    (h : tokenize source = .ok tokens) {x : Binary64}
    (hx : .literal (.float x) ∈ tokens.map Token.lexeme) :
    (x.isSubnormal = false → x.ReadsBack)
      ∧ (x.isSubnormal = true →
        tokenize x.text = .error ⟨.invalidNumber, x.text, .start⟩) :=
  ⟨Binary64.readsBack_of_normal (isMagnitude_of_tokenize h hx),
    Binary64.tokenize_text_of_subnormal (isMagnitude_of_tokenize h hx)⟩

/-- Half of the least normal number. -/
def halfOfLeastNormal : Binary64 := ⟨0x0008000000000000⟩

/-- The number `2 ^ -1023` with all its 1023 places. -/
def halfOfLeastNormalText : Bytes := ascii "0." ++ padded 1023 (tenTo 1023 / twoTo 1023)

theorem tokenize_halfOfLeastNormalText : tokenize halfOfLeastNormalText
    = .ok [⟨.literal (.float halfOfLeastNormal), .start⟩,
        ⟨.eof, Pos.start.advance halfOfLeastNormalText⟩] := by
  have hlt : tenTo 1023 / twoTo 1023 < tenTo 1023 :=
    Nat.div_lt_self (tenTo_pos _) (by decide +kernel)
  exact tokenize_of_some (writesOut_below (length_decimal_le (by omega) hlt)) (by decide +kernel)

/-- Two and a half reads back, and half of the least normal number does not. -/
theorem floats_read_back_halves :
    twoAndAHalf.ReadsBack
      ∧ tokenize halfOfLeastNormal.text
        = .error ⟨.invalidNumber, halfOfLeastNormal.text, .start⟩ := by
  have htokens : tokenize (ascii "2.5")
      = .ok [⟨.literal (.float twoAndAHalf), {}⟩, ⟨.eof, ⟨3, 1, 4⟩⟩] := rfl
  constructor
  · exact (floats_read_back htokens List.mem_cons_self).1 (by decide)
  · exact (floats_read_back tokenize_halfOfLeastNormalText List.mem_cons_self).2 (by decide)

/-- So not every double that is read in a text reads back. -/
theorem not_every_float_reads_back :
    ¬ ∀ (source : Bytes) (tokens : List Token), tokenize source = .ok tokens →
      ∀ x, .literal (.float x) ∈ tokens.map Token.lexeme → x.ReadsBack := by
  intro hall
  have hmagnitude := isMagnitude_of_tokenize tokenize_halfOfLeastNormalText List.mem_cons_self
  obtain ⟨tokens, htokens, -⟩ :=
    hall _ _ tokenize_halfOfLeastNormalText halfOfLeastNormal List.mem_cons_self
  rw [Binary64.tokenize_text_of_subnormal hmagnitude (by decide)] at htokens
  cases htokens

end Lumen
