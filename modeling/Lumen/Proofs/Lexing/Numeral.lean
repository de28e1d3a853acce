/-
  Lumen.Proofs.Lexing.Numeral — the bytes that numbers are written with.

  A natural number is written with digits only, and they denote it again.  A
  double that is finite and not negative is written with digits and dots, the
  first of them a digit, whichever notation it gets.  So neither text can hold
  a blank, a comment or a mark that would end it early.

  Main statements:
    * `ofDigits_decimal` — the digits of a number denote it;
    * `isNumeral_unsignedText` — a finite double is written with digits and
      dots;
    * `numberRun_append` — a run of digits and dots ends before any other byte.
-/
import Lumen.Token.Scan

namespace Lumen

/-! ## §1. Digits -/

theorem isDigit_digitByte {d : Nat} (h : d < 10) : Byte.isDigit (digitByte d) = true := by
  have hall : ∀ d : Fin 10, Byte.isDigit (digitByte d) = true := by decide
  exact hall ⟨d, h⟩

theorem toNat_digitByte {d : Nat} (h : d < 10) : (digitByte d).toNat - 48 = d := by
  have hall : ∀ d : Fin 10, (digitByte d).toNat - 48 = d := by decide
  exact hall ⟨d, h⟩

/-- What holds of the digits of a number is proved along its tenths. -/
theorem decimal_induction {motive : Nat → Prop} (small : ∀ n, n < 10 → motive n)
    (step : ∀ n, 10 ≤ n → motive (n / 10) → motive n) (n : Nat) : motive n := by
  induction n using Nat.strongRecOn with
  | ind n ih =>
    by_cases h : n < 10
    · exact small n h
    · exact step n (by omega) (ih (n / 10) (by omega))

theorem isDigit_of_mem_decimal (n : Nat) : ∀ b ∈ decimal n, Byte.isDigit b = true := by
  induction n using decimal_induction with
  | small n h =>
    rw [decimal_of_lt h]
    intro b hb
    rw [List.mem_singleton.mp hb]
    exact isDigit_digitByte h
  | step n h ih =>
    rw [decimal_of_le h]
    intro b hb
    rcases List.mem_append.mp hb with hb | hb
    · exact ih b hb
    · rw [List.mem_singleton.mp hb]
      exact isDigit_digitByte (Nat.mod_lt n (by omega))

theorem decimal_ne_nil (n : Nat) : decimal n ≠ [] := by
  by_cases h : n < 10
  · rw [decimal_of_lt h]
    exact List.cons_ne_nil _ _
  · rw [decimal_of_le (by omega)]
    exact List.append_ne_nil_of_right_ne_nil _ (List.cons_ne_nil _ _)

/-- The digits of a number denote it. -/
theorem ofDigits_decimal (n : Nat) : ofDigits (decimal n) = n := by
  induction n using decimal_induction with
  | small n h =>
    rw [decimal_of_lt h]
    show 10 * 0 + ((digitByte n).toNat - 48) = n
    rw [toNat_digitByte h]
    omega
  | step n h ih =>
    rw [decimal_of_le h, ofDigits_append_single, ih,
      toNat_digitByte (Nat.mod_lt n (by omega))]
    omega

/-! ## §2. Digits and dots -/

/-- Whether a byte may stand in a number. -/
def inNumber (b : UInt8) : Bool := Byte.isDigit b || b == Byte.dot

/-- Whether a text is made of digits and dots, the first of them a digit. -/
def isNumeral : Bytes → Bool
  | [] => false
  | b :: rest => Byte.isDigit b && rest.all inNumber

theorem inNumber_of_isDigit {b : UInt8} (h : Byte.isDigit b = true) : inNumber b = true := by
  simp [inNumber, h]

theorem all_inNumber_decimal (n : Nat) : (decimal n).all inNumber = true :=
  List.all_eq_true.mpr fun b hb => inNumber_of_isDigit (isDigit_of_mem_decimal n b hb)

theorem all_inNumber_zeros (k : Nat) : (List.replicate k (digitByte 0)).all inNumber = true :=
  List.all_eq_true.mpr fun b hb => by
    rw [List.eq_of_mem_replicate hb]
    decide

theorem isNumeral_append {s t : Bytes} (hs : isNumeral s = true) (ht : t.all inNumber = true) :
    isNumeral (s ++ t) = true := by
  cases s with
  | nil => cases hs
  | cons b rest =>
    simp only [isNumeral, Bool.and_eq_true] at hs
    simp only [List.cons_append, isNumeral, List.all_append, Bool.and_eq_true]
    exact ⟨hs.1, hs.2, ht⟩

theorem isNumeral_of_digits {s : Bytes} (hne : s ≠ [])
    (hs : ∀ b ∈ s, Byte.isDigit b = true) : isNumeral s = true := by
  cases s with
  | nil => exact absurd rfl hne
  | cons b rest =>
    simp only [isNumeral, Bool.and_eq_true]
    exact ⟨hs b List.mem_cons_self, List.all_eq_true.mpr fun c hc =>
      inNumber_of_isDigit (hs c (List.mem_cons_of_mem b hc))⟩

theorem isNumeral_decimal (n : Nat) : isNumeral (decimal n) = true :=
  isNumeral_of_digits (decimal_ne_nil n) (isDigit_of_mem_decimal n)

theorem isNumeral_plain (d : Decimal) : isNumeral d.plain = true := by
  unfold Decimal.plain
  simp only
  split
  -- zeros follow the digits
  · rw [List.append_assoc]
    apply isNumeral_append (isNumeral_decimal _)
    rw [List.all_append, all_inNumber_zeros]
    decide
  · split
    · next _ hlt =>
      -- digits stand on both sides of the point
      have hdigits := isDigit_of_mem_decimal d.coefficient
      have hne : (decimal d.coefficient).take
          ((decimal d.coefficient).length - (-d.exponent).toNat) ≠ [] := by
        intro hnil
        have hlen := congrArg List.length hnil
        simp only [List.length_take, List.length_nil] at hlen
        omega
      rw [List.append_assoc]
      have htaken := isNumeral_of_digits hne fun b hb => hdigits b (List.mem_of_mem_take hb)
      apply isNumeral_append htaken
      rw [List.all_append]
      have hdrop : ((decimal d.coefficient).drop
          ((decimal d.coefficient).length - (-d.exponent).toNat)).all inNumber = true :=
        List.all_eq_true.mpr fun b hb => inNumber_of_isDigit (hdigits b (List.mem_of_mem_drop hb))
      rw [hdrop]
      decide
    -- zeros stand between the point and the digits
    · rw [List.append_assoc]
      apply isNumeral_append (by decide)
      rw [List.all_append, all_inNumber_zeros, all_inNumber_decimal]
      rfl

theorem isNumeral_fixed (r : Ratio) (places : Nat) : isNumeral (r.fixed places) = true := by
  unfold Ratio.fixed padded
  simp only
  rw [List.append_assoc]
  apply isNumeral_append (isNumeral_decimal _)
  rw [List.all_append, List.all_append, all_inNumber_zeros, all_inNumber_decimal]
  decide

/-- A finite double is written with digits and dots. -/
theorem isNumeral_unsignedText {x : Binary64} (hn : x.isNaN = false)
    (hi : x.isInfinite = false) : isNumeral x.unsignedText = true := by
  unfold Binary64.unsignedText
  rw [hn, hi]
  simp only [Bool.false_eq_true, if_false]
  split
  · exact isNumeral_plain _
  · exact isNumeral_fixed _ _

/-! ## §3. Runs of digits and dots -/

/-- Whether a text starts with none of the bytes that numbers are made of. -/
def endsNumber (s : Bytes) : Bool := s.head?.all fun b => !inNumber b

/-- A run that takes all of a text still takes just that text before a byte
    that cannot stand in a number. -/
theorem numberRun_append {s rest : Bytes} (hs : numberRun s = s) (hrest : endsNumber rest = true) :
    numberRun (s ++ rest) = s := by
  induction s with
  | nil =>
    cases rest with
    | nil => rfl
    | cons b rest =>
      have hb : Byte.isDigit b = false ∧ b ≠ Byte.dot := by
        simpa [endsNumber, inNumber] using hrest
      simp [numberRun, hb.1, hb.2]
  | cons b s ih =>
    rw [numberRun] at hs
    split at hs
    · next hb =>
      have hrun : numberRun s = s := (List.cons.inj hs).2
      -- a dot at the end of the text is not followed by another one
      have hb' :
          (Byte.isDigit b || (b == Byte.dot && (s ++ rest).head? != some Byte.dot)) = true := by
        cases s with
        | cons c s => exact hb
        | nil =>
          have hdot : rest.head? ≠ some Byte.dot := by
            intro h
            rw [endsNumber, h] at hrest
            exact absurd hrest (by decide)
          simp only [List.nil_append, Bool.or_eq_true, Bool.and_eq_true, bne_iff_ne] at hb ⊢
          exact hb.imp_right fun h => ⟨h.1, hdot⟩
      rw [List.cons_append, numberRun, if_pos hb', ih hrun]
    · cases hs

/-- A run is the start of its text. -/
theorem numberRun_append_drop (s : Bytes) : numberRun s ++ s.drop (numberRun s).length = s := by
  induction s with
  | nil => rfl
  | cons b s ih =>
    rw [numberRun]
    split
    · rw [List.length_cons, List.drop_succ_cons, List.cons_append, ih]
    · rfl

theorem numberRun_of_digits {s : Bytes} (hs : ∀ b ∈ s, Byte.isDigit b = true) :
    numberRun s = s := by
  induction s with
  | nil => rfl
  | cons b s ih =>
    have hb := hs b List.mem_cons_self
    rw [numberRun, hb, Bool.true_or, if_pos rfl, ih fun c hc => hs c (List.mem_cons_of_mem b hc)]

end Lumen
