/-
  Lumen.Proofs.Encoding.Machine — well-formed text, byte by byte.

  Whether a text is well-formed is told by its pieces, and a piece may be cut in two
  when the text is.  So the laws go by a machine that reads one byte at a time.  Its
  state is what is still owed: the ranges of the bytes that have to follow.  Owing
  nothing, it stands between two code points.

  No byte of ASCII is ever owed, so where one comes the machine stands between code
  points.  There a well-formed text may be cut.

  Main statements:
    * `isWellFormed_iff` — a text is well-formed if nothing is owed after it;
    * `isWellFormed_append` / `isWellFormed_cut` — texts put together, and cut;
    * `isWellFormed_of_isAscii` — texts of ASCII.
-/
import Lumen.Utf8

namespace Lumen

/-! ## §1. Bytes of ASCII -/

/-- The bytes that are characters by themselves. -/
def Byte.isAscii (b : UInt8) : Bool := b < 0x80

/-- Whether a text has such bytes only. -/
def Bytes.IsAscii (s : Bytes) : Prop := ∀ b ∈ s, Byte.isAscii b = true

instance (s : Bytes) : Decidable (Bytes.IsAscii s) :=
  decidable_of_iff (s.all Byte.isAscii = true) List.all_eq_true

namespace Utf8

/-! ## §2. The machine -/

/-- The ranges that are owed after one more byte; `none` if it may not follow. -/
def next : List ByteRange → UInt8 → Option (List ByteRange)
  | [], lead => following? lead
  | r :: owed, b => if r.contains b then some owed else none

/-- The ranges that are owed after some text. -/
def after (owed : List ByteRange) (s : Bytes) : Option (List ByteRange) := s.foldlM next owed

theorem after_cons (owed : List ByteRange) (b : UInt8) (s : Bytes) :
    after owed (b :: s) = (next owed b).bind fun owed => after owed s := List.foldlM_cons

theorem after_append (owed : List ByteRange) (s t : Bytes) :
    after owed (s ++ t) = (after owed s).bind fun owed => after owed t := List.foldlM_append

theorem matching_le (owed : List ByteRange) (s : Bytes) : matching owed s ≤ s.length := by
  induction owed generalizing s with
  | nil => exact Nat.zero_le _
  | cons r owed ih =>
    cases s with
    | nil => exact Nat.le_refl 0
    | cons b s =>
      rw [matching]
      split
      · exact Nat.succ_le_succ (ih s)
      · exact Nat.zero_le _

/-- All that is owed follows, and then the machine starts anew. -/
theorem after_of_matching {owed : List ByteRange} {s : Bytes}
    (h : matching owed s = owed.length) : after owed s = after [] (s.drop owed.length) := by
  induction owed generalizing s with
  | nil => rfl
  | cons r owed ih =>
    cases s with
    | nil => cases h
    | cons b s =>
      rw [matching] at h
      split at h
      · next hb =>
        rw [after_cons, next, if_pos hb]
        exact ih (Nat.succ.inj h)
      · cases h

/-- Not all that is owed follows. -/
theorem after_ne_of_matching {owed : List ByteRange} {s : Bytes}
    (h : matching owed s ≠ owed.length) : after owed s ≠ some [] := by
  induction owed generalizing s with
  | nil => exact absurd (matching.eq_def [] s) (by simpa using h)
  | cons r owed ih =>
    cases s with
    | nil => exact fun hafter => by cases hafter
    | cons b s =>
      rw [matching] at h
      rw [after_cons, next]
      split at h
      · next hb =>
        rw [if_pos hb]
        exact ih fun heq => h (congrArg (· + 1) heq)
      · next hb =>
        rw [if_neg hb]
        exact fun hafter => by cases hafter

/-- **The machine tells well-formed texts.** -/
theorem isWellFormed_iff {s : Bytes} : isWellFormed s = true ↔ after [] s = some [] := by
  unfold isWellFormed
  fun_induction pieces s with
  | case1 => simp [after]
  | case2 lead rest piece ih =>
    rw [List.all_cons, Bool.and_eq_true, ih, after_cons]
    show (Piece.at lead rest).wellFormed = true ∧ _ ↔ (following? lead).bind _ = _
    have hpiece : piece = Piece.at lead rest := rfl
    rw [hpiece]
    unfold Piece.at
    cases hlead : following? lead with
    | none => simp
    | some owed =>
      simp only [beq_iff_eq, Option.bind_some]
      by_cases hmatching : matching owed rest = owed.length
      · have hle : owed.length ≤ rest.length := hmatching ▸ matching_le owed rest
        rw [after_of_matching hmatching, hmatching]
        simp [hle]
      · simp [hmatching, after_ne_of_matching hmatching]

theorem isWellFormed_nil : isWellFormed [] = true := isWellFormed_iff.mpr rfl

/-! ## §3. Texts put together, and cut -/

theorem isWellFormed_append {s t : Bytes} (hs : isWellFormed s = true)
    (ht : isWellFormed t = true) : isWellFormed (s ++ t) = true := by
  rw [isWellFormed_iff] at hs ht ⊢
  rw [after_append, hs]
  exact ht

/-- What is owed lies beyond ASCII. -/
def Beyond (owed : List ByteRange) : Prop := ∀ r ∈ owed, 0x80 ≤ r.low

theorem beyond_nil : Beyond [] := List.forall_mem_nil _

theorem beyond_of_following? {lead : UInt8} {owed : List ByteRange}
    (h : following? lead = some owed) : Beyond owed := by
  unfold Beyond
  unfold following? at h
  -- one row of the table after another
  repeat' split at h
  all_goals cases h <;> decide

theorem Beyond.next {owed owed' : List ByteRange} {b : UInt8} (h : Beyond owed)
    (hnext : next owed b = some owed') : Beyond owed' := by
  cases owed with
  | nil => exact beyond_of_following? hnext
  | cons r rest =>
    rw [Utf8.next] at hnext
    split at hnext
    · obtain rfl := Option.some.inj hnext
      exact (List.forall_mem_cons.mp h).2
    · cases hnext

theorem Beyond.after {owed owed' : List ByteRange} {s : Bytes} (h : Beyond owed)
    (hafter : after owed s = some owed') : Beyond owed' := by
  induction s generalizing owed with
  | nil =>
    obtain rfl := Option.some.inj hafter
    exact h
  | cons b s ih =>
    rw [after_cons] at hafter
    obtain ⟨between, hnext, hrest⟩ := Option.bind_eq_some_iff.mp hafter
    exact ih (h.next hnext) hrest

section
variable {b : UInt8} (hb : Byte.isAscii b = true)
include hb

theorem next_nil_of_isAscii : next [] b = some [] := by
  have hlt : b < 0x80 := by simpa [Byte.isAscii] using hb
  rw [next, following?, if_pos hlt]

theorem next_cons_of_isAscii {r : ByteRange} {owed : List ByteRange} (h : Beyond (r :: owed)) :
    next (r :: owed) b = none := by
  have hlt : b < 0x80 := by simpa [Byte.isAscii] using hb
  have hnot : r.contains b = false := by
    have hlow : 0x80 ≤ r.low := h r List.mem_cons_self
    have hbelow : ¬ r.low ≤ b := fun hle => absurd (UInt8.le_trans hlow hle) (UInt8.not_le.mpr hlt)
    simp [ByteRange.contains, hbelow]
  rw [next, if_neg (by simp [hnot])]

/-- **At a byte of ASCII a well-formed text may be cut.** -/
theorem isWellFormed_cut {s t : Bytes} (h : isWellFormed (s ++ b :: t) = true) :
    isWellFormed s = true ∧ isWellFormed t = true := by
  rw [isWellFormed_iff] at h ⊢
  rw [isWellFormed_iff]
  rw [after_append] at h
  obtain ⟨owed, hs, ht⟩ := Option.bind_eq_some_iff.mp h
  rw [after_cons] at ht
  cases owed with
  | nil =>
    rw [next_nil_of_isAscii hb] at ht
    exact ⟨hs, ht⟩
  | cons r owed =>
    rw [next_cons_of_isAscii hb (beyond_nil.after hs)] at ht
    cases ht

theorem isWellFormed_cons {s : Bytes} : isWellFormed (b :: s) = isWellFormed s := by
  rw [Bool.eq_iff_iff, isWellFormed_iff, isWellFormed_iff, after_cons, next_nil_of_isAscii hb]
  rfl

end

section
variable {s : Bytes} (hs : s.IsAscii)
include hs

theorem isWellFormed_of_isAscii_append (t : Bytes) : isWellFormed (s ++ t) = isWellFormed t := by
  induction s with
  | nil => rfl
  | cons b s ih =>
    obtain ⟨hb, hrest⟩ := List.forall_mem_cons.mp hs
    rw [List.cons_append, isWellFormed_cons hb]
    exact ih hrest

theorem isWellFormed_of_isAscii : isWellFormed s = true := by
  have happend := isWellFormed_of_isAscii_append hs []
  rw [List.append_nil] at happend
  exact happend.trans isWellFormed_nil

end

end Utf8
end Lumen
