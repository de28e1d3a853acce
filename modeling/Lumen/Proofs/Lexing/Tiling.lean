/-
  Lumen.Proofs.Lexing.Tiling — the tokens of a text cover it.

  A text is cut into gaps and runs, one after the other, and each run becomes
  one token, at the place where it begins.  The place is told by the bytes
  before it alone: how many there are, how many line feeds are among them, and
  how far back the last one is.

  Main statements:
    * `advance_start` — the place after some text, without a walk over it;
    * `tokensFrom_tiled` — what is read covers the text that is left;
    * `tokenize_tiles` — so the tokens of a source cover it, in order, and each
      stands at its place and is what its run denotes.
-/
import Mathlib.Data.List.Induction
import Lumen.Proofs.Lexing.Pieces

namespace Lumen

/-! ## §1. Places -/

/-- The offset just after the last line feed in some text. -/
def lineStart (before : Bytes) : Nat := (before.reverse.dropWhile (· != Byte.lineFeed)).length

/-- The place after some text at the start of a source. -/
def Pos.after (before : Bytes) : Pos where
  offset := before.length
  line := 1 + before.count Byte.lineFeed
  col := before.length - lineStart before + 1

theorem lineStart_append_single (before : Bytes) (b : UInt8) :
    lineStart (before ++ [b])
      = if b = Byte.lineFeed then before.length + 1 else lineStart before := by
  unfold lineStart
  rw [List.reverse_append, List.reverse_singleton, List.singleton_append, List.dropWhile_cons]
  by_cases hb : b = Byte.lineFeed
  · simp [hb]
  · simp [hb]

theorem lineStart_le (before : Bytes) : lineStart before ≤ before.length := by
  unfold lineStart
  calc (before.reverse.dropWhile (· != Byte.lineFeed)).length
      ≤ before.reverse.length := (List.dropWhile_sublist _).length_le
    _ = before.length := List.length_reverse

/-- The place that the bytes of a text lead to, one by one, is the place after
    the text. -/
theorem advance_start (before : Bytes) : Pos.start.advance before = Pos.after before := by
  induction before using List.reverseRecOn with
  | nil => rfl
  | append_singleton before b ih =>
    have hle := lineStart_le before
    rw [Pos.advance_append, ih, Pos.advance_cons, Pos.advance_nil]
    unfold Pos.step Pos.after
    rw [lineStart_append_single, List.count_append, List.length_append]
    by_cases hb : b = Byte.lineFeed
    · subst hb
      simp [Nat.add_assoc]
    · have hcount : [b].count Byte.lineFeed = 0 := by simp [hb]
      simp only [beq_iff_eq, hb, if_false, hcount, List.length_singleton, Nat.add_zero,
        Pos.mk.injEq, true_and]
      omega

/-- One byte that ends no line moves the place to the right. -/
theorem Pos.right_after {b : UInt8} (hb : b ≠ Byte.lineFeed) (before : Bytes) :
    (Pos.after before).right = Pos.after (before ++ [b]) := by
  rw [← advance_start, ← advance_start, Pos.advance_append]
  show _ = Pos.step _ b
  unfold Pos.step
  rw [if_neg (by simpa using hb)]
  rfl

/-- A place of a source: it has some of the source before it, and its line and
    column are told by that. -/
structure Pos.IsIn (source : Bytes) (p : Pos) : Prop where
  offset : p.offset ≤ source.length
  line : p.line = 1 + (source.take p.offset).count Byte.lineFeed
  col : p.col = p.offset - lineStart (source.take p.offset) + 1

theorem Pos.isIn_after (before rest : Bytes) : (Pos.after before).IsIn (before ++ rest) := by
  have htake : (before ++ rest).take (Pos.after before).offset = before :=
    List.take_left
  constructor
  · show before.length ≤ (before ++ rest).length
    rw [List.length_append]
    omega
  · rw [htake]
    rfl
  · rw [htake]
    rfl

/-! ## §2. Texts that are covered -/

/-- Some tokens cover a text that stands after some other: it begins with a gap
    and a run, which the first token stands for, and the other tokens cover the
    rest; a gap up to its end belongs to the end token. -/
inductive Tiled : (before text : Bytes) → List Token → Prop where
  | eof {before gap : Bytes} (hgap : Gap gap []) :
      Tiled before gap [⟨.eof, Pos.after (before ++ gap)⟩]
  | cons {before gap run rest : Bytes} {l : Lexeme} {tokens : List Token}
      (hgap : Gap gap (run ++ rest)) (hrun : Denotes run rest l)
      (h : Tiled (before ++ gap ++ run) rest tokens) :
      Tiled before (gap ++ run ++ rest) (⟨l, Pos.after (before ++ gap)⟩ :: tokens)

/-- Something to pass over in front makes the first gap longer. -/
theorem Tiled.afterGap {before piece text : Bytes} {tokens : List Token}
    (hpiece : ∀ gap after, text = gap ++ after → Gap gap after → Gap (piece ++ gap) after)
    (h : Tiled (before ++ piece) text tokens) : Tiled before (piece ++ text) tokens := by
  cases h with
  | eof hgap =>
    rw [List.append_assoc]
    exact .eof (hpiece _ [] (List.append_nil _).symm hgap)
  | cons hgap hrun h =>
    rename_i gap run rest l tokens
    have hlonger : Gap (piece ++ gap) (run ++ rest) :=
      hpiece gap _ (List.append_assoc _ _ _) hgap
    have htext : piece ++ (gap ++ run ++ rest) = (piece ++ gap) ++ run ++ rest := by
      simp only [List.append_assoc]
    rw [htext, List.append_assoc before piece gap]
    apply Tiled.cons hlonger hrun
    rwa [← List.append_assoc before piece gap]

/-- What is read of a text covers it.  By induction on the length of the text,
    of which every piece takes at least one byte. -/
theorem tokensFrom_tiled {before text : Bytes} {tokens : List Token}
    (h : tokensFrom 0 (Pos.after before) text = .ok tokens) : Tiled before text tokens := by
  induction hn : text.length using Nat.strongRecOn generalizing before text tokens with
  | ind n ih =>
    cases text with
    | nil =>
      rw [tokensFrom_nil] at h
      obtain rfl := Except.ok.inj h
      have heof : Tiled before [] [⟨.eof, Pos.after (before ++ [])⟩] := Tiled.eof Gap.nil
      rwa [List.append_nil] at heof
    | cons b rest =>
      rw [List.length_cons] at hn
      -- the rest of the text, after a piece that starts with `b`
      have hgo : ∀ tail left others, rest = tail ++ left →
          tokensFrom tail.length ((Pos.after before).step b) rest = .ok others →
          Tiled (before ++ b :: tail) left others := by
        intro tail left others hrest hothers
        rw [hrest, tokensFrom_append, ← Pos.advance_cons, ← advance_start, ← Pos.advance_append,
          advance_start] at hothers
        have hlen := congrArg List.length hrest
        rw [List.length_append] at hlen
        exact ih left.length (by omega) hothers rfl
      cases hscan : scanAt b rest with
      | gap more =>
        rw [tokensFrom_cons_gap _ hscan] at h
        obtain ⟨tail, left, hrest, rfl, hgap⟩ := gap_of_scanAt hscan
        have htiled := (hgo tail left tokens hrest h).afterGap hgap
        rwa [hrest]
      | lexeme l more =>
        obtain ⟨others, rfl, hothers⟩ := tokens_of_scanAt hscan h
        obtain ⟨tail, left, hrest, rfl, hdenotes⟩ := denotes_of_scanAt hscan
        have htiled := hgo tail left others hrest hothers
        have hcons : Tiled before ([] ++ (b :: tail) ++ left)
            (⟨l, Pos.after (before ++ [])⟩ :: others) :=
          Tiled.cons Gap.nil hdenotes (by rwa [List.append_nil])
        rw [List.append_nil] at hcons
        rwa [hrest]
      | bad kind text =>
        rw [tokensFrom_cons_bad _ hscan] at h
        cases h

/-! ## §3. What covering tokens are like -/

theorem Denotes.run_ne_nil {run after : Bytes} {l : Lexeme} (h : Denotes run after l) :
    run ≠ [] := by
  cases h with
  | truth b h => cases b <;> decide
  | word w h => cases w <;> decide
  | name h hname =>
    rintro rfl
    cases h.belongs
  | int h hdigits hvalue =>
    rintro rfl
    cases h.belongs.isNumeral
  | float h => exact List.append_ne_nil_of_right_ne_nil _ (List.cons_ne_nil _ _)
  | str h => exact List.cons_ne_nil _ _
  | mark m h => cases m <;> decide

theorem Denotes.ne_eof {run after : Bytes} {l : Lexeme} (h : Denotes run after l) : l ≠ .eof := by
  cases h <;> exact Lexeme.noConfusion

/-- The end token is the last, and no other token is like it. -/
theorem Tiled.last {before text : Bytes} {tokens : List Token} (h : Tiled before text tokens) :
    ∃ front, tokens = front ++ [⟨.eof, Pos.after (before ++ text)⟩]
      ∧ ∀ t ∈ front, t.lexeme ≠ .eof := by
  induction h with
  | eof hgap => exact ⟨[], rfl, List.forall_mem_nil _⟩
  | @cons before gap run rest l tokens hgap hrun h ih =>
    obtain ⟨front, rfl, hfront⟩ := ih
    refine ⟨⟨l, Pos.after (before ++ gap)⟩ :: front, ?_, ?_⟩
    · simp only [List.append_assoc, List.cons_append]
    · intro t ht
      obtain rfl | ht := List.mem_cons.mp ht
      · exact hrun.ne_eof
      · exact hfront t ht

/-- Every token has a place of the text, after what stands before it. -/
theorem Tiled.place {before text : Bytes} {tokens : List Token} (h : Tiled before text tokens) :
    ∀ t ∈ tokens, before.length ≤ t.pos.offset ∧ t.pos.IsIn (before ++ text) := by
  induction h with
  | @eof before gap hgap =>
    intro t ht
    obtain rfl := List.mem_singleton.mp ht
    have hin := Pos.isIn_after (before ++ gap) []
    rw [List.append_nil] at hin
    refine ⟨?_, hin⟩
    show before.length ≤ (before ++ gap).length
    rw [List.length_append]
    omega
  | @cons before gap run rest l tokens hgap hrun h ih =>
    -- a token stands after the gap, and the others stand further on
    have htext : before ++ (gap ++ run ++ rest) = (before ++ gap) ++ (run ++ rest) := by
      simp only [List.append_assoc]
    intro t ht
    obtain rfl | ht := List.mem_cons.mp ht
    · rw [htext]
      refine ⟨?_, Pos.isIn_after _ _⟩
      show before.length ≤ (before ++ gap).length
      rw [List.length_append]
      omega
    · obtain ⟨hle, hin⟩ := ih t ht
      simp only [List.append_assoc, List.length_append] at hle hin ⊢
      exact ⟨by omega, hin⟩

/-- The tokens stand further and further to the right: every run takes at least
    one byte. -/
theorem Tiled.increasing {before text : Bytes} {tokens : List Token}
    (h : Tiled before text tokens) :
    tokens.Pairwise fun t t' => t.pos.offset < t'.pos.offset := by
  induction h with
  | eof hgap => exact List.pairwise_singleton _ _
  | @cons before gap run rest l tokens hgap hrun h ih =>
    apply List.pairwise_cons.mpr
    refine ⟨?_, ih⟩
    intro t ht
    have hle := (h.place t ht).1
    have hrun := List.length_pos_iff.mpr hrun.run_ne_nil
    show (before ++ gap).length < t.pos.offset
    rw [List.length_append] at hle
    omega

/-- The second half of a `>=` has a place of its own. -/
theorem Tiled.right_place {before text : Bytes} {tokens : List Token}
    (h : Tiled before text tokens) :
    ∀ t ∈ tokens, t.lexeme = .mark .ge → t.pos.right.IsIn (before ++ text) := by
  induction h with
  | eof hgap =>
    intro t ht hge
    obtain rfl := List.mem_singleton.mp ht
    cases hge
  | @cons before gap run rest l tokens hgap hrun h ih =>
    intro t ht hge
    have htext : before ++ (gap ++ run ++ rest) = (before ++ gap ++ run) ++ rest := by
      simp only [List.append_assoc]
    obtain rfl | ht := List.mem_cons.mp ht
    · obtain rfl : l = .mark .ge := hge
      cases hrun with
      | mark m hlong hcomment =>
        -- the first half is one byte, and the second stands after it
        have hsplit : before ++ gap ++ Mark.ge.bytes ++ rest
            = (before ++ gap ++ [62]) ++ (61 :: rest) := by
          simp only [List.append_assoc]
          rfl
        rw [htext, hsplit]
        show (Pos.after (before ++ gap)).right.IsIn _
        rw [Pos.right_after (b := 62) (by decide)]
        exact Pos.isIn_after _ _
    · rw [htext]
      exact ih t ht hge

/-! ## §4. The tokens of a source -/

/-- **Tokens cover their source.**  The tokens of a source are its runs, in
    order, with gaps between them and around them; each is what its run denotes,
    and of words, numbers and marks the run is the longest one there is.  The
    last token, and no other, is the end of the source, at its full length.
    Offsets increase from token to token, and lines and columns are told by the
    bytes before a token. -/
theorem tokenize_tiles {source : Bytes} {tokens : List Token} (h : tokenize source = .ok tokens) :
    Tiled [] source tokens
      ∧ (∃ front last, tokens = front ++ [last] ∧ last.lexeme = .eof
          ∧ last.pos.offset = source.length ∧ ∀ t ∈ front, t.lexeme ≠ .eof)
      ∧ (tokens.Pairwise fun t t' => t.pos.offset < t'.pos.offset)
      ∧ ∀ t ∈ tokens, t.pos.IsIn source := by
  have htiled : Tiled [] source tokens := tokensFrom_tiled h
  obtain ⟨front, htokens, hfront⟩ := htiled.last
  refine ⟨htiled, ⟨front, _, htokens, rfl, rfl, hfront⟩, htiled.increasing, ?_⟩
  intro t ht
  exact (htiled.place t ht).2

/-- A comment, a number before two dots, a number that ends with a dot, and a
    string with escapes, a NUL and a line feed of its own. -/
theorem tokenize_tiles_mixed :
    Tiled [] (ascii "x1 // c\n7..2.\"a\\n\\q" ++ [0, 10] ++ ascii "\"<=")
        [⟨.ident (ascii "x1"), ⟨0, 1, 1⟩⟩, ⟨.literal (.int 7), ⟨8, 2, 1⟩⟩,
          ⟨.mark .dotDot, ⟨9, 2, 2⟩⟩, ⟨.literal (.float ⟨0x4000000000000000⟩), ⟨11, 2, 4⟩⟩,
          ⟨.literal (.str [97, 10, 92, 113, 0, 10]), ⟨13, 2, 6⟩⟩, ⟨.mark .le, ⟨22, 3, 2⟩⟩,
          ⟨.eof, ⟨24, 3, 4⟩⟩]
      ∧ (⟨22, 3, 2⟩ : Pos).IsIn
          (ascii "x1 // c\n7..2.\"a\\n\\q" ++ [0, 10] ++ ascii "\"<=") := by
  have htokens : tokenize (ascii "x1 // c\n7..2.\"a\\n\\q" ++ [0, 10] ++ ascii "\"<=")
      = .ok [⟨.ident (ascii "x1"), ⟨0, 1, 1⟩⟩, ⟨.literal (.int 7), ⟨8, 2, 1⟩⟩,
          ⟨.mark .dotDot, ⟨9, 2, 2⟩⟩, ⟨.literal (.float ⟨0x4000000000000000⟩), ⟨11, 2, 4⟩⟩,
          ⟨.literal (.str [97, 10, 92, 113, 0, 10]), ⟨13, 2, 6⟩⟩, ⟨.mark .le, ⟨22, 3, 2⟩⟩,
          ⟨.eof, ⟨24, 3, 4⟩⟩] := by
    decide +kernel
  obtain ⟨htiled, -, -, hplaces⟩ := tokenize_tiles htokens
  exact ⟨htiled, hplaces ⟨.mark .le, ⟨22, 3, 2⟩⟩ (by simp)⟩

end Lumen
