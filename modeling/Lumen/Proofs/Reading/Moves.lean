/-
  Lumen.Proofs.Reading.Moves — where a cursor can come to.

  Reading moves a cursor in two ways: past the token at which it stands, and over
  the first half of a `>=` that is split.  So all that a reader can do to a token
  list is told by a chain of such moves, with the lexemes that were passed.  A
  split leaves two tokens in the place of one, the first where the `>=` stood and
  the second one column on; nothing else is added, and no place is lost.

  Main statements:
    * `Reaches` — a chain of moves; `Reaches.trans` puts two together;
    * `Reaches.before` — what was passed is what was read;
    * `Reaches.head?` / `Reaches.first` — what is passed first was at the cursor;
    * `From.reaches` / `Reaches.mem_tokens` — tokens come from where others came from;
    * `Reaches.exists_pos` — no place is lost;
    * `Reaches.exists_eof` — the end stays ahead.
-/
import Lumen.Proofs.Reading.Ends

namespace Lumen
namespace Cursor

/-! ## §1. Chains of moves -/

/-- A cursor comes to another over some lexemes.  A `>=` at which it stands may be
    split. -/
inductive Reaches (c : Cursor) : List Lexeme → Cursor → Prop where
  | refl : Reaches c [] c
  | past {c' : Cursor} {ls : List Lexeme} {t : Token} (h : Reaches c ls c')
      (ht : c'.token? = some t) : Reaches c (ls ++ [t.lexeme]) (c'.past t)
  | split {c' : Cursor} {ls : List Lexeme} (h : Reaches c ls c') : Reaches c ls c'.splitGe

variable {c c' c'' : Cursor} {ls ms : List Lexeme}

theorem Reaches.trans (h : Reaches c ls c') (h' : Reaches c' ms c'') :
    Reaches c (ls ++ ms) c'' := by
  induction h' with
  | refl => rwa [List.append_nil]
  | past _ ht ih =>
    rw [← List.append_assoc]
    exact ih.past ht
  | split _ ih => exact ih.split

theorem reaches_past {t : Token} (ht : c.token? = some t) : Reaches c [t.lexeme] (c.past t) :=
  Reaches.refl.past ht

theorem reaches_splitGe (c : Cursor) : Reaches c [] c.splitGe := Reaches.refl.split

@[simp] theorem before_splitGe (c : Cursor) : c.splitGe.before = c.before := by
  unfold splitGe
  split <;> rfl

/-- What was passed is what was read. -/
theorem Reaches.before (h : Reaches c ls c') :
    c'.before.reverse.map Token.lexeme = c.before.reverse.map Token.lexeme ++ ls := by
  induction h with
  | refl => rw [List.append_nil]
  | past h ht ih =>
    rw [← List.append_assoc, ← ih, Cursor.past, List.reverse_cons, List.map_append]
    rfl
  | split h ih => rw [before_splitGe, ih]

/-- The end is not passed. -/
theorem Reaches.eof_notMem (h : Reaches c ls c') : .eof ∉ ls := by
  induction h with
  | refl => exact List.not_mem_nil
  | @past c' ls t h ht ih =>
    have hne : t.lexeme ≠ .eof := by
      simpa [Token.isEof] using (Option.filter_eq_some_iff.mp ht).2
    rw [List.mem_append, List.mem_singleton, not_or]
    exact ⟨ih, hne.symm⟩
  | split h ih => exact ih

/-- What is passed first was at the cursor, or it is the first half of what was. -/
theorem Reaches.head? (h : Reaches c ls c') :
    (ls ++ c'.lexemes).head? = c.lexemes.head?
      ∨ c.lexemes.head? = some (.mark .ge) ∧ (ls ++ c'.lexemes).head? = some (.mark .gt) := by
  induction h with
  | refl => exact .inl rfl
  | @past c' ls t h ht ih =>
    have hnext : c'.lexemes = t.lexeme :: (c'.past t).lexemes := by
      rcases c'.token?_cases with ⟨hnone, -⟩ | ⟨t', ht', hl⟩
      · rw [hnone] at ht
        cases ht
      · rw [ht] at ht'
        obtain rfl := Option.some.inj ht'
        exact hl
    rw [List.append_assoc, List.singleton_append, ← hnext]
    exact ih
  | @split c' ls h ih =>
    -- once something has been passed, a split changes only what comes after it
    cases ls with
    | cons l ls => exact ih
    | nil =>
      rw [List.nil_append, lexemes_splitGe]
      rw [List.nil_append] at ih
      split
      · next rest hge =>
        rw [hge] at ih
        rcases ih with heq | ⟨-, heq⟩
        · exact .inr ⟨heq.symm, rfl⟩
        · cases heq
      · exact ih

/-- The first token that is passed is the one at the cursor; if that is a `>=`, it may be
    the first half, at the same place. -/
theorem Reaches.first {t : Token} (h : Reaches c ls c') (ht : c.current? = some t)
    (hls : ls ≠ []) :
    ∃ first rest, c'.before.reverse = c.before.reverse ++ first :: rest ∧ first.pos = t.pos
      ∧ (t.lexeme ≠ .mark .ge → first = t) := by
  -- as long as nothing has been passed, what stands at the cursor is that token
  have hmoved : (ls = [] ∧ c'.before = c.before ∧ ∃ u, c'.current? = some u ∧ u.pos = t.pos
        ∧ (t.lexeme ≠ .mark .ge → u = t))
      ∨ ∃ first rest, c'.before.reverse = c.before.reverse ++ first :: rest ∧ first.pos = t.pos
        ∧ (t.lexeme ≠ .mark .ge → first = t) := by
    clear hls
    induction h with
    | refl => exact .inl ⟨rfl, rfl, t, ht, rfl, fun _ => rfl⟩
    | @past c' ls v h hv ih =>
      obtain ⟨hcurrent, -⟩ := Option.filter_eq_some_iff.mp hv
      right
      rcases ih with ⟨-, hbefore, u, hu, hpos, hsame⟩ | ⟨first, rest, hbefore, hpos, hsame⟩
      · obtain rfl : u = v := Option.some.inj (hu.symm.trans hcurrent)
        refine ⟨u, [], ?_, hpos, hsame⟩
        rw [Cursor.past, List.reverse_cons, hbefore]
      · refine ⟨first, rest ++ [v], ?_, hpos, hsame⟩
        rw [Cursor.past, List.reverse_cons, hbefore]
        simp
    | @split c' ls h ih =>
      rcases ih with ⟨hnone, hbefore, u, hu, hpos, hsame⟩ | hpassed
      · left
        refine ⟨hnone, by rw [before_splitGe, hbefore], ?_⟩
        unfold splitGe
        split
        · next p rest hge =>
          obtain rfl : ⟨.mark .ge, p⟩ = u := by simpa [current?, hge] using hu
          refine ⟨⟨.mark .gt, p⟩, rfl, hpos, ?_⟩
          intro hne
          exact absurd (congrArg Token.lexeme (hsame hne)).symm hne
        · exact ⟨u, hu, hpos, hsame⟩
      · right
        rwa [before_splitGe]
  rcases hmoved with ⟨hnone, -⟩ | hpassed
  · exact absurd hnone hls
  · exact hpassed

/-! ## §2. Tokens and places -/

/-- Half of a `>=` that is split. -/
def IsHalf (tokens : List Token) (t : Token) : Prop :=
  ∃ p, ⟨.mark .ge, p⟩ ∈ tokens ∧ (t = ⟨.mark .gt, p⟩ ∨ t = ⟨.mark .equal, p.right⟩)

theorem mem_tokens_of_current? {t : Token} (h : c.current? = some t) : t ∈ c.tokens :=
  List.mem_append_right _ (List.mem_of_mem_head? h)

theorem tokens_splitGe (c : Cursor) :
    c.splitGe = c ∨ ∃ p rest, c.tokens = c.before.reverse ++ ⟨.mark .ge, p⟩ :: rest
      ∧ c.splitGe.tokens
        = c.before.reverse ++ ⟨.mark .gt, p⟩ :: ⟨.mark .equal, p.right⟩ :: rest := by
  unfold splitGe
  split
  · next p rest hge => exact .inr ⟨p, rest, by rw [tokens, hge], rfl⟩
  · exact .inl rfl

/-- The tokens of a cursor come from a list: each stands in it, or is half of a `>=` there. -/
def From (c : Cursor) (tokens : List Token) : Prop := ∀ t ∈ c.tokens, t ∈ tokens ∨ IsHalf tokens t

section
variable {tokens : List Token} (h : c.From tokens)
include h

theorem From.past {t : Token} (ht : c.token? = some t) : (c.past t).From tokens := by
  unfold From
  rwa [tokens_past (Option.filter_eq_some_iff.mp ht).1]

theorem From.splitGe : c.splitGe.From tokens := by
  rcases c.tokens_splitGe with hsame | ⟨p, rest, hwhole, hsplit⟩
  · rwa [hsame]
  · rw [From, hwhole] at h
    -- no half is a `>=`, so what is split now stands in the list
    have hge : ⟨.mark .ge, p⟩ ∈ tokens := by
      rcases h ⟨.mark .ge, p⟩ (by simp) with hmem | ⟨q, -, hhalf | hhalf⟩
      · exact hmem
      · cases hhalf
      · cases hhalf
    intro t ht
    rw [hsplit] at ht
    simp only [List.mem_append, List.mem_cons] at ht h
    rcases ht with ht | rfl | rfl | ht
    · exact h t (.inl ht)
    · exact .inr ⟨p, hge, .inl rfl⟩
    · exact .inr ⟨p, hge, .inr rfl⟩
    · exact h t (.inr (.inr ht))

theorem From.reaches (hreach : Reaches c ls c') : c'.From tokens := by
  induction hreach with
  | refl => exact h
  | past _ ht ih => exact ih.past ht
  | split _ ih => exact ih.splitGe

end

/-- Every token was there at the start, or it is half of one that was. -/
theorem Reaches.mem_tokens (h : Reaches c ls c') :
    ∀ t ∈ c'.tokens, t ∈ c.tokens ∨ IsHalf c.tokens t :=
  From.reaches (fun _ ht => .inl ht) h

/-- No place is lost. -/
theorem Reaches.exists_pos (h : Reaches c ls c') :
    ∀ t ∈ c.tokens, ∃ t' ∈ c'.tokens, t'.pos = t.pos := by
  induction h with
  | refl => exact fun t ht => ⟨t, ht, rfl⟩
  | past h ht ih => rwa [tokens_past (Option.filter_eq_some_iff.mp ht).1]
  | @split c' ls h ih =>
    rcases c'.tokens_splitGe with hsame | ⟨p, rest, hwhole, hsplit⟩
    · rwa [hsame]
    · intro t ht
      obtain ⟨u, hu, hpos⟩ := ih t ht
      rw [hwhole, List.mem_append, List.mem_cons] at hu
      rw [hsplit, ← hpos]
      rcases hu with hu | rfl | hu
      · exact ⟨u, List.mem_append_left _ hu, rfl⟩
      · exact ⟨⟨.mark .gt, p⟩, by simp, rfl⟩
      · exact ⟨u, by simp [hu], rfl⟩

/-- What is passed is not the end token, so that comes later. -/
theorem exists_eof_past {t : Token} (ht : c.token? = some t)
    (heof : ∃ e ∈ c.ahead, e.isEof = true) : ∃ e ∈ (c.past t).ahead, e.isEof = true := by
  obtain ⟨hfirst, hnot⟩ := Option.filter_eq_some_iff.mp ht
  obtain ⟨e, he, hend⟩ := heof
  obtain ⟨before, ahead⟩ := c
  cases ahead with
  | nil => cases he
  | cons first rest =>
    obtain rfl : first = t := Option.some.inj hfirst
    rcases List.mem_cons.mp he with rfl | hrest
    · rw [hend] at hnot
      cases hnot
    · exact ⟨e, hrest, hend⟩

theorem exists_eof_splitGe (heof : ∃ e ∈ c.ahead, e.isEof = true) :
    ∃ e ∈ c.splitGe.ahead, e.isEof = true := by
  obtain ⟨e, he, hend⟩ := heof
  unfold splitGe
  split
  · next p rest hge =>
    rw [hge] at he
    rcases List.mem_cons.mp he with rfl | hrest
    · cases hend
    · exact ⟨e, List.mem_cons_of_mem _ (List.mem_cons_of_mem _ hrest), hend⟩
  · exact ⟨e, he, hend⟩

/-- The end stays ahead. -/
theorem Reaches.exists_eof (h : Reaches c ls c') (heof : ∃ e ∈ c.ahead, e.isEof = true) :
    ∃ e ∈ c'.ahead, e.isEof = true := by
  induction h with
  | refl => exact heof
  | past h ht ih => exact exists_eof_past ht ih
  | split h ih => exact exists_eof_splitGe ih

end Cursor
end Lumen
