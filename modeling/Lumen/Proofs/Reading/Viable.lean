/-
  Lumen.Proofs.Reading.Viable — what has been read can go on.

  A reader that stops has not read in vain: the lexemes it has passed are the
  beginning of something that it reads.  So it stops at the first token with which
  nothing can go on, and never later.

  This goes through a sequence of readers, if after each result there is something
  that the rest reads; what is missing in the middle of a sequence is then
  completed, and the rest is put behind it.  A reader may be exempt from all this
  at some cursors: the type of a loop variable is read to its end before it is
  rejected.

  Main statements:
    * `Viable` — whatever was passed can go on;
    * `Viable.bind` — a sequence, step by step;
    * `viable_mark` … `viable_select?` — readers of single tokens;
    * `type_viable` — types;
    * `leftAssoc_viable` … `primary_viable` — level by level;
    * `expr_viable` — expressions.
-/
import Lumen.Proofs.Reading.ExprSound
import Lumen.Proofs.Reading.Moves

namespace Lumen.Parse
open CursorM Cursor

/-! ## §1. Going on -/

/-- Whether some lexemes begin something that is written as `M` says. -/
def CanGoOn {α : Type} (M : α → List Lexeme → Prop) (ls : List Lexeme) : Prop :=
  ∃ a more, .eof ∉ more ∧ M a (ls ++ more)

theorem CanGoOn.of_append {α : Type} {M : α → List Lexeme → Prop} {ls more : List Lexeme}
    (h : CanGoOn M (ls ++ more)) (hmore : .eof ∉ more) : CanGoOn M ls := by
  obtain ⟨a, rest, hrest, ha⟩ := h
  refine ⟨a, more ++ rest, ?_, by rwa [← List.append_assoc]⟩
  simp [hmore, hrest]

theorem CanGoOn.weaken {α : Type} {M M' : α → List Lexeme → Prop}
    (hM : ∀ a ls, M a ls → M' a ls) {ls : List Lexeme} (h : CanGoOn M ls) : CanGoOn M' ls := by
  obtain ⟨a, more, hmore, ha⟩ := h
  exact ⟨a, more, hmore, hM a _ ha⟩

section
variable (X : Cursor → Prop) {σ α β : Type} [HasCursor σ]

/-- From some state a reader passes what its result is written as.  Or it stops, and
    then what it has passed can go on, unless `X` exempts the cursor. -/
def ViableAt (m : EStateM Failure σ α) (s : σ) (M : α → List Lexeme → Prop) : Prop :=
  Ends m s
    (fun a t => ∃ ls, (HasCursor.cursor s).Reaches ls (HasCursor.cursor t) ∧ M a ls)
    fun _ t => ∃ ls, (HasCursor.cursor s).Reaches ls (HasCursor.cursor t)
      ∧ (X (HasCursor.cursor t) ∨ CanGoOn M ls)

/-- A reader that is viable at every state, and reads something. -/
structure Viable (m : EStateM Failure σ α) (M : α → List Lexeme → Prop) : Prop where
  canGoOn : CanGoOn M []
  viableAt : ∀ s, ViableAt X m s M

variable {X} {M : β → List Lexeme → Prop} {P : α → List Lexeme → Prop}

/-- A sequence, from its first step.  If that stops, the rest is completed too. -/
theorem ViableAt.then {m : EStateM Failure σ α} {k : α → EStateM Failure σ β} {s : σ}
    (h : ViableAt X m s P) (hgo : ∀ a ls, P a ls → CanGoOn M ls)
    (hk : ∀ a ls t, P a ls → (HasCursor.cursor s).Reaches ls (HasCursor.cursor t) →
      ViableAt X (k a) t fun b v => M b (ls ++ v)) :
    ViableAt X (m >>= k) s M := by
  refine ends_bind.mpr (h.mono ?_ ?_)
  -- what the rest passes comes behind `ls`, in what is read and in what is missing
  · rintro a t ⟨ls, hreach, ha⟩
    apply (hk a ls t ha hreach).mono
    · rintro b u ⟨ms, hreach', hb⟩
      exact ⟨ls ++ ms, hreach.trans hreach', hb⟩
    · rintro f u ⟨ms, hreach', hstop⟩
      refine ⟨ls ++ ms, hreach.trans hreach', hstop.imp_right ?_⟩
      rintro ⟨b, more, hmore, hb⟩
      exact ⟨b, more, hmore, by rwa [List.append_assoc]⟩
  -- first the step itself is completed, and then the rest is put behind it
  · rintro f t ⟨ls, hreach, hstop⟩
    refine ⟨ls, hreach, hstop.imp_right ?_⟩
    rintro ⟨a, more, hmore, ha⟩
    exact (hgo a _ ha).of_append hmore

/-- What the rest of a sequence can go on with, seen from before its first step. -/
theorem CanGoOn.of_rest {ls : List Lexeme} (h : CanGoOn (fun b v => M b (ls ++ v)) []) :
    CanGoOn M ls := h

theorem ViableAt.bind {m : EStateM Failure σ α} {k : α → EStateM Failure σ β} {s : σ}
    (h : ViableAt X m s P) (hk : ∀ a ls, P a ls → Viable X (k a) fun b v => M b (ls ++ v)) :
    ViableAt X (m >>= k) s M :=
  h.then (fun a ls ha => (hk a ls ha).canGoOn.of_rest) fun a ls t ha _ => (hk a ls ha).viableAt t

/-- A sequence, step by step. -/
theorem Viable.bind {m : EStateM Failure σ α} {k : α → EStateM Failure σ β} (h : Viable X m P)
    (hk : ∀ a ls, P a ls → Viable X (k a) fun b v => M b (ls ++ v)) : Viable X (m >>= k) M where
  canGoOn := by
    obtain ⟨a, more, hmore, ha⟩ := h.canGoOn
    exact (hk a _ ha).canGoOn.of_rest.of_append hmore
  viableAt s := (h.viableAt s).bind hk

/-- A step that is written in one way. -/
theorem Viable.pass {m : EStateM Failure σ α} {k : α → EStateM Failure σ β}
    {w : α → List Lexeme} (h : Viable X m fun a ls => ls = w a)
    (hk : ∀ a, Viable X (k a) fun b v => M b (w a ++ v)) : Viable X (m >>= k) M := by
  apply h.bind
  intro a ls hls
  rw [hls]
  exact hk a

/-- A step that is written in one way, with something known of its result. -/
theorem Viable.passWith {m : EStateM Failure σ α} {k : α → EStateM Failure σ β}
    {w : α → List Lexeme} {F : α → Prop} (h : Viable X m fun a ls => ls = w a ∧ F a)
    (hk : ∀ a, F a → Viable X (k a) fun b v => M b (w a ++ v)) : Viable X (m >>= k) M := by
  apply h.bind
  intro a ls ha
  obtain ⟨hls, hfact⟩ := ha
  rw [hls]
  exact hk a hfact

/-- What results are written as may be weakened. -/
theorem Viable.weaken {m : EStateM Failure σ α} {P' : α → List Lexeme → Prop} (h : Viable X m P)
    (hP : ∀ a ls, P a ls → P' a ls) : Viable X m P' where
  canGoOn := CanGoOn.weaken hP h.canGoOn
  viableAt s := by
    apply (h.viableAt s).mono
    · rintro a t ⟨ls, hreach, ha⟩
      exact ⟨ls, hreach, hP a ls ha⟩
    · rintro f t ⟨ls, hreach, hstop⟩
      exact ⟨ls, hreach, hstop.imp_right (CanGoOn.weaken hP)⟩

theorem viable_pure {a : α} (h : P a []) : Viable X (pure a : EStateM Failure σ α) P where
  canGoOn := ⟨a, [], List.not_mem_nil, h⟩
  viableAt _ := ⟨[], .refl, h⟩

theorem viable_throw {f : Failure} (h : CanGoOn P []) :
    Viable X (throw f : EStateM Failure σ α) P where
  canGoOn := h
  viableAt _ := ⟨[], .refl, .inr h⟩

end

/-! ## §2. Readers of single tokens -/

section
variable {X : Cursor → Prop} {α : Type} {M : α → List Lexeme → Prop} {c : Cursor}

/-- What was not wanted was not passed. -/
theorem viable_unexpected {expected : Expected} (h : CanGoOn M []) :
    Viable X (unexpected (α := α) expected) M where
  canGoOn := h
  viableAt _ := ⟨[], .refl, .inr h⟩

theorem viableAt_lexeme? {k : Option Lexeme → CursorM α} :
    ViableAt X (lexeme? >>= k) c M ↔ ViableAt X (k c.lexeme?) c M := Iff.rfl

theorem viable_isAt (l : Lexeme) : Viable X (isAt l) fun _ ls => ls = [] where
  canGoOn := ⟨true, [], List.not_mem_nil, rfl⟩
  viableAt _ := ⟨[], .refl, rfl⟩

/-- The token that was looked at is passed. -/
theorem advance_reaches {l : Lexeme} (h : c.lexeme? = some l) :
    Ends advance c (fun t c' => t.lexeme = l ∧ c.Reaches [l] c') fun _ _ => False := by
  obtain ⟨t, ht, rfl⟩ := Option.map_eq_some_iff.mp h
  unfold advance
  rw [ends_bind, ends_get, ht]
  exact ⟨rfl, reaches_past ht⟩

theorem viableAt_advance {l : Lexeme} (h : c.lexeme? = some l) {k : Token → CursorM α}
    (hk : ∀ t, t.lexeme = l → Viable X (k t) fun a v => M a (l :: v)) :
    ViableAt X (advance >>= k) c M := by
  have hadvance : ViableAt X advance c fun t ls => t.lexeme = l ∧ ls = [l] :=
    (advance_reaches h).mono (fun _ _ ht => ⟨[l], ht.2, ht.1, rfl⟩) fun _ _ h => h.elim
  apply hadvance.bind
  intro t ls ht
  obtain ⟨hl, rfl⟩ := ht
  exact hk t hl

/-- Reading a token if it is there, and something else if it is not. -/
theorem viable_sight {l : Lexeme} {yes : Token → CursorM α} {no : CursorM α}
    (hyes : ∀ t, t.lexeme = l → Viable X (yes t) fun a v => M a (l :: v)) (hno : Viable X no M) :
    Viable X (do if ← isAt l then do let t ← advance; yes t else no) M where
  canGoOn := hno.canGoOn
  viableAt c := by
    show ViableAt X (if (c.lexeme? == some l) = true then advance >>= yes else no) c M
    split
    · next h =>
      exact viableAt_advance (eq_of_beq h) hyes
    · exact hno.viableAt c

/-- A token that need not be there is passed if it is. -/
theorem accept_reaches (l : Lexeme) :
    Ends (accept l) c
      (fun found c' => found = true ∧ c.Reaches [l] c'
        ∨ found = false ∧ c' = c ∧ c.lexemes.head? ≠ some l) fun _ _ => False := by
  unfold accept
  rw [ends_bind, ends_isAt, ← lexeme?_eq_head?]
  split
  · next h =>
    rw [ends_bind]
    exact (advance_reaches (eq_of_beq h)).weaken fun _ _ ht => .inl ⟨rfl, ht.2⟩
  · next h => exact .inr ⟨rfl, rfl, by simpa using h⟩

theorem viable_accept (l : Lexeme) :
    Viable X (accept l) fun found ls => ls = if found then [l] else [] := by
  refine ⟨⟨false, [], List.not_mem_nil, rfl⟩, fun c => (accept_reaches l).mono ?_ ?_⟩
  · intro found c' h
    obtain ⟨rfl, hreach⟩ | ⟨rfl, rfl, -⟩ := h
    · exact ⟨[l], hreach, rfl⟩
    · exact ⟨[], .refl, rfl⟩
  · exact fun _ _ h => h.elim

theorem viable_optional {l : Lexeme} {k : Bool → CursorM α}
    (hyes : Viable X (k true) fun a v => M a (l :: v)) (hno : Viable X (k false) M) :
    Viable X (accept l >>= k) M := by
  apply (viable_accept l).pass
  intro found
  cases found
  · exact hno
  · exact hyes

/-- Reading a token that has to be there. -/
theorem viable_demand {l : Lexeme} (hl : l ≠ .eof) {expected : Expected} :
    Viable X (do if ← isAt l then let _ ← advance else unexpected expected)
      fun _ ls => ls = [l] := by
  have hgo : CanGoOn (fun (_ : Unit) ls => ls = [l]) [] := ⟨(), [l], by simpa using hl.symm, rfl⟩
  exact viable_sight (fun _ _ => viable_pure rfl) (viable_unexpected hgo)

theorem viable_mark (m : Mark) : Viable X (mark m) fun _ ls => ls = [.mark m] :=
  viable_demand (by simp)

theorem viable_word (w : Word) : Viable X (word w) fun _ ls => ls = [.word w] :=
  viable_demand (by simp)

theorem viable_identifier (expected : Expected) :
    Viable X (identifier expected) fun name ls => ls = [.ident name] := by
  have hgo : CanGoOn (fun name ls => ls = [.ident name]) [] :=
    ⟨ascii "x", _, by simp, rfl⟩
  refine ⟨hgo, ?_⟩
  intro c
  unfold identifier
  rw [viableAt_lexeme?]
  split
  · next name h =>
    exact viableAt_advance h fun _ _ => viable_pure rfl
  · exact (viable_unexpected hgo).viableAt c

/-- A token that means something is passed, and no other. -/
theorem viable_select? {β : Type} (meaning : Lexeme → Option β) :
    Viable X (select? meaning) fun b? ls =>
      b? = none ∧ ls = [] ∨ ∃ l b, meaning l = some b ∧ b? = some b ∧ ls = [l] := by
  refine ⟨⟨none, [], List.not_mem_nil, .inl ⟨rfl, rfl⟩⟩, ?_⟩
  intro c
  unfold select?
  rw [viableAt_lexeme?]
  split
  · next b h =>
    obtain ⟨l, hl, hmeaning⟩ := Option.bind_eq_some_iff.mp h
    exact viableAt_advance hl fun _ _ => viable_pure (.inr ⟨l, b, hmeaning, rfl, rfl⟩)
  · exact (viable_pure (.inl ⟨rfl, rfl⟩)).viableAt c

theorem viable_splitGe : Viable X (modify splitGe : CursorM Unit) fun _ ls => ls = [] where
  canGoOn := ⟨(), [], List.not_mem_nil, rfl⟩
  viableAt c := ⟨[], reaches_splitGe c, rfl⟩

end

/-! ## §3. Types -/

section
variable {X : Cursor → Prop}

/-- A type that is declared, as it is written. -/
def WritesTy (t : Ty) (ls : List Lexeme) : Prop := ls = t.lexemes ∧ t.isDeclarable = true

theorem canGoOn_type : CanGoOn WritesTy [] := ⟨.int, [.word .int], by simp, rfl, rfl⟩

/-- Where a `>=` closes a type it is split, and only the first half is passed. -/
theorem type_viable (steps : Nat) : Viable X (type steps) WritesTy := by
  induction steps with
  | zero => exact viable_throw canGoOn_type
  | succ steps ih =>
    refine ⟨canGoOn_type, ?_⟩
    intro c
    unfold type
    rw [viableAt_lexeme?]
    split
    · next hlist =>
      apply viableAt_advance hlist
      intro _ _
      apply (viable_mark .lt).pass
      intro _
      apply ih.passWith
      intro elem hdecl
      apply viable_splitGe.pass
      intro _
      apply (viable_mark .gt).pass
      intro _
      exact viable_pure ⟨by simp [Ty.lexemes], hdecl⟩
    · next l _ hl =>
      split
      · next t ht =>
        obtain ⟨hdecl, hlex⟩ := Ty.lexemes_of_ofLexeme? ht
        exact viableAt_advance hl fun _ _ => viable_pure ⟨hlex.symm, hdecl⟩
      · exact (viable_unexpected canGoOn_type).viableAt c
    · exact (viable_unexpected canGoOn_type).viableAt c

/-! ## §4. Levels -/

/-- An expression of some level, as it is written. -/
def WritesLevel (k : Nat) (e : Expr) (ls : List Lexeme) : Prop :=
  ls = e.lexemes ∧ e.isLevelled = true ∧ k ≤ e.level

theorem canGoOn_level {k : Nat} (hk : k ≤ 7) : CanGoOn (WritesLevel k) [] :=
  ⟨.literal {} (.bool true), [.literal (.bool true)], by simp, rfl, rfl, hk⟩

variable {k : Nat} {join? : Lexeme → Option Join} {operand : CursorM Expr}

/-- What follows an operand goes on with it, and it may stop at any operand. -/
theorem chain_viable (hjoin : JoinsAt k join?) (hassoc : k ≠ 3)
    (hop : Viable X operand (WritesLevel (k + 1))) (steps : Nat) {lhs : Expr}
    (hlhs : lhs.isLevelled = true) (hlevel : k ≤ lhs.level) :
    Viable X (chain join? operand steps lhs) fun e ls => WritesLevel k e (lhs.lexemes ++ ls) := by
  have hsame : WritesLevel k lhs (lhs.lexemes ++ []) := ⟨List.append_nil _, hlhs, hlevel⟩
  induction steps generalizing lhs with
  | zero => exact viable_throw ⟨lhs, [], List.not_mem_nil, hsame⟩
  | succ steps ih =>
    unfold chain
    apply (viable_select? join?).bind
    intro join ls hls
    obtain ⟨rfl, rfl⟩ | ⟨l, join, hmeaning, rfl, rfl⟩ := hls
    · exact viable_pure hsame
    · obtain ⟨op, hopk, rfl, rfl⟩ := (hjoin l join).mp hmeaning
      apply hop.passWith
      intro rhs hrhs
      obtain ⟨hrhs, hrlevel⟩ := hrhs
      obtain ⟨hnode, hk⟩ := levelled_left lhs.pos hopk hassoc hlhs hlevel hrhs hrlevel
      have hlexemes : ∀ v, lhs.lexemes ++ ([op.lexeme] ++ (rhs.lexemes ++ v))
          = (op.node lhs.pos lhs rhs).lexemes ++ v := by
        intro v
        simp
      simp only [hlexemes]
      -- the node is the operand on the left of what comes next
      exact ih hnode hk ⟨List.append_nil _, hnode, hk⟩

theorem leftAssoc_viable (hjoin : JoinsAt k join?) (hassoc : k ≠ 3)
    (hop : Viable X operand (WritesLevel (k + 1))) (steps : Nat) :
    Viable X (leftAssoc join? operand steps) (WritesLevel k) := by
  unfold leftAssoc
  apply hop.passWith
  intro lhs hlhs
  obtain ⟨hlhs, hlevel⟩ := hlhs
  exact chain_viable hjoin hassoc hop steps hlhs (Nat.le_of_succ_le hlevel)

theorem nonAssoc_viable (hjoin : JoinsAt 3 join?) (hop : Viable X operand (WritesLevel 4)) :
    Viable X (nonAssoc join? operand) (WritesLevel 3) := by
  unfold nonAssoc
  apply hop.passWith
  intro lhs hlhs
  obtain ⟨hlhs, hlevel⟩ := hlhs
  apply (viable_select? join?).bind
  intro join ls hls
  obtain ⟨rfl, rfl⟩ | ⟨l, join, hmeaning, rfl, rfl⟩ := hls
  · exact viable_pure ⟨by simp, hlhs, by omega⟩
  · obtain ⟨op, hop3, rfl, rfl⟩ := (hjoin l join).mp hmeaning
    apply hop.passWith
    intro rhs hrhs
    obtain ⟨hrhs, hrlevel⟩ := hrhs
    obtain ⟨hnode, hk⟩ := levelled_comparison lhs.pos hop3 hlhs hlevel hrhs hrlevel
    exact viable_pure ⟨by simp, hnode, hk⟩

theorem signed_viable (hop : Viable X operand (WritesLevel 7)) (steps : Nat) :
    Viable X (signed operand steps) (WritesLevel 6) := by
  have hgo : CanGoOn (WritesLevel 6) [] := canGoOn_level (by decide)
  induction steps with
  | zero => exact viable_throw hgo
  | succ steps ih =>
    unfold signed
    apply viable_sight
    · intro sign _
      apply ih.passWith
      intro e he
      obtain ⟨he, hlevel⟩ := he
      refine viable_pure ⟨by simp [Expr.lexemes], ?_, Nat.le_refl 6⟩
      rw [Expr.isLevelled, he, decide_eq_true hlevel]
      rfl
    · exact hop.weaken fun e ls he => ⟨he.1, he.2.1, Nat.le_of_succ_le he.2.2⟩

/-! ## §5. What stands by itself -/

section
variable {expr : CursorM Expr} (hexpr : Viable X expr (WritesLevel 1))
include hexpr

/-- After a comma another expression is missing, and then what closes the list. -/
theorem listed_viable (close : Mark) (steps : Nat) :
    Viable X (listed close expr steps) fun es ls =>
      ls = Expr.listLexemes es ++ [.mark close] ∧ Expr.areLevelled es = true ∧ es ≠ [] := by
  induction steps with
  | zero =>
    refine viable_throw ⟨[.literal {} (.bool true)], _, ?_, rfl, rfl, List.cons_ne_nil _ _⟩
    simp
  | succ steps ih =>
    unfold listed
    apply hexpr.passWith
    intro e he
    obtain ⟨he, -⟩ := he
    have hmore : Viable X (do return e :: (← listed close expr steps)) fun es v =>
        e.lexemes ++ .mark .comma :: v = Expr.listLexemes es ++ [.mark close]
          ∧ Expr.areLevelled es = true ∧ es ≠ [] := by
      apply ih.passWith
      intro es hes
      obtain ⟨hes, hne⟩ := hes
      refine viable_pure ⟨?_, by rw [Expr.areLevelled, he, hes]; rfl, List.cons_ne_nil e es⟩
      rw [Expr.listLexemes_cons e hne]
      simp
    apply viable_optional
    -- the list may not end with the comma, but it goes on from there
    · apply (viable_isAt _).pass
      intro atClose
      split
      · exact viable_unexpected hmore.canGoOn
      · exact hmore
    · apply (viable_mark close).pass
      intro _
      exact viable_pure ⟨by simp [Expr.listLexemes], by rw [Expr.areLevelled, he]; rfl,
        List.cons_ne_nil e []⟩

theorem arguments_viable (close : Mark) (steps : Nat) :
    Viable X (arguments close expr steps) fun es ls =>
      ls = Expr.listLexemes es ++ [.mark close] ∧ Expr.areLevelled es = true := by
  have hlisted := listed_viable hexpr close steps
  unfold arguments
  apply viable_optional
  · exact viable_pure ⟨rfl, rfl⟩
  · exact hlisted.weaken fun es ls h => ⟨h.1, h.2.1⟩

theorem indices_viable (steps : Nat) :
    Viable X (indices expr steps) fun es ls =>
      ls = Expr.indexLexemes es ∧ Expr.areLevelled es = true := by
  induction steps with
  | zero => exact viable_throw ⟨[], [], List.not_mem_nil, rfl, rfl⟩
  | succ steps ih =>
    unfold indices
    apply viable_optional
    · apply hexpr.passWith
      intro e he
      obtain ⟨he, -⟩ := he
      apply (viable_mark .rbracket).pass
      intro _
      apply ih.passWith
      intro es hes
      exact viable_pure ⟨by simp [Expr.indexLexemes], by rw [Expr.areLevelled, he, hes]; rfl⟩
    · exact viable_pure ⟨rfl, rfl⟩

/-- What follows a name. -/
theorem named_viable (steps : Nat) (pos : Pos) (name : Bytes) :
    Viable X (named expr steps pos name) fun e ls =>
      .ident name :: ls = e.lexemes ∧ e.isLevelled = true ∧ e.isNamed = true := by
  unfold named
  apply viable_optional
  · apply (arguments_viable hexpr .rparen steps).passWith
    intro args hargs
    exact viable_pure ⟨by simp [Expr.lexemes], hargs, rfl⟩
  · apply (indices_viable hexpr steps).passWith
    intro path hpath
    apply viable_optional
    · apply (viable_identifier .methodName).pass
      intro method
      apply (viable_mark .lparen).pass
      intro _
      apply (arguments_viable hexpr .rparen steps).passWith
      intro args hargs
      exact viable_pure ⟨by simp [Expr.lexemes], by rw [Expr.isLevelled, hpath, hargs]; rfl, rfl⟩
    · exact viable_pure ⟨by simp [Expr.lexemes], hpath, rfl⟩

theorem primary_viable (steps : Nat) : Viable X (primary expr steps) (WritesLevel 7) := by
  have hgo : CanGoOn (WritesLevel 7) [] := canGoOn_level (Nat.le_refl 7)
  refine ⟨hgo, ?_⟩
  intro c
  unfold primary
  rw [viableAt_lexeme?]
  split
  · next v h =>
    apply viableAt_advance h
    intro t _
    exact viable_pure ⟨rfl, rfl, Nat.le_refl 7⟩
  · next name h =>
    apply viableAt_advance h
    intro t _
    exact (named_viable hexpr steps t.pos name).weaken fun e ls he =>
      ⟨he.1, he.2.1, Nat.le_of_eq (Expr.level_of_isNamed he.2.2).symm⟩
  · next h =>
    apply viableAt_advance h
    intro t _
    apply hexpr.passWith
    intro e he
    obtain ⟨he, -⟩ := he
    apply (viable_mark .rparen).pass
    intro _
    exact viable_pure ⟨by simp [Expr.lexemes], he, Nat.le_refl 7⟩
  · next h =>
    apply viableAt_advance h
    intro t _
    apply (arguments_viable hexpr .rbracket steps).passWith
    intro es hes
    exact viable_pure ⟨by simp [Expr.lexemes], hes, Nat.le_refl 7⟩
  · exact (viable_unexpected hgo).viableAt c

end

theorem expr_viable (steps : Nat) : Viable X (expr steps) (WritesLevel 1) := by
  induction steps with
  | zero => exact viable_throw (canGoOn_level (by decide))
  | succ steps ih =>
    rw [expr_succ]
    have hprimary := primary_viable ih (steps + 1)
    have hsigned := signed_viable hprimary (steps + 1)
    have hproduct := leftAssoc_viable multiplicative_joinsAt (by decide) hsigned (steps + 1)
    have hsum := leftAssoc_viable additive_joinsAt (by decide) hproduct (steps + 1)
    have hcomparison := nonAssoc_viable comparison_joinsAt hsum
    have hconjunction := leftAssoc_viable and_joinsAt (by decide) hcomparison (steps + 1)
    exact leftAssoc_viable or_joinsAt (by decide) hconjunction (steps + 1)

end

end Lumen.Parse
