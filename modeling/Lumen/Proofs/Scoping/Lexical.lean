/-
  Lumen.Proofs.Scoping.Lexical — a checked parse finds just the names that are not declared.

  What a checked parse accepts uses no name without a declaration that is visible
  there: by a `let` that is complete, in the same block or in one around it, by the
  header of a loop around it, or by the parameters of a function around it.

  A checked parse that stops at an undeclared name stops in the middle of the text,
  and there is no program yet.  But up to there the text is that of a program, if
  only its open blocks are closed; and in that program the name is used at the
  place that is reported, and no declaration of it is visible.

  Main statements:
    * `isDeclared_of_accepted` — every use in an accepted program is declared;
    * `hasUnbound_of_check` — what a walk reports is a use without a declaration;
    * `exists_hasUnbound` — the text up to an undeclared name;
    * `lexical_scoping` — both directions.
-/
import Lumen.Proofs.Checking.Whole
import Lumen.Proofs.Checking.Inline
import Lumen.Proofs.Reading.StmtDrawn
import Lumen.Proofs.Scoping.TopLevel

namespace Lumen

/-! ## §1. Walks from the start of a program -/

/-- Whether a name is used at a place where no declaration of it is visible. -/
def Program.HasUnbound (p : Program) (name : Bytes) (pos : Pos) : Prop :=
  ∃ u ∈ p.uses, u.name = name ∧ u.pos = pos ∧ u.isDeclared = false

/-- Before a program nothing is declared. -/
theorem binds_empty_iff (u : Use) : Env.empty.Binds u ↔ u.isDeclared = true := by
  have hnone : (Env.empty.lookup? u.name).isSome = false := rfl
  unfold Env.Binds
  rw [hnone]
  simp

/-- A walk that stops at an undeclared name has come to a use of it. -/
theorem hasUnbound_of_check {p : Program} {name : Bytes} {pos : Pos}
    (h : Program.check .empty p = .error (.error (.undeclared name pos))) :
    p.HasUnbound name pos := by
  obtain ⟨u, hu, hname, hpos, hunbound⟩ := (Program.check_grows .empty p).of_error h name pos rfl
  rw [binds_empty_iff, Bool.not_eq_true] at hunbound
  exact ⟨u, hu, hname, hpos, hunbound⟩

namespace Parse

/-! ## §2. What a checked parse accepts -/

theorem isDeclared_of_accepted {o : Options} (hon : o.checked = true) {tokens : List Token}
    {p : Program} {s : State} (h : whole o tokens = .ok p s) :
    ∀ u ∈ p.uses, u.isDeclared = true := by
  have hcheck : Program.check .empty p = .ok s.env := program_walks hon h
  intro u hu
  rw [← binds_empty_iff]
  exact ((Program.check_grows .empty p).of_ok hcheck).2 u hu

/-! ## §3. What a checked parse reports -/

/-- Whether a token is one of some tokens, or half of a token that was split. -/
def FromTokens (tokens : List Token) (t : Token) : Prop :=
  t ∈ tokens ∨ t.lexeme = .mark .gt ∨ t.lexeme = .mark .equal

theorem supplies_fromTokens (tokens : List Token) :
    Supplies (fun c => ∀ t ∈ c.ahead, FromTokens tokens t) (FromTokens tokens)
      (Blamed (FromTokens tokens)) := by
  apply supplies_ahead
  · exact fun _ _ => ⟨.inr (.inl rfl), .inr (.inr rfl)⟩
  · exact fun _ _ _ ht => ⟨_, ht, rfl⟩

/-- A name that is reported is one of the tokens. -/
theorem mem_of_undeclared {o : Options} {tokens : List Token} {name : Bytes} {pos : Pos}
    {s : State} (h : whole o tokens = .error (.error (.undeclared name pos)) s) :
    ⟨.ident name, pos⟩ ∈ tokens := by
  have hdraws := program_blamed (supplies_fromTokens tokens) o { cursor := .ofTokens tokens }
    fun t ht => .inl ht
  rcases (hdraws.of_error h).2 with hmem | hgt | hequal
  · exact hmem
  · cases hgt
  · cases hequal

/-- The error for an undeclared name tells the name and its place. -/
theorem undeclared_of_kindName {o : Options} {tokens : List Token} {e : ParseError} {s : State}
    (h : whole o tokens = .error (.error e) s) (hkind : e.kindName = "undeclared-variable") :
    ∃ name pos, e = .undeclared name pos := by
  have hnot : e.isRefused = false :=
    not_refused_of_cases ((program_error_cases o tokens #[]).of_error h)
  cases e with
  | undeclared name pos => exact ⟨name, pos, rfl⟩
  | refused => cases hnot
  | _ => simp [ParseError.kindName] at hkind

/-- Up to an undeclared name the text is that of a program in which the name is used
    without a declaration, if its open blocks are closed. -/
theorem exists_hasUnbound {o o' : Options} (hon : o.checked = true) (hoff : o'.checked = false)
    {tokens : List Token} {name : Bytes} {pos : Pos} {s : State}
    (h : whole o tokens = .error (.error (.undeclared name pos)) s) :
    ∃ k ends p t, ⟨.ident name, pos⟩ ∈ tokens.take k ∧ AllEnd ends
      ∧ whole o' (tokens.take k ++ ends) = .ok p t ∧ p.HasUnbound name pos := by
  obtain ⟨k, ends, p, t, hends, hrun, hcheck⟩ :=
    (whole_completed hon hoff h rfl).resolve_right (by
      -- without checking no name is looked up
      rintro ⟨t, hrun⟩
      cases (program_sound hoff _).of_error hrun)
  refine ⟨k, ends, p, t, ?_, hends, hrun, hasUnbound_of_check hcheck⟩
  -- a checked run over the completed text reports the name as well
  obtain ⟨s', hfails⟩ := (checked_of_unchecked hon hoff _ hrun).2 _ hcheck
  rcases List.mem_append.mp (mem_of_undeclared hfails) with hread | hend
  · exact hread
  · cases hends _ hend

/-- If the whole text is that of a program, then this is where the name is used. -/
theorem hasUnbound_of_unchecked {o o' : Options} (hon : o.checked = true)
    (hoff : o'.checked = false) {tokens : List Token} {name : Bytes} {pos : Pos} {s t : State}
    {p : Program} (h : whole o tokens = .error (.error (.undeclared name pos)) s)
    (hrun : whole o' tokens = .ok p t) : p.HasUnbound name pos :=
  hasUnbound_of_check (check_of_unchecked hon hoff tokens hrun h)

/-! ## §4. Lexical scoping -/

/-- In a program that a checked parse accepts, every use of a name has a visible
    declaration.  And if a checked parse reports an undeclared variable, then it
    reports an identifier of the text: up to there, with the open blocks closed, the
    text is that of a program where this is a use without a visible declaration.
    If the text is that of a program as a whole, it is one there too. -/
theorem lexical_scoping (trace : Bool) (tokens : List Token) :
    (∀ p s, whole { checked := true, trace } tokens = .ok p s →
        ∀ u ∈ p.uses, u.isDeclared = true)
      ∧ ∀ e s, whole { checked := true, trace } tokens = .error (.error e) s →
        e.kindName = "undeclared-variable" → ∃ name pos, e = .undeclared name pos
          ∧ (∃ k ends p t, ⟨.ident name, pos⟩ ∈ tokens.take k ∧ AllEnd ends
            ∧ whole { checked := false } (tokens.take k ++ ends) = .ok p t
            ∧ p.HasUnbound name pos)
          ∧ ∀ p t, whole { checked := false } tokens = .ok p t → p.HasUnbound name pos := by
  have hoff : ({ checked := false } : Options).checked = false := rfl
  refine ⟨fun p s h => isDeclared_of_accepted rfl h, ?_⟩
  intro e s h hkind
  obtain ⟨name, pos, rfl⟩ := undeclared_of_kindName h hkind
  exact ⟨name, pos, rfl, exists_hasUnbound rfl hoff h,
    fun p t hrun => hasUnbound_of_unchecked rfl hoff h hrun⟩

/-- Whether a checked run over some tokens stops at an undeclared variable. -/
def stopsUndeclared (tokens : List Token) : Bool :=
  match whole { checked := true, trace := false } tokens with
  | .error (.error e) _ => e.kindName == "undeclared-variable"
  | _ => false

theorem error_of_stopsUndeclared {tokens : List Token} (h : stopsUndeclared tokens = true) :
    ∃ e s, whole { checked := true, trace := false } tokens = .error (.error e) s
      ∧ e.kindName = "undeclared-variable" := by
  unfold stopsUndeclared at h
  split at h
  · next e s hrun => exact ⟨e, s, hrun, eq_of_beq h⟩
  · cases h

/-- `let x: int = 1 print x`. -/
def declaring : List Token :=
  [⟨.word .let_, {}⟩, ⟨.ident [120], {}⟩, ⟨.mark .colon, {}⟩, ⟨.word .int, {}⟩,
    ⟨.mark .equal, {}⟩, ⟨.literal (.int 1), {}⟩, ⟨.word .print, {}⟩, ⟨.ident [120], {}⟩]

/-- `if x print 1 end`. -/
def asking : List Token :=
  [⟨.word .if_, {}⟩, ⟨.ident [120], {}⟩, ⟨.word .print, {}⟩, ⟨.literal (.int 1), {}⟩,
    ⟨.word .end_, {}⟩]

/-- The first is accepted, and what is printed is declared.  The second is not
    accepted, and what is asked for is not declared. -/
theorem lexical_scoping_two :
    (∃ p s, whole { checked := true, trace := false } declaring = .ok p s
        ∧ p.uses.map Use.name = [[120]] ∧ ∀ u ∈ p.uses, u.isDeclared = true)
      ∧ ∃ e s name pos p t, whole { checked := true, trace := false } asking = .error (.error e) s
        ∧ e.kindName = "undeclared-variable" ∧ ⟨.ident name, pos⟩ ∈ asking
        ∧ whole { checked := false } asking = .ok p t ∧ p.HasUnbound name pos := by
  obtain ⟨p, s, hrun, huses⟩ : ∃ p s,
      whole { checked := true, trace := false } declaring = .ok p s
        ∧ p.uses.map Use.name = [[120]] :=
    Ends.exists_ok (by decide +kernel)
  obtain ⟨q, u, hread⟩ : ∃ q u, whole { checked := false } asking = .ok q u :=
    Ends.gives (by decide +kernel)
  have hstop : stopsUndeclared asking = true := by decide +kernel
  obtain ⟨e, t, hstops, hkind⟩ := error_of_stopsUndeclared hstop
  obtain ⟨name, pos, -, ⟨k, -, -, -, hmem, -⟩, hunbound⟩ :=
    (lexical_scoping false asking).2 e t hstops hkind
  exact ⟨⟨p, s, hrun, huses, (lexical_scoping false declaring).1 p s hrun⟩, e, t, name, pos, q,
    u, hstops, hkind, List.mem_of_mem_take hmem, hread, hunbound q u hread⟩

end Parse
end Lumen
