/-
  Lumen.Proofs.Scoping.Calls — calls of functions that are known are checked, wherever they stand.

  A function is known from the end of its statement at top level on.  In a program that
  a checked parse accepts, each call of a function that is known at its site has as
  many arguments as the function has parameters, and each of them may stand where the
  type of its parameter is declared.

  A checked parse that stops with an error of a check stops in the middle of the text.
  But up to there, with the open blocks closed, the text is that of a program, and some
  site of this program violates a rule.  If this is a call, then its function is known
  there; so a call of any other name is never rejected, whatever its arguments are.

  Main statements:
    * `callsRight_of_accepted` — the calls in an accepted program;
    * `Program.Rejects` — what a program is rejected for;
    * `Site.known_of_violates` — a call that is to blame is one of a known function;
    * `exists_rejects` — the text up to an error of a check;
    * `known_calls_checked` — both directions.
-/
import Lumen.Proofs.Checking.Whole
import Lumen.Proofs.Checking.Inline
import Lumen.Proofs.Scoping.Sites

namespace Lumen

/-! ## §1. Functions that are known -/

namespace Site

theorem functions_envIn (s : Site) (env : Env) : (s.envIn env).functions = env.functions := by
  unfold envIn
  induction s.around with
  | nil => rfl
  | cons b rest ih => exact (Env.functions_introduceAll _ b.variables).trans ih

/-- What can be called at a site are the functions completed at top level before. -/
theorem functions_env (s : Site) : s.env.functions = s.functions := s.functions_envIn _

theorem mem_of_function? {s : Site} {name : Bytes} {f : Signature}
    (h : s.env.function? name = some f) : f ∈ s.functions ∧ f.name = name :=
  s.functions_env ▸ Lumen.mem_of_function? h

end Site

/-- What stands above a site of a program is the beginning of the program. -/
theorem above_prefix {above p : List Stmt} {site : Site} (h : site ∈ sitesAfter above p) :
    site.above <+: above ++ p := by
  induction p generalizing above with
  | nil => cases h
  | cons s rest ih =>
    rw [sitesAfter] at h
    rcases List.mem_append.mp h with hfirst | hrest
    · obtain ⟨inner, -, rfl⟩ := List.mem_map.mp hfirst
      exact List.prefix_append above (s :: rest)
    · have habove := ih hrest
      rwa [List.append_assoc] at habove

/-- If no name is taken twice at top level, then a function that is known at a site is
    found there by its name. -/
theorem Site.function?_of_mem {p : Program} {site : Site} (h : site ∈ p.sites)
    (hnodup : ((p.filterMap Stmt.signature?).map Signature.name).Nodup) {f : Signature}
    (hf : f ∈ site.functions) : site.env.function? f.name = some f := by
  have habove : site.above <+: p := above_prefix h
  have hsub : (site.functions.map Signature.name).Sublist
      ((p.filterMap Stmt.signature?).map Signature.name) :=
    ((habove.sublist.filterMap _).map _)
  apply Lumen.function?_of_mem
  · rw [site.functions_env]
    exact hsub.nodup hnodup
  · rw [site.functions_env]
    exact hf

/-! ## §2. What is accepted -/

namespace Parse

/-- In an accepted program every call of a function that is known has the right
    arguments. -/
theorem callsRight_of_accepted {o : Options} (hon : o.checked = true) {tokens : List Token}
    {p : Program} {s : State} (h : whole o tokens = .ok p s) {site : Site} (hsite : site ∈ p.sites)
    {pos : Pos} {name : Bytes} {args : List Expr} (hcall : site.node = .expr (.call pos name args))
    {f : Signature} (hf : f ∈ site.functions) (hname : f.name = name) :
    f.params.length = args.length
      ∧ ∀ param arg, (param, arg) ∈ f.params.zip args → Assignable site.env param.type arg := by
  have hcheck : Program.check .empty p = .ok s.env := program_walks hon h
  have hgrows : Grows p .empty s.env := ((Program.check_grows .empty p).of_ok hcheck).1
  have hnodup : ((p.filterMap Stmt.signature?).map Signature.name).Nodup := by
    have hfunctions : s.env.functions = p.filterMap Stmt.signature? := hgrows.functions_eq
    rw [← hfunctions]
    exact hgrows.functions_nodup List.nodup_nil
  have hright : site.node.CallsRight site.env := p.check_sites.of_ok hcheck site hsite
  rw [hcall] at hright
  exact hright pos name args f rfl (hname ▸ Site.function?_of_mem hsite hnodup hf)

end Parse

/-! ## §3. What is rejected -/

/-- Whether a program is rejected for an error: a function is defined twice, or a site
    violates a rule. -/
def Program.Rejects (p : Program) (err : ParseError) : Prop :=
  (∃ name pos, err = .duplicateFunction name pos) ∨ ∃ s ∈ p.sites, s.node.Violates s.env err

/-- If a call violates its rule, then its function is known at its site; and it has
    another number of parameters, or one of the arguments may not stand for its
    parameter. -/
theorem Site.known_of_violates {s : Site} {err : ParseError} (h : s.node.Violates s.env err)
    {pos : Pos} {name : Bytes} {args : List Expr} (hcall : s.node = .expr (.call pos name args)) :
    ∃ f ∈ s.functions, f.name = name
      ∧ (f.params.length ≠ args.length ∧ err = .arity name f.params.length args.length pos
        ∨ f.params.length = args.length ∧ ∃ param arg, (param, arg) ∈ f.params.zip args
          ∧ Unassignable s.env param.name param.type arg.pos arg err) := by
  rw [hcall] at h
  cases h with
  | arity hf hne =>
    obtain ⟨hmem, hname⟩ := Site.mem_of_function? hf
    exact ⟨_, hmem, hname, .inl ⟨hne, by rw [hname]⟩⟩
  | argument hf hlen hmem hun =>
    obtain ⟨hfun, hname⟩ := Site.mem_of_function? hf
    exact ⟨_, hfun, hname, .inr ⟨hlen, _, _, hmem, hun⟩⟩

/-- Whether there is a call of a function that is known at its site, with another
    number of arguments than the function has parameters. -/
def Program.Miscounts (p : Program) (name : Bytes) (expected found : Nat) (pos : Pos) : Prop :=
  ∃ s ∈ p.sites, ∃ args, s.node = .expr (.call pos name args) ∧ ∃ f ∈ s.functions,
    f.name = name ∧ expected = f.params.length ∧ found = args.length ∧ expected ≠ found

/-- Only for such a call a program is rejected for a number of arguments. -/
theorem Program.Rejects.miscounts {p : Program} {name : Bytes} {expected found : Nat} {pos : Pos}
    (h : p.Rejects (.arity name expected found pos)) : p.Miscounts name expected found pos := by
  rcases h with ⟨_, _, herr⟩ | ⟨s, hs, hviolates⟩
  · cases herr
  -- a number of arguments is neither a name that is missing nor a mismatch
  have hnot : ¬ ((∃ name' pos', ParseError.arity name expected found pos = .undeclared name' pos')
      ∨ (ParseError.arity name expected found pos).IsMismatch) := by
    rintro (⟨_, _, herr⟩ | ⟨_, _, _, _, herr⟩) <;> cases herr
  cases hnode : s.node with
  | stmt a =>
    rw [hnode] at hviolates
    exact absurd (Stmt.Violates.cases_error hviolates) hnot
  | expr e =>
    have hexpr : e.Violates s.env (.arity name expected found pos) := by
      rw [hnode] at hviolates
      exact hviolates
    obtain ⟨p', name', args, f, rfl, hf, hne, herr⟩ := hexpr.cases_error.resolve_left hnot
    obtain ⟨hmem, hname⟩ := Site.mem_of_function? hf
    cases herr
    exact ⟨s, hs, args, hname ▸ hnode, f, hmem, rfl, rfl, rfl, hne⟩

namespace Parse

section
variable {on off : Options} (hon : on.checked = true) (hoff : off.checked = false)
  {tokens : List Token} {e : ParseError} {s : State}
  (h : whole on tokens = .error (.error e) s)
include hon hoff h

omit hon hoff in
/-- A program is rejected for what the walk over it reports, if this is no refusal. -/
theorem rejects_of_check {p : Program} (hcheck : Program.check .empty p = .error (.error e)) :
    p.Rejects e := by
  have hnot : e.isRefused = false :=
    not_refused_of_cases ((program_error_cases on tokens #[]).of_error h)
  obtain ⟨err, herr, hcases⟩ := p.check_sites.of_error hcheck
  obtain rfl : e = err := Failure.error.inj herr
  rcases hcases with hrefused | hcases
  · rw [hnot] at hrefused
    cases hrefused
  · exact hcases

/-- A program is rejected for what a checked parse of it reports. -/
theorem rejects_of_unchecked {p : Program} {t : State} (hrun : whole off tokens = .ok p t) :
    p.Rejects e := rejects_of_check h (check_of_unchecked hon hoff tokens hrun h)

/-- What a checked parse reports, an unchecked one reports too; or up to there the text
    is that of a program that is rejected for it, if its open blocks are closed. -/
theorem exists_rejects :
    (∃ t, whole off tokens = .error (.error e) t)
      ∨ ∃ k ends p t, AllEnd ends ∧ whole off (tokens.take k ++ ends) = .ok p t
        ∧ p.Rejects e := by
  by_cases hstatic : e.isStatic = true
  · rcases whole_completed hon hoff h hstatic with ⟨k, ends, p, t, hends, hrun, hcheck⟩ | hstuck
    · exact .inr ⟨k, ends, p, t, hends, hrun, rejects_of_check h hcheck⟩
    · exact .inl hstuck
  · exact .inl (unchecked_of_not_static hon hoff tokens h hstatic)

end

/-! ## §4. Calls of known functions -/

/-- In a program that a checked parse accepts, every call of a function that was
    completed at top level before has as many arguments as the function has parameters,
    and each of them may stand for its parameter.

    If a checked parse reports a wrong number of arguments, then up to there, with the
    open blocks closed, the text is that of a program with a call of such a function
    that has another number of them.  Whatever else it reports, an unchecked parse
    reports too, or the program up to there is rejected for it: a function is defined
    twice, or a site violates a rule.  If the text is that of a program as a whole, the
    same is said of this.  And a call that violates a rule is one of a function that is
    known there, with another number of parameters or with a parameter that an argument
    may not stand for. -/
theorem known_calls_checked (trace : Bool) (tokens : List Token) :
    (∀ p s, whole { checked := true, trace } tokens = .ok p s → ∀ site ∈ p.sites,
        ∀ pos name args, site.node = .expr (.call pos name args) →
          ∀ f ∈ site.functions, f.name = name → f.params.length = args.length
            ∧ ∀ param arg, (param, arg) ∈ f.params.zip args → Assignable site.env param.type arg)
      ∧ (∀ name expected found pos s,
        whole { checked := true, trace } tokens = .error (.error (.arity name expected found pos)) s →
          (∃ k ends p t, AllEnd ends
            ∧ whole { checked := false } (tokens.take k ++ ends) = .ok p t
            ∧ p.Miscounts name expected found pos)
          ∧ ∀ p t, whole { checked := false } tokens = .ok p t → p.Miscounts name expected found pos)
      ∧ (∀ e s, whole { checked := true, trace } tokens = .error (.error e) s →
        ((∃ t, whole { checked := false } tokens = .error (.error e) t)
          ∨ ∃ k ends p t, AllEnd ends
            ∧ whole { checked := false } (tokens.take k ++ ends) = .ok p t ∧ p.Rejects e)
        ∧ ∀ p t, whole { checked := false } tokens = .ok p t → p.Rejects e)
      ∧ ∀ (site : Site) e, site.node.Violates site.env e →
        ∀ pos name args, site.node = .expr (.call pos name args) → ∃ f ∈ site.functions,
          f.name = name
            ∧ (f.params.length ≠ args.length ∧ e = .arity name f.params.length args.length pos
              ∨ f.params.length = args.length ∧ ∃ param arg, (param, arg) ∈ f.params.zip args
                ∧ Unassignable site.env param.name param.type arg.pos arg e) := by
  have hoff : ({ checked := false } : Options).checked = false := rfl
  refine ⟨?_, ?_, ?_, ?_⟩
  · intro p s h site hsite pos name args hcall f hf hname
    exact callsRight_of_accepted rfl h hsite hcall hf hname
  · intro name expected found pos s h
    refine ⟨?_, fun p t hrun => (rejects_of_unchecked rfl hoff h hrun).miscounts⟩
    rcases exists_rejects rfl hoff h with ⟨t, hrun⟩ | ⟨k, ends, p, t, hends, hrun, hrejects⟩
    · -- without checking no arguments are counted
      cases (program_sound hoff _).of_error hrun
    · exact ⟨k, ends, p, t, hends, hrun, hrejects.miscounts⟩
  · intro e s h
    exact ⟨exists_rejects rfl hoff h, fun p t hrun => rejects_of_unchecked rfl hoff h hrun⟩
  · intro site e hviolates pos name args hcall
    exact Site.known_of_violates hviolates hcall

/-- Whether a checked run over some tokens gives a program with a call of a function that
    is known there. -/
def callsKnown (tokens : List Token) : Bool :=
  match whole { checked := true, trace := false } tokens with
  | .ok p _ => p.sites.any fun site =>
    match site.node with
    | .expr (.call _ name _) => site.functions.any (·.name == name)
    | _ => false
  | .error _ _ => false

theorem exists_of_callsKnown {tokens : List Token} (h : callsKnown tokens = true) :
    ∃ p s, whole { checked := true, trace := false } tokens = .ok p s ∧ ∃ site ∈ p.sites,
      ∃ pos name args, site.node = .expr (.call pos name args) ∧ ∃ f ∈ site.functions,
        f.name = name := by
  unfold callsKnown at h
  split at h
  · next p s hrun =>
    obtain ⟨site, hsite, hcalls⟩ := List.any_eq_true.mp h
    split at hcalls
    · next pos name args hnode =>
      obtain ⟨f, hf, hname⟩ := List.any_eq_true.mp hcalls
      exact ⟨p, s, hrun, site, hsite, pos, name, args, hnode, f, hf, eq_of_beq hname⟩
    · cases hcalls
  · cases h

/-- Whether a checked run over some tokens stops at a wrong number of arguments. -/
def stopsCounting (tokens : List Token) : Bool :=
  match whole { checked := true, trace := false } tokens with
  | .error (.error (.arity _ _ _ _)) _ => true
  | _ => false

theorem error_of_stopsCounting {tokens : List Token} (h : stopsCounting tokens = true) :
    ∃ name expected found pos s, whole { checked := true, trace := false } tokens
      = .error (.error (.arity name expected found pos)) s := by
  unfold stopsCounting at h
  split at h
  · next name expected found pos s hrun => exact ⟨name, expected, found, pos, s, hrun⟩
  · cases h

/-- `fn f(a: int) print a end f(...)`. -/
def calling (args : List Token) : List Token :=
  [⟨.word .fn, {}⟩, ⟨.ident [102], {}⟩, ⟨.mark .lparen, {}⟩, ⟨.ident [97], {}⟩, ⟨.mark .colon, {}⟩,
    ⟨.word .int, {}⟩, ⟨.mark .rparen, {}⟩, ⟨.word .print, {}⟩, ⟨.ident [97], {}⟩, ⟨.word .end_, {}⟩,
    ⟨.ident [102], {}⟩, ⟨.mark .lparen, {}⟩] ++ args ++ [⟨.mark .rparen, {}⟩]

/-- With one argument the call is accepted, and the argument may stand for the parameter.
    Without any it is not accepted, and it is the call that is to blame. -/
theorem known_calls_checked_one :
    (∃ p s, whole { checked := true, trace := false } (calling [⟨.literal (.int 1), {}⟩]) = .ok p s
        ∧ ∃ site ∈ p.sites, ∃ pos name args, site.node = .expr (.call pos name args)
          ∧ ∃ f ∈ site.functions, f.name = name ∧ f.params.length = args.length
            ∧ ∀ param arg, (param, arg) ∈ f.params.zip args → Assignable site.env param.type arg)
      ∧ ∃ name expected found pos s, whole { checked := true, trace := false } (calling [])
          = .error (.error (.arity name expected found pos)) s
        ∧ ∃ k ends p t, AllEnd ends
          ∧ whole { checked := false } ((calling []).take k ++ ends) = .ok p t
          ∧ p.Miscounts name expected found pos := by
  have hruns : callsKnown (calling [⟨.literal (.int 1), {}⟩]) = true
      ∧ stopsCounting (calling []) = true := by
    decide +kernel
  obtain ⟨p, s, hrun, site, hsite, pos, name, args, hcall, f, hf, hname⟩ :=
    exists_of_callsKnown hruns.1
  obtain ⟨name', expected, found, pos', t, hfails⟩ := error_of_stopsCounting hruns.2
  have hright := (known_calls_checked false _).1 p s hrun site hsite pos name args hcall f hf hname
  exact ⟨⟨p, s, hrun, site, hsite, pos, name, args, hcall, f, hf, hname, hright⟩, name', expected,
    found, pos', t, hfails, ((known_calls_checked false _).2.1 _ _ _ _ t hfails).1⟩

end Parse

end Lumen
