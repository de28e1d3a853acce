/-
  Lumen.Proofs.Session.Record — what a traced run notes.

  Tracing changes nothing but the record: two runs that differ in it only make the same
  checks and the same changes, so they go together step by step.

  The record is faithful.  What is noted of the scopes goes up and down by one, like the
  acts of nested blocks, and comes back to where it was without ever going below that.
  At top level one event is noted for each statement and one for each function, in the
  order of the program, and the last event of a whole parse counts both.

  Main statements:
    * `Climbs` — depths that go up and down by one, above a floor;
    * `Nested.climbs` — what nested acts note of the scopes;
    * `Tallies`, `Tells.tallies` — what the acts of a program note of it;
    * `tracing_observes` — tracing is an observer with a faithful record.
-/
import Lumen.Proofs.Checking.Paired
import Lumen.Proofs.Scoping.Acts
import Lumen.Proofs.Scoping.Bindings

namespace Lumen

/-! ## §1. What events are about -/

namespace Event

def isScope : Event → Bool
  | entered _ | left _ => true
  | _ => false

/-- The line of a statement that begins. -/
def statementLine? : Event → Option Nat
  | statement line _ => some line
  | _ => none

/-- The name of a function that is registered, and how many parameters it has. -/
def registration? : Event → Option (Bytes × Nat)
  | registered name arity => some (name, arity)
  | _ => none

end Event

/-- The name of a function that is defined, and how many parameters it has. -/
def Stmt.heading? : Stmt → Option (Bytes × Nat)
  | .fn _ name params _ => some (name, params.length)
  | _ => none

/-- Scopes are entered and left one at a time, from one depth to another.  What is reported is
    the new depth each time, and it is never below `floor`. -/
inductive Climbs (floor : Nat) : Nat → List Event → Nat → Prop where
  | stay (d : Nat) : Climbs floor d [] d
  | entered {d d' : Nat} {es : List Event} (h : Climbs floor (d + 1) es d') :
    Climbs floor d (.entered (d + 1) :: es) d'
  | left {d d' : Nat} {es : List Event} (hd : floor ≤ d) (h : Climbs floor d es d') :
    Climbs floor (d + 1) (.left d :: es) d'

theorem Climbs.append {floor d d' d'' : Nat} {es es' : List Event} (h : Climbs floor d es d')
    (h' : Climbs floor d' es' d'') : Climbs floor d (es ++ es') d'' := by
  induction h with
  | stay => exact h'
  | entered _ ih => exact .entered (ih h')
  | left hd _ ih => exact .left hd (ih h')

/-- What some events say of a program that was read from a depth. -/
structure Tallies (d : Nat) (p : Program) (es : List Event) : Prop where
  scopes : Climbs d d (es.filter Event.isScope) d
  statements : es.filterMap Event.statementLine? = p.map fun s => s.pos.line
  functions : es.filterMap Event.registration? = p.filterMap Stmt.heading?

/-! ## §2. Depths -/

/-- What is declared or assigned opens and closes no scope. -/
theorem Act.depth_of_quiet (act : Act) (hact : act.isQuiet = true) {a b : Env}
    (h : act.Turns a b) : b.depth = a.depth := by
  cases act with
  | declare name type value =>
    obtain ⟨-, rfl⟩ := Env.declare_eq_ok h
    exact ScopeStack.depth_define _ _ _
  | assign name value =>
    obtain ⟨pos, hassign⟩ := h
    obtain ⟨b, -, -, rfl⟩ := Env.assign_eq_ok hassign
    exact ScopeStack.depth_replaceNearest _ _ _
  | _ => cases hact

theorem Env.depth_pop {a b : Env} (h : a.pop = .ok b) : a.depth = b.depth + 1 := by
  obtain ⟨scopes, hpop, rfl⟩ := Env.pop_eq_ok h
  exact ScopeStack.depth_pop? hpop

/-- Nested acts end at the depth at which they have started, and note nothing but the way. -/
theorem Nested.climbs {floor : Nat} {acts : List Act} (h : Nested acts) {a b : Env}
    {es : List Event} (hrun : a.Runs acts es b) (hfloor : floor ≤ a.depth) :
    b.depth = a.depth ∧ Climbs floor a.depth es a.depth ∧ ∀ e ∈ es, e.isScope = true := by
  induction h generalizing a b es with
  | nil =>
    cases hrun
    exact ⟨rfl, .stay _, List.forall_mem_nil _⟩
  | @quiet act acts hact h ih =>
    cases hrun with
    | @cons _ b' _ _ _ es hturn hrest =>
      have hdepth := act.depth_of_quiet hact hturn
      have hevents : act.events b' = [] := by
        cases act with
        | declare | assign => rfl
        | _ => cases hact
      rw [← hdepth, hevents]
      exact ih hrest (by rwa [hdepth])
  | @scope inner acts hinner h ihinner ih =>
    cases hrun with
    | cons henter hrest =>
      obtain rfl : a.push = _ := henter
      have hpush : a.push.depth = a.depth + 1 := rfl
      -- what stands between entering and leaving comes back to the depth of the new scope
      obtain ⟨mid, first, second, hfirst, hsecond, rfl⟩ := hrest.split
      obtain ⟨hmid, hclimb, hscopes⟩ := ihinner hfirst (by omega)
      cases hsecond with
      | @cons _ outer _ _ _ es hleave hlast =>
        have hpop : mid.depth = outer.depth + 1 := Env.depth_pop hleave
        have houter : outer.depth = a.depth := by omega
        obtain ⟨hb, hclimb', hscopes'⟩ := ih hlast (by omega)
        rw [houter] at hb hclimb'
        refine ⟨hb, ?_, ?_⟩
        · show Climbs floor a.depth (.entered a.push.depth :: (first ++ .left outer.depth :: es)) _
          rw [hpush, houter]
          rw [hpush] at hclimb
          exact .entered (hclimb.append (.left hfloor hclimb'))
        · show ∀ e ∈ Event.entered a.push.depth :: (first ++ .left outer.depth :: es), _
          rw [List.forall_mem_cons, List.forall_mem_append, List.forall_mem_cons]
          exact ⟨rfl, hscopes, rfl, hscopes'⟩

/-! ## §3. Programs -/

/-- What a statement does when it is complete is noted if it registers a function. -/
theorem Stmt.events_enacts {s : Stmt} {a b : Env} {es : List Event} (h : a.Runs s.enacts es b) :
    b.depth = a.depth ∧ es = s.heading?.toList.map fun f => .registered f.1 f.2 := by
  cases s with
  | fn p name params body =>
    cases h with
    | cons hturn hrest =>
      cases hrest
      obtain ⟨pos, hregister⟩ := hturn
      obtain ⟨-, rfl⟩ := Env.register_eq_ok hregister
      exact ⟨rfl, rfl⟩
  | let_ p name type init =>
    cases h with
    | cons hturn hrest =>
      cases hrest
      exact ⟨Act.depth_of_quiet (.declare name type init.constant) rfl hturn, rfl⟩
  | _ =>
    cases h
    exact ⟨rfl, rfl⟩

/-- What is noted of a scope says nothing of statements and functions. -/
theorem Event.none_of_isScope {e : Event} (h : e.isScope = true) :
    e.statementLine? = none ∧ e.registration? = none := by
  cases e with
  | entered | left => exact ⟨rfl, rfl⟩
  | _ => cases h

theorem Event.filterMap_of_isScope {α : Type} {f : Event → Option α} {es : List Event}
    (hes : ∀ e ∈ es, e.isScope = true) (hf : ∀ e : Event, e.isScope = true → f e = none) :
    es.filterMap f = [] :=
  List.filterMap_eq_nil_iff.mpr fun e he => hf e (hes e he)

/-- A record in two parts, of a program in two parts. -/
theorem Tallies.append {d : Nat} {p q : Program} {es es' : List Event} (h : Tallies d p es)
    (h' : Tallies d q es') : Tallies d (p ++ q) (es ++ es') where
  scopes := by
    rw [List.filter_append]
    exact h.scopes.append h'.scopes
  statements := by rw [List.filterMap_append, h.statements, h'.statements, List.map_append]
  functions := by rw [List.filterMap_append, h.functions, h'.functions, List.filterMap_append]

/-- One statement: it begins, it makes its way through its blocks, and it takes effect. -/
theorem tallies_single {d : Nat} {s : Stmt} {first : Token} {es : List Event}
    (hfirst : first.pos = s.pos) (hclimbs : Climbs d d es d) (hes : ∀ e ∈ es, e.isScope = true) :
    Tallies d [s] (.statement first.pos.line first.lexeme
      :: (es ++ s.heading?.toList.map fun f => .registered f.1 f.2)) where
  scopes := by
    have hself : es.filter Event.isScope = es := List.filter_eq_self.mpr hes
    have hnone : (s.heading?.toList.map fun f => Event.registered f.1 f.2).filter Event.isScope
        = [] := by cases s.heading? <;> rfl
    rw [List.filter_cons_of_neg (by simp [Event.isScope]), List.filter_append, hself, hnone,
      List.append_nil]
    exact hclimbs
  statements := by
    have hline : es.filterMap Event.statementLine? = [] :=
      Event.filterMap_of_isScope hes fun _ he => (Event.none_of_isScope he).1
    have hnone : (s.heading?.toList.map fun f => Event.registered f.1 f.2).filterMap
        Event.statementLine? = [] := by cases s.heading? <;> rfl
    rw [List.filterMap_cons_some (f := Event.statementLine?) rfl, List.filterMap_append, hline,
      hnone, hfirst]
    rfl
  functions := by
    have hname : es.filterMap Event.registration? = [] :=
      Event.filterMap_of_isScope hes fun _ he => (Event.none_of_isScope he).2
    have hself : (s.heading?.toList.map fun f => Event.registered f.1 f.2).filterMap
        Event.registration? = [s].filterMap Stmt.heading? := by
      rw [List.filterMap_cons]
      cases s.heading? <;> rfl
    rw [List.filterMap_cons_none rfl, List.filterMap_append, hname, hself]
    rfl

/-- The acts of a program note the way through its scopes, a line for each statement and a
    name for each function. -/
theorem Tells.tallies {o : Options} (ho : o.checked = true) {p : Program} {acts : List Act}
    (h : Tells o p acts) {a b : Env} {es : List Event} (hrun : a.Runs acts es b) :
    b.depth = a.depth ∧ Tallies a.depth p es := by
  induction h generalizing a b es with
  | nil =>
    cases hrun
    exact ⟨rfl, .stay _, rfl, rfl⟩
  | @cons s p first inner acts hfirst hinner hrest ih =>
    rw [if_pos ho] at hrun
    -- the record falls into the beginning, the way through the blocks, the effect and the rest
    cases hrun with
    | cons hbegin hwhole =>
      obtain rfl : a = _ := hbegin
      obtain ⟨mid, es₁, more, hrun₁, hmore, rfl⟩ := hwhole.split
      obtain ⟨mid', es₂, es₃, hrun₂, hrun₃, rfl⟩ := hmore.split
      obtain ⟨hmid, hclimbs, hscopes⟩ := hinner.climbs hrun₁ (Nat.le_refl _)
      obtain ⟨hmid', rfl⟩ := Stmt.events_enacts hrun₂
      obtain ⟨hb, hrest⟩ := ih hrun₃
      rw [hmid', hmid] at hb hrest
      refine ⟨hb, ?_⟩
      show Tallies a.depth ([s] ++ p)
        (.statement first.pos.line first.lexeme :: (es₁ ++ (_ ++ es₃)))
      rw [← List.append_assoc, ← List.cons_append]
      exact (tallies_single hfirst hclimbs hscopes).append hrest

namespace Parse

/-! ## §4. Tracing -/

/-- The same environment, in which as many scopes can be left as have been entered. -/
def SameWithin (n : Nat) (a b : Env) : Prop := a = b ∧ n ≤ a.scopes.inner.length

/-- A change that both have made, and that has opened and closed no scope. -/
theorem SameWithin.change {n : Nat} {a b a' b' : Env} (h : SameWithin n a b)
    (hdepth : a'.depth = a.depth) (hsame : a' = b') : SameWithin n a' b' := by
  have hlength : a'.scopes.inner.length + 1 = a.scopes.inner.length + 1 := hdepth
  refine ⟨hsame, ?_⟩
  rw [Nat.succ.inj hlength]
  exact h.2

theorem sameWithin_paired : Paired SameWithin where
  agrees := by
    rintro n a b ⟨rfl, -⟩
    exact ⟨rfl, rfl⟩
  push := by
    rintro n a b ⟨rfl, hn⟩
    exact ⟨rfl, Nat.succ_le_succ hn⟩
  pop := by
    rintro n ⟨⟨inner, global⟩, functions⟩ b ⟨rfl, hn⟩
    cases inner with
    -- a scope has been entered, so there is one to leave
    | nil => cases hn
    | cons scope outer => exact ⟨_, _, rfl, rfl, rfl, Nat.le_of_succ_le_succ hn⟩
  declare := by
    intro n a b a' b' name type value h ha hb
    rw [← h.1] at hb
    exact h.change (Act.depth_of_quiet (.declare name type value) rfl ha)
      (Except.ok.inj (ha.symm.trans hb))
  assign := by
    intro n a b a' b' name value pos h ha hb
    rw [← h.1] at hb
    exact h.change (Act.depth_of_quiet (.assign name value) rfl ⟨pos, ha⟩)
      (Except.ok.inj (ha.symm.trans hb))
  register := by
    intro n a b a' b' f pos h ha hb
    rw [← h.1] at hb
    have hdepth : a'.depth = a.depth := by
      obtain ⟨-, rfl⟩ := Env.register_eq_ok ha
      rfl
    exact h.change hdepth (Except.ok.inj (ha.symm.trans hb))

/-- Runs that differ in tracing only end alike in the same environment. -/
theorem Pairs.same {α : Type} {m m' : ParseM α} (h : Pairs SameWithin 0 0 m m') (s : State) :
    EndAlike (· = ·) (· = ·) (m s) (m' s) := by
  apply (h s s rfl ⟨rfl, Nat.zero_le _⟩).weaken
  · exact fun _ _ hsame => hsame.1
  · rintro _ _ ⟨_, hsame⟩
    exact hsame.1

/-- Any reading does for acts that nothing has to be known of. -/
theorem admits_any : Admits (fun _ => True) fun _ => True := by
  have hsupplies : Supplies (fun _ => True) (fun _ => True) AnyError :=
    ⟨fun _ _ _ => trivial, fun _ _ => trivial, fun _ => trivial, fun _ _ _ _ => trivial⟩
  exact ⟨hsupplies, fun n c hc =>
    (expr_draws hsupplies n c hc).weaken fun _ _ hd => ⟨trivial, hd.2⟩⟩

/-- **Tracing is an observer with a faithful record.**

    Whatever is read, from any state, checked or not: with tracing and without, the same is
    given or the same failure found, at the same place and in the same environment.

    And where a checked and traced parse gives a program, it has added some events to the
    record.  Those of scopes lead from the depth at which the parse has started back to it,
    by one at a time and never below; there is one event for each statement of the program,
    with its line, and one for each function, with its name and how many parameters it has,
    in the order of the program.  The last event counts the statements of the program, and
    the functions that are known then. -/
theorem tracing_observes :
    (∀ (op : Operation) (checked : Bool) (s : State),
      EndAlike (· = ·) (· = ·) (op.read ⟨checked, true⟩ s) (op.read ⟨checked, false⟩ s))
    ∧ ∀ (s t : State) (p : Program), program ⟨true, true⟩ s = .ok p t →
      t.env.depth = s.env.depth ∧ ∃ es, t.trace.toList = s.trace.toList ++ es
        ∧ Tallies s.env.depth p es
        ∧ es.getLast? = some (.parsed p.length t.env.functions.length) := by
  constructor
  · intro op checked s
    have hsame : (Options.mk checked true).checked = (Options.mk checked false).checked := rfl
    have hpaired : (Options.mk checked true).checked = true → Paired SameWithin :=
      fun _ => sameWithin_paired
    cases op with
    | program => exact (program_pairs hsame hpaired).same s
    | statement => exact (statement_pairs hsame hpaired).same s
    | statements => exact (statements_pairs hsame hpaired).same s
    | expression => exact expression_pairs.same s
    | typeName => exact typeName_pairs.same s
  · intro s t p hrun
    have hsteps : Operation.inSteps ⟨true, true⟩ .program (s.cursor.weight + 1) s = .ok p t :=
      (Operation.inSteps_eq _ .program s (Nat.lt_succ_self _)).trans hrun
    obtain ⟨-, _, ⟨⟨es, hruns, htrace⟩, -⟩, told, htold, rfl⟩ :=
      (program_performs admits_any _ s trivial).of_ok hsteps
    -- the last act finishes the parse, and those before it are the program's
    obtain ⟨b, first, last, hfirst, hlast, rfl⟩ := hruns.split
    obtain ⟨hb, htallies⟩ := htold.tallies rfl hfirst
    cases hlast with
    | cons hfinish hnone =>
      cases hnone
      obtain rfl : b = _ := hfinish
      have hcount : Tallies s.env.depth [] [.parsed p.length t.env.functions.length] :=
        ⟨.stay _, rfl, rfl⟩
      have hwhole := htallies.append hcount
      rw [List.append_nil] at hwhole
      exact ⟨hb, first ++ [.parsed p.length t.env.functions.length], htrace, hwhole,
        List.getLast?_concat ..⟩

/-- `fn f(a: int) if true end end` and, on the next line, `let b: int = 1`. -/
def twoBlocks : List Token :=
  [⟨.word .fn, ⟨0, 1, 1⟩⟩, ⟨.ident [102], ⟨3, 1, 4⟩⟩, ⟨.mark .lparen, ⟨4, 1, 5⟩⟩,
    ⟨.ident [97], ⟨5, 1, 6⟩⟩, ⟨.mark .colon, ⟨6, 1, 7⟩⟩, ⟨.word .int, ⟨8, 1, 9⟩⟩,
    ⟨.mark .rparen, ⟨11, 1, 12⟩⟩, ⟨.word .if_, ⟨13, 1, 14⟩⟩, ⟨.literal (.bool true), ⟨16, 1, 17⟩⟩,
    ⟨.word .end_, ⟨21, 1, 22⟩⟩, ⟨.word .end_, ⟨25, 1, 26⟩⟩, ⟨.word .let_, ⟨29, 2, 1⟩⟩,
    ⟨.ident [98], ⟨33, 2, 5⟩⟩, ⟨.mark .colon, ⟨34, 2, 6⟩⟩, ⟨.word .int, ⟨36, 2, 8⟩⟩,
    ⟨.mark .equal, ⟨40, 2, 12⟩⟩, ⟨.literal (.int 1), ⟨42, 2, 14⟩⟩, ⟨.eof, ⟨43, 2, 15⟩⟩]

/-- The scopes go up to the third and back, and two statements and one function are noted. -/
theorem tracing_observes_blocks :
    let es : List Event :=
      [.statement 1 (.word .fn), .entered 2, .entered 3, .left 2, .left 1, .registered [102] 1,
        .statement 2 (.word .let_), .parsed 2 1]
    ∃ p t, whole ⟨true, true⟩ twoBlocks = .ok p t ∧ p.length = 2 ∧ t.env.depth = 1
      ∧ t.trace.toList = es ∧ Tallies 1 p es
      ∧ es.getLast? = some (.parsed p.length t.env.functions.length) := by
  intro es
  obtain ⟨p, t, hrun, hlength, hes⟩ : ∃ p t, whole ⟨true, true⟩ twoBlocks = .ok p t
      ∧ p.length = 2 ∧ t.trace.toList = es :=
    Ends.exists_ok (by decide +kernel)
  obtain ⟨hdepth, noted, htrace, htallies, hlast⟩ :=
    tracing_observes.2 { cursor := .ofTokens twoBlocks } t p hrun
  -- nothing was noted before the run
  obtain rfl : noted = es := htrace.symm.trans hes
  exact ⟨p, t, hrun, hlength, hdepth, hes, htallies, hlast⟩

end Parse
end Lumen
