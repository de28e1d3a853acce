/-
  Lumen.Proofs.Scoping.Replay — stacks of scopes and the steps that led to them.

  A stack that steps were performed on, one after the other, holds what these steps
  say.  By induction on the steps, the last one first: what the last step does to the
  stack is what it adds to the history.  So a stack is a lexical environment: a name
  means the innermost scope that has it, and a block leaves nothing of its own behind.

  Main statements:
    * `run_append_single` — a run goes on from the stack that it has led to;
    * `Follows.append_single` — one more step, on the stack and in the history;
    * `Follows.failure_iff` — a step fails just when the steps before it say so;
    * `IsBlock.at?_after` — what entering and leaving a scope leaves behind;
    * `scopes_follow_history` — look-ups, changes, blocks and failures together.
-/
import Lumen.Proofs.Scoping.Bindings
import Lumen.Proofs.Scoping.History

namespace Lumen.ScopeStack

/-! ## §1. Scopes by the number of scopes below them -/

section
variable (s : ScopeStack) (l : Nat) (name other : Bytes)

/-- The binding of a name in the scope that lies over `l` others. -/
def at? : Option Binding := if l < s.depth then s.binding? (s.depth - 1 - l) name else none

variable {s l}

theorem at?_of_lt (h : l < s.depth) : s.at? l name = s.binding? (s.depth - 1 - l) name := if_pos h

theorem at?_of_le (h : s.depth ≤ l) : s.at? l name = none := if_neg (by omega)

/-- Beyond the global scope there is nothing. -/
theorem binding?_of_le {i : Nat} (h : s.depth ≤ i) : s.binding? i name = none := by
  unfold binding?
  rw [List.getElem?_eq_none]
  · rfl
  · rw [scopes, List.length_append]
    exact h

/-- The scope `i` scopes out, counted from below. -/
theorem binding?_eq_at? {i : Nat} (h : i < s.depth) :
    s.binding? i name = s.at? (s.depth - 1 - i) name := by
  rw [at?_of_lt name (by omega)]
  congr 1
  omega

theorem at?_push : s.push.at? l name = s.at? l name := by
  obtain hlt | heq | hgt := Nat.lt_trichotomy l s.depth
  · have hindex : s.push.depth - 1 - l = (s.depth - 1 - l) + 1 := by
      rw [depth_push]
      omega
    rw [at?_of_lt name (by rw [depth_push]; omega), hindex, binding?_push_succ, at?_of_lt name hlt]
  · subst heq
    have hindex : s.push.depth - 1 - s.depth = 0 := by
      rw [depth_push]
      omega
    rw [at?_of_lt name (by rw [depth_push]; omega), hindex, binding?_push_zero,
      at?_of_le name (Nat.le_refl _)]
  · rw [at?_of_le name (by rw [depth_push]; omega), at?_of_le name (Nat.le_of_lt hgt)]

theorem at?_pop? {t : ScopeStack} (h : s.pop? = some t) :
    t.at? l name = if l < t.depth then s.at? l name else none := by
  have hdepth := depth_pop? h
  split
  · next hlt =>
    have hindex : s.depth - 1 - l = (t.depth - 1 - l) + 1 := by omega
    rw [at?_of_lt name hlt, at?_of_lt name (by omega), binding?_pop? h, hindex]
  · next hle => exact at?_of_le name (by omega)

/-- A definition changes one binding of the innermost scope. -/
theorem at?_define (b : Binding) :
    (s.define name b).at? l other
      = if l + 1 = s.depth ∧ other = name then some b else s.at? l other := by
  by_cases hlt : l < s.depth
  · have hzero : s.depth - 1 - l = 0 ↔ l + 1 = s.depth := by omega
    rw [at?_of_lt other (by rwa [depth_define]), binding?_define, depth_define,
      at?_of_lt other hlt]
    simp only [hzero]
  · have hno : ¬ (l + 1 = s.depth ∧ other = name) := by omega
    rw [if_neg hno, at?_of_le other (by rw [depth_define]; omega), at?_of_le other (by omega)]

/-- The scopes above another one are those that lie further in. -/
theorem nearest_iff_at? {i : Nat} (h : i < s.depth) :
    s.Nearest name i ↔ (s.at? (s.depth - 1 - i) name).isSome = true
      ∧ ∀ l, s.depth - 1 - i < l → s.at? l name = none := by
  unfold Nearest
  rw [binding?_eq_at? name h]
  refine and_congr_right fun _ => ?_
  constructor
  · intro hnone l hl
    by_cases hlt : l < s.depth
    · rw [at?_of_lt name hlt]
      exact hnone _ (by omega)
    · exact at?_of_le name (by omega)
  · intro hnone j hj
    rw [binding?_eq_at? name (by omega)]
    exact hnone _ (by omega)

variable {name}

theorem lookup?_eq_some_iff_at? {b : Binding} :
    s.lookup? name = some b
      ↔ ∃ l, s.at? l name = some b ∧ ∀ l', l < l' → s.at? l' name = none := by
  rw [lookup?_eq_some_iff]
  constructor
  · rintro ⟨i, hnear, hb⟩
    have hlt : i < s.depth := by
      apply Nat.lt_of_not_le
      intro hle
      rw [binding?_of_le name hle] at hb
      cases hb
    refine ⟨_, ?_, ((nearest_iff_at? name hlt).mp hnear).2⟩
    rwa [← binding?_eq_at? name hlt]
  · rintro ⟨l, hb, hnone⟩
    have hlt : l < s.depth := by
      apply Nat.lt_of_not_le
      intro hle
      rw [at?_of_le name hle] at hb
      cases hb
    -- counted from the outside and then from the inside, it is the same scope
    have hback : s.depth - 1 - (s.depth - 1 - l) = l := by omega
    refine ⟨s.depth - 1 - l, (nearest_iff_at? name (by omega)).mpr ?_, ?_⟩
    · rw [hback, hb]
      exact ⟨rfl, hnone⟩
    · rwa [← at?_of_lt name hlt]

/-- An assignment changes one binding of the innermost scope that has the name. -/
theorem at?_replaceNearest {l : Nat} {c : Binding} (hc : s.at? l name = some c)
    (hnone : ∀ l', l < l' → s.at? l' name = none) (b : Binding) (l' : Nat) (other : Bytes) :
    (s.replaceNearest name b).at? l' other
      = if l' = l ∧ other = name then some b else s.at? l' other := by
  have hlt : l < s.depth := by
    apply Nat.lt_of_not_le
    intro hle
    rw [at?_of_le name hle] at hc
    cases hc
  have hnear : s.Nearest name (s.depth - 1 - l) := by
    have hback : s.depth - 1 - (s.depth - 1 - l) = l := by omega
    rw [nearest_iff_at? name (by omega), hback, hc]
    exact ⟨rfl, hnone⟩
  by_cases hlt' : l' < s.depth
  · have hsame : s.depth - 1 - l' = s.depth - 1 - l ↔ l' = l := by omega
    rw [at?_of_lt other (by rwa [depth_replaceNearest]), binding?_replaceNearest hnear,
      depth_replaceNearest, at?_of_lt other hlt']
    simp only [hsame]
  · have hno : ¬ (l' = l ∧ other = name) := by omega
    rw [if_neg hno, at?_of_le other (by rw [depth_replaceNearest]; omega),
      at?_of_le other (by omega)]

end

/-! ## §2. Runs -/

/-- What a step shows. -/
def outcome (s : ScopeStack) (step : Step) : Outcome :=
  match s.perform step with
  | .ok t => ⟨none, t⟩
  | .error e => ⟨some e, s⟩

theorem run_cons (s : ScopeStack) (step : Step) (steps : List Step) :
    s.run (step :: steps) = s.outcome step :: (s.outcome step).stack.run steps := by
  rw [run, outcome]
  cases s.perform step <;> rfl

/-- The stack that some steps lead to. -/
def after (steps : List Step) : ScopeStack :=
  ((empty.run steps).getLast?.map Outcome.stack).getD empty

/-- A run goes on from the stack that it has led to. -/
theorem run_append (s : ScopeStack) (steps more : List Step) :
    s.run (steps ++ more)
      = s.run steps ++ (((s.run steps).getLast?.map Outcome.stack).getD s).run more := by
  induction steps generalizing s with
  | nil => rfl
  | cons step steps ih =>
    rw [List.cons_append, run_cons, run_cons, ih, List.cons_append, List.getLast?_cons]
    cases ((s.outcome step).stack.run steps).getLast? <;> rfl

theorem run_append_single (steps : List Step) (step : Step) :
    empty.run (steps ++ [step]) = empty.run steps ++ [(after steps).outcome step] := by
  rw [run_append, run_cons]
  rfl

@[simp] theorem after_nil : after [] = empty := rfl

@[simp] theorem after_append_single (steps : List Step) (step : Step) :
    after (steps ++ [step]) = ((after steps).outcome step).stack := by
  rw [after, run_append_single, List.getLast?_concat]
  rfl

theorem length_run (steps : List Step) : (empty.run steps).length = steps.length := by
  induction steps using List.reverseRecOn with
  | nil => rfl
  | append_singleton steps step ih =>
    rw [run_append_single, List.length_append, List.length_append, ih]
    rfl

/-- What a run has shown at a step is what that step shows after those before it. -/
theorem getElem?_run {steps : List Step} {k : Nat} {step : Step} (h : steps[k]? = some step) :
    (empty.run steps)[k]? = some ((after (steps.take k)).outcome step) := by
  induction steps using List.reverseRecOn with
  | nil => cases h
  | append_singleton steps last ih =>
    rw [run_append_single]
    -- an earlier step shows what it did before; the last one is run after all the others
    by_cases hk : k < steps.length
    · rw [List.getElem?_append_left hk] at h
      rw [List.getElem?_append_left (by rwa [length_run]), ih h,
        List.take_append_of_le_length (Nat.le_of_lt hk)]
    · have hle : k ≤ steps.length := by
        have hlt := (List.getElem?_eq_some_iff.mp h).1
        rw [List.length_append, List.length_singleton] at hlt
        omega
      obtain rfl : k = steps.length := by omega
      rw [List.getElem?_concat_length] at h
      obtain rfl := Option.some.inj h
      rw [List.take_left, ← length_run steps, List.getElem?_concat_length]

/-! ## §3. Outcomes of steps -/

section
variable {s : ScopeStack} {name : Bytes} {v : Value} {pos : Option Pos} {b : Binding}

theorem outcome_pop {t : ScopeStack} (h : s.pop? = some t) : s.outcome .pop = ⟨none, t⟩ := by
  simp [outcome, perform, h]

theorem outcome_pop_global (h : s.pop? = none) : s.outcome .pop = ⟨some .globalScope, s⟩ := by
  simp [outcome, perform, h]

theorem outcome_assign_unbound (h : s.lookup? name = none) :
    s.outcome (.assign name v pos) = ⟨some (.error (.refused name .unbound pos)), s⟩ := by
  simp [outcome, perform, assign, h, Except.mapError]

theorem outcome_assign_misfit (h : s.lookup? name = some b) {m : Value.Misfit}
    (hm : v.misfit? b.type = some m) :
    s.outcome (.assign name v pos)
      = ⟨some (.error (.refused name (.misfit b.type m.value) pos)), s⟩ := by
  simp [outcome, perform, assign, h, hm, Except.mapError]

theorem outcome_assign_fits (h : s.lookup? name = some b) (hv : v.misfit? b.type = none) :
    s.outcome (.assign name v pos) = ⟨none, s.replaceNearest name ⟨b.type, v⟩⟩ := by
  simp [outcome, perform, assign, h, hv, Except.mapError]

theorem pop?_eq_none_iff : s.pop? = none ↔ s.depth = 1 := by
  constructor
  · intro hnone
    have hpos := s.depth_pos
    have hle : ¬ 1 < s.depth := by
      intro hlt
      obtain ⟨t, ht⟩ := exists_pop? hlt
      rw [hnone] at ht
      cases ht
    omega
  · intro hone
    cases hpop : s.pop? with
    | none => rfl
    | some t =>
      have hdepth := depth_pop? hpop
      have hpos := t.depth_pos
      omega

/-- A step that fails leaves the stack as it was. -/
theorem outcome_of_failure {step : Step} {e : Failure} (h : (s.outcome step).failure = some e) :
    (s.outcome step).stack = s := by
  unfold outcome at h ⊢
  cases hperform : s.perform step with
  | ok t =>
    rw [hperform] at h
    cases h
  | error e' => rfl

theorem depth_outcome (s : ScopeStack) (step : Step) :
    (s.outcome step).stack.depth = step.depthAfter s.depth := by
  cases step with
  | push | lookup name => rfl
  | define name b => exact depth_define s name b
  | pop =>
    show _ = if 1 < s.depth then s.depth - 1 else s.depth
    cases hpop : s.pop? with
    | none =>
      have hone := pop?_eq_none_iff.mp hpop
      rw [outcome_pop_global hpop, if_neg (by omega)]
    | some t =>
      have hdepth := depth_pop? hpop
      have hpos := t.depth_pos
      rw [outcome_pop hpop, if_pos (by omega), hdepth]
      rfl
  | assign name v pos =>
    cases hlookup : s.lookup? name with
    | none =>
      rw [outcome_assign_unbound hlookup]
      rfl
    | some b =>
      cases hfit : v.misfit? b.type with
      | none =>
        rw [outcome_assign_fits hlookup hfit]
        exact depth_replaceNearest s name _
      | some m =>
        rw [outcome_assign_misfit hlookup hfit]
        rfl

theorem depth_after (steps : List Step) : (after steps).depth = depthOf steps := by
  induction steps using List.reverseRecOn with
  | nil => rfl
  | append_singleton steps step ih =>
    rw [after_append_single, depth_outcome, ih, depthOf_append_single]

end

/-! ## §4. Stacks and histories -/

/-- A stack holds what the steps say. -/
structure Follows (steps : List Step) (s : ScopeStack) : Prop where
  depth : s.depth = depthOf steps
  at?_iff : ∀ l name b, s.at? l name = some b ↔ Holds steps l name b

section
variable {steps : List Step} {s : ScopeStack} {name : Bytes}

theorem Follows.at?_eq_none_iff (h : Follows steps s) {l : Nat} :
    s.at? l name = none ↔ ∀ b, ¬ Holds steps l name b := by
  simp only [Option.eq_none_iff_forall_ne_some, ne_eq, h.at?_iff l name]

theorem Follows.lookup?_eq_some_iff (h : Follows steps s) {b : Binding} :
    s.lookup? name = some b ↔ ∃ l, Means steps name l ∧ Holds steps l name b := by
  rw [lookup?_eq_some_iff_at?]
  constructor
  · rintro ⟨l, hb, hnone⟩
    have hholds := (h.at?_iff l name b).mp hb
    refine ⟨l, means_iff.mpr ⟨⟨b, hholds⟩, ?_⟩, hholds⟩
    exact fun l' hl' => h.at?_eq_none_iff.mp (hnone l' hl')
  · rintro ⟨l, hmeans, hholds⟩
    refine ⟨l, (h.at?_iff l name b).mpr hholds, ?_⟩
    exact fun l' hl' => h.at?_eq_none_iff.mpr ((means_iff.mp hmeans).2 l' hl')

theorem Follows.lookup?_eq_none_iff (h : Follows steps s) :
    s.lookup? name = none ↔ ∀ k l b, ¬ Defines steps k l name b := by
  constructor
  · intro hnone k l b hdefines
    -- a definition in a scope that lives would be found
    obtain ⟨c, hc⟩ := exists_holds_iff.mpr ⟨k, b, hdefines⟩
    have hbound : s.binding? (s.depth - 1 - l) name = some c := by
      rw [← at?_of_lt name (by rw [h.depth]; exact hdefines.lt_depth)]
      exact (h.at?_iff l name c).mpr hc
    have hsome : (s.lookup? name).isSome = true :=
      isSome_lookup?_iff.mpr ⟨_, by rw [hbound]; rfl⟩
    rw [hnone] at hsome
    cases hsome
  · intro hnone
    cases hlookup : s.lookup? name with
    | none => rfl
    | some b =>
      obtain ⟨l, hmeans, -⟩ := h.lookup?_eq_some_iff.mp hlookup
      obtain ⟨k, c, hdefines⟩ := hmeans.defined
      exact absurd hdefines (hnone k l c)

theorem Means.unique {l l' : Nat} (h : Means steps name l) (h' : Means steps name l') : l = l' := by
  obtain ⟨k, b, hdefines⟩ := h.defined
  obtain ⟨k', b', hdefines'⟩ := h'.defined
  exact Nat.le_antisymm (h'.innermost k l b hdefines) (h.innermost k' l' b' hdefines')

/-- A fitting assignment puts its value where the name means it. -/
theorem Follows.at?_assign (h : Follows steps s) {l : Nat} {b : Binding}
    (hmeans : Means steps name l) (hb : Holds steps l name b) (v : Value) (l' : Nat)
    (other : Bytes) :
    (s.replaceNearest name ⟨b.type, v⟩).at? l' other
      = if l' = l ∧ other = name then some ⟨b.type, v⟩ else s.at? l' other := by
  apply at?_replaceNearest ((h.at?_iff l name b).mpr hb)
  exact fun l' hl' => h.at?_eq_none_iff.mpr ((means_iff.mp hmeans).2 l' hl')

/-- Where a step writes nothing and closes no scope, the stack holds what it held. -/
theorem Follows.at?_of_quiet (h : Follows steps s) {step : Step} {l : Nat} {other : Bytes}
    (hquiet : ∀ v, ¬ Writes steps step l other v)
    (hdepth : depthOf steps ≤ step.depthAfter (depthOf steps)) (b : Binding) :
    s.at? l other = some b ↔ Holds (steps ++ [step]) l other b := by
  rw [← depthOf_append_single] at hdepth
  rw [holds_of_quiet hquiet hdepth]
  exact h.at?_iff l other b

theorem Follows.at?_pop_iff (h : Follows steps s) (l : Nat) (other : Bytes) (b : Binding) :
    (s.outcome .pop).stack.at? l other = some b ↔ Holds (steps ++ [.pop]) l other b := by
  have hquiet : ∀ v, ¬ Writes steps .pop l other v := fun v hv => by cases hv
  have hdepth := depth_outcome s .pop
  rw [h.depth, ← depthOf_append_single] at hdepth
  rw [holds_append_single hquiet, ← hdepth, ← h.at?_iff l other b]
  -- at the global scope nothing is left; otherwise the innermost scope is gone
  cases hpop : s.pop? with
  | none =>
    rw [outcome_pop_global hpop]
    refine (and_iff_left_of_imp fun hb => ?_).symm
    rw [h.depth]
    exact ((h.at?_iff l other b).mp hb).lt_depth
  | some t =>
    rw [outcome_pop hpop]
    show t.at? l other = some b ↔ _ ∧ l < t.depth
    rw [at?_pop? other hpop]
    split
    · next hlt => exact (and_iff_left hlt).symm
    · next hle => simp [hle]

theorem Follows.at?_define_iff (h : Follows steps s) (name : Bytes) (c : Binding) (l : Nat)
    (other : Bytes) (b : Binding) :
    (s.define name c).at? l other = some b ↔ Holds (steps ++ [.define name c]) l other b := by
  rw [at?_define, h.depth]
  split
  · next hhere =>
    obtain ⟨hinner, rfl⟩ := hhere
    rw [holds_define hinner.symm, Option.some.injEq]
    exact eq_comm
  · next hhere =>
    refine h.at?_of_quiet ?_ (Nat.le_refl _) b
    intro v hv
    cases hv with
    | define hinner => exact hhere ⟨hinner.symm, rfl⟩

/-- An assignment writes only if the name has a binding and the value fits it. -/
theorem Follows.at?_assign_iff (h : Follows steps s) (name : Bytes) (v : Value)
    (pos : Option Pos) (l : Nat) (other : Bytes) (b : Binding) :
    (s.outcome (.assign name v pos)).stack.at? l other = some b
      ↔ Holds (steps ++ [.assign name v pos]) l other b := by
  have hsame : depthOf steps ≤ (Step.assign name v pos).depthAfter (depthOf steps) :=
    Nat.le_refl _
  -- what is refused writes nothing, and so the stack stays as it was
  cases hlookup : s.lookup? name with
  | none =>
    rw [outcome_assign_unbound hlookup]
    refine h.at?_of_quiet ?_ hsame b
    intro w hw
    cases hw with
    | assign hmeans htype hv =>
      obtain ⟨k, c, hdefines⟩ := hmeans.defined
      exact h.lookup?_eq_none_iff.mp hlookup k l c hdefines
  | some c =>
    obtain ⟨i, hmeans, hc⟩ := h.lookup?_eq_some_iff.mp hlookup
    cases hfit : v.misfit? c.type with
    | none =>
      rw [outcome_assign_fits hlookup hfit]
      show (s.replaceNearest name ⟨c.type, v⟩).at? l other = some b ↔ _
      rw [h.at?_assign hmeans hc]
      split
      · next hhere =>
        obtain ⟨rfl, rfl⟩ := hhere
        rw [holds_assign hmeans hc hfit, Option.some.injEq]
        exact eq_comm
      · next hhere =>
        refine h.at?_of_quiet ?_ hsame b
        intro w hw
        cases hw with
        | assign hmeans' htype hv => exact hhere ⟨hmeans'.unique hmeans, rfl⟩
    | some m =>
      rw [outcome_assign_misfit hlookup hfit]
      refine h.at?_of_quiet ?_ hsame b
      intro w hw
      cases hw with
      | assign hmeans' htype hv =>
        obtain rfl := hmeans'.unique hmeans
        rw [htype.unique hc.type, hfit] at hv
        cases hv

/-- A step leads from a stack that the steps before it tell to one that they and it
    tell. -/
theorem Follows.append_single (h : Follows steps s) (step : Step) :
    Follows (steps ++ [step]) (s.outcome step).stack where
  depth := by rw [depth_outcome, h.depth, depthOf_append_single]
  at?_iff := by
    intro l other b
    cases step with
    | push =>
      show s.push.at? l other = some b ↔ _
      rw [at?_push]
      exact h.at?_of_quiet (fun v hv => by cases hv) (Nat.le_succ _) b
    | pop => exact h.at?_pop_iff l other b
    | define name c => exact h.at?_define_iff name c l other b
    | assign name v pos => exact h.at?_assign_iff name v pos l other b
    | lookup name => exact h.at?_of_quiet (fun v hv => by cases hv) (Nat.le_refl _) b

theorem at?_empty (l : Nat) (name : Bytes) : empty.at? l name = none := by
  unfold at?
  split
  · next hlt =>
    obtain rfl : l = 0 := Nat.lt_one_iff.mp hlt
    rfl
  · rfl

/-- A stack follows the steps that were performed on it. -/
theorem follows_after (steps : List Step) : Follows steps (after steps) := by
  induction steps using List.reverseRecOn with
  | nil =>
    refine ⟨rfl, fun l name b => ?_⟩
    rw [after_nil, at?_empty]
    constructor
    · intro h
      cases h
    · rintro ⟨⟨k, ⟨v, hdefines⟩, -⟩, -⟩
      exact absurd hdefines.lt_length (Nat.not_lt_zero k)
  | append_singleton steps step ih =>
    rw [after_append_single]
    exact ih.append_single step

/-- A step fails just when the steps before it say so. -/
theorem Follows.failure_iff (h : Follows steps s) (step : Step) :
    (s.outcome step).failure.isSome = true ↔ Fails steps step := by
  -- only leaving a scope and assigning to a name can fail
  cases step with
  | push | define name b | lookup name =>
    constructor
    · intro hfail
      cases hfail
    · intro hfail
      cases hfail
  | pop =>
    cases hpop : s.pop? with
    | none =>
      have hone := pop?_eq_none_iff.mp hpop
      rw [h.depth] at hone
      rw [outcome_pop_global hpop]
      exact iff_of_true rfl (.global hone)
    | some t =>
      rw [outcome_pop hpop]
      apply iff_of_false
      · exact Bool.false_ne_true
      · intro hfail
        cases hfail with
        | global hone =>
          rw [← h.depth, ← pop?_eq_none_iff, hpop] at hone
          cases hone
  | assign name v pos =>
    cases hlookup : s.lookup? name with
    | none =>
      rw [outcome_assign_unbound hlookup]
      exact iff_of_true rfl (.unbound (h.lookup?_eq_none_iff.mp hlookup))
    | some b =>
      obtain ⟨l, hmeans, hb⟩ := h.lookup?_eq_some_iff.mp hlookup
      cases hfit : v.misfit? b.type with
      | none =>
        rw [outcome_assign_fits hlookup hfit]
        apply iff_of_false
        · exact Bool.false_ne_true
        · intro hfail
          cases hfail with
          | unbound hnone =>
            obtain ⟨k, c, hdefines⟩ := hmeans.defined
            exact hnone k l c hdefines
          | misfit hmeans' htype hv =>
            obtain rfl := hmeans'.unique hmeans
            rw [htype.unique hb.type] at hv
            exact hv hfit
      | some m =>
        rw [outcome_assign_misfit hlookup hfit]
        refine iff_of_true rfl (.misfit hmeans hb.type ?_)
        rw [hfit]
        exact Option.some_ne_none m

end

/-! ## §5. Blocks -/

/-- A block leaves all scopes around it with the names and the types that they had,
    and with other values only where it assigned them. -/
theorem IsBlock.at?_after {front inside : List Step} (h : IsBlock front inside) {l : Nat}
    {name : Bytes} (hl : l < ScopeStack.depthOf front) :
    AfterBlock front (block front inside) l name ((after front).at? l name)
      ((after (block front inside)).at? l name) := by
  have hfront := follows_after front
  have hwhole := follows_after (block front inside)
  have hsame : (∃ c, Holds (block front inside) l name c) ↔ ∃ b, Holds front l name b := by
    rw [exists_holds_iff, exists_holds_iff]
    simp only [h.defines_iff hl]
  cases hb : (after front).at? l name with
  | none =>
    have hnone := hfront.at?_eq_none_iff.mp hb
    have hnone' : ∀ c, ¬ Holds (block front inside) l name c := by
      intro c hc
      obtain ⟨b, hb⟩ := hsame.mp ⟨c, hc⟩
      exact hnone b hb
    rw [hwhole.at?_eq_none_iff.mpr hnone']
    exact .unbound
  | some b =>
    have hholds := (hfront.at?_iff l name b).mp hb
    obtain ⟨c, hc⟩ := hsame.mpr ⟨b, hholds⟩
    rw [(hwhole.at?_iff l name c).mpr hc]
    exact h.holds hl hholds hc

/-! ## §6. Lexical environments -/

/-- **The stack is a lexical environment.**  After any steps from the empty stack,
    failed ones among them, a look-up finds what the innermost scope holds that lives
    and has the name: the type of its last definition there, and the value last stored
    there.  An assignment that does not fail changes this one value, a definition
    changes one binding of the innermost scope, and a block changes the scopes around
    it by assignments only.  A step fails just when it assigns to a name that is bound
    nowhere or a value that does not fit, or leaves the global scope, and then it
    changes nothing. -/
theorem scopes_follow_history (steps : List Step) :
    (∀ name b, (after steps).lookup? name = some b
        ↔ ∃ l, Means steps name l ∧ Holds steps l name b)
      ∧ (∀ name v pos, ¬ Fails steps (.assign name v pos) →
          ∃ l b, Means steps name l ∧ Holds steps l name b
            ∧ ∀ l' other, (after (steps ++ [.assign name v pos])).at? l' other
              = if l' = l ∧ other = name then some ⟨b.type, v⟩ else (after steps).at? l' other)
      ∧ (∀ name b l other, (after (steps ++ [.define name b])).at? l other
          = if l + 1 = (after steps).depth ∧ other = name then some b
            else (after steps).at? l other)
      ∧ (∀ inside, IsBlock steps inside →
          (after (block steps inside)).depth = (after steps).depth
            ∧ ∀ l < (after steps).depth, ∀ name,
              AfterBlock steps (block steps inside) l name ((after steps).at? l name)
                ((after (block steps inside)).at? l name))
      ∧ (∀ k step, steps[k]? = some step →
          ∃ outcome, (empty.run steps)[k]? = some outcome
            ∧ outcome.stack = after (steps.take (k + 1))
            ∧ (outcome.failure.isSome = true ↔ Fails (steps.take k) step)
            ∧ (Fails (steps.take k) step → outcome.stack = after (steps.take k)))
      ∧ (after steps).depth = depthOf steps ∧ 1 ≤ (after steps).depth := by
  have hfollows := follows_after steps
  have hdepth := depth_after steps
  refine ⟨fun name b => hfollows.lookup?_eq_some_iff, ?_, ?_, ?_, ?_, hdepth,
    (after steps).depth_pos⟩
  · intro name v pos hfits
    -- an assignment that does not fail finds a binding that its value fits
    have hnofail := mt (hfollows.failure_iff (.assign name v pos)).mp hfits
    cases hlookup : (after steps).lookup? name with
    | none =>
      rw [outcome_assign_unbound hlookup] at hnofail
      exact absurd rfl hnofail
    | some b =>
      obtain ⟨l, hmeans, hb⟩ := hfollows.lookup?_eq_some_iff.mp hlookup
      cases hfit : v.misfit? b.type with
      | none =>
        rw [after_append_single, outcome_assign_fits hlookup hfit]
        exact ⟨l, b, hmeans, hb, hfollows.at?_assign hmeans hb v⟩
      | some m =>
        rw [outcome_assign_misfit hlookup hfit] at hnofail
        exact absurd rfl hnofail
  · intro name b l other
    rw [after_append_single]
    exact at?_define name other b
  · intro inside hblock
    rw [depth_after, hdepth, hblock.depthOf]
    exact ⟨rfl, fun l hl name => hblock.at?_after hl⟩
  · intro k step hstep
    -- a step is run on what the steps before it have come to
    have hbefore := follows_after (steps.take k)
    have htake : steps.take (k + 1) = steps.take k ++ [step] := by
      rw [List.take_add_one, hstep]
      rfl
    refine ⟨_, getElem?_run hstep, ?_, hbefore.failure_iff step, ?_⟩
    · rw [htake, after_append_single]
    · intro hfails
      obtain ⟨e, he⟩ := Option.isSome_iff_exists.mp ((hbefore.failure_iff step).mpr hfails)
      exact outcome_of_failure he

/-- A block that defines a name for itself, assigns a text to it and a number to a
    name around it, and then fails to assign a text to that. -/
theorem scopes_follow_history_block :
    let front : List Step := [.define [120] ⟨.int, .unknown⟩, .define [121] ⟨.int, .unknown⟩]
    let inside : List Step :=
      [.define [120] ⟨.string, .unknown⟩, .assign [120] (.scalar (.str [])) none,
        .assign [121] (.scalar (.int 7)) none, .assign [121] (.scalar (.str [])) none]
    IsBlock front inside ∧ ∀ name, AfterBlock front (block front inside) 0 name
      ((after front).at? 0 name) ((after (block front inside)).at? 0 name) := by
  intro front inside
  have hblock : IsBlock front inside := ⟨by decide, by decide⟩
  obtain ⟨-, -, -, hblocks, -⟩ := scopes_follow_history front
  exact ⟨hblock, (hblocks inside hblock).2 0 (Nat.succ_pos 0)⟩

end Lumen.ScopeStack
