/-
  Lumen.Proofs.Scoping.History — what steps on a stack of scopes say.

  What a stack of scopes holds can be told by the steps that led to it alone.  A
  scope is known by the number of scopes below it.  It lives from the step that
  enters it to the step that leaves it, and a definition or an assignment that was
  made in it counts as long as it lives.  The type of a name in a scope is the one
  that was last defined there, and its value the one that was last stored there, be
  it by a definition or by an assignment for which the scope was the innermost one
  with the name.

  One more step ends a scope, adds one event, or does neither.  Between an entry and
  its exit every definition is made in a scope that is gone afterwards.

  Main statements:
    * `defines_append` / `stores_append` — events of a history in a longer one;
    * `holds_append_single`, `holds_define`, `holds_assign` — one more step;
    * `IsBlock.holds` — what a block changes in the scopes around it.
-/
import Mathlib.Data.List.Induction
import Lumen.Scope

namespace Lumen.ScopeStack

/-! ## §1. What the steps say -/

/-- How many scopes there are after a step; the global one is never left. -/
def Step.depthAfter (d : Nat) : Step → Nat
  | push => d + 1
  | pop => if 1 < d then d - 1 else d
  | define _ _ | assign _ _ _ | lookup _ => d

/-- How many scopes there are after some steps. -/
def depthOf (steps : List Step) : Nat := steps.foldl Step.depthAfter 1

/-- After step `k` the scope over `l` others, which was there then, has not been
    left. -/
def Lives (steps : List Step) (k l : Nat) : Prop :=
  ∀ j, k < j → j ≤ steps.length → l < depthOf (steps.take j)

/-- Step `k` defines a name in a scope that lives: then it was the innermost one. -/
structure Defines (steps : List Step) (k l : Nat) (name : Bytes) (b : Binding) : Prop where
  step : steps[k]? = some (.define name b)
  innermost : depthOf (steps.take k) = l + 1
  lives : Lives steps k l

/-- A name means the innermost scope in which it was defined. -/
structure Means (steps : List Step) (name : Bytes) (l : Nat) : Prop where
  defined : ∃ k b, Defines steps k l name b
  innermost : ∀ k l' b, Defines steps k l' name b → l' ≤ l

/-- The last of some events, by what it is about. -/
def Last {α : Type} (event : Nat → α → Prop) (a : α) : Prop :=
  ∃ k, event k a ∧ ∀ j b, event j b → j ≤ k

/-- The type that a name was last defined with in a scope that lives. -/
def TypeOf (steps : List Step) (l : Nat) (name : Bytes) (type : Ty) : Prop :=
  Last (fun k type => ∃ v, Defines steps k l name ⟨type, v⟩) type

/-- Step `k` assigns a value that fits to a name, which then meant a scope that
    lives. -/
structure Assigns (steps : List Step) (k l : Nat) (name : Bytes) (v : Value) : Prop where
  step : ∃ pos, steps[k]? = some (.assign name v pos)
  resolves : Means (steps.take k) name l
  fits : ∃ type, TypeOf (steps.take k) l name type ∧ v.misfit? type = none
  lives : Lives steps k l

/-- Step `k` stores a value under a name in a scope that lives. -/
def Stores (steps : List Step) (k l : Nat) (name : Bytes) (v : Value) : Prop :=
  (∃ type, Defines steps k l name ⟨type, v⟩) ∨ Assigns steps k l name v

/-- A name has the type that it was last defined with, and the value that was last
    stored under it. -/
structure Holds (steps : List Step) (l : Nat) (name : Bytes) (b : Binding) : Prop where
  type : TypeOf steps l name b.type
  value : Last (fun k v => Stores steps k l name v) b.value

/-- The steps that fail after some others. -/
inductive Fails (steps : List Step) : Step → Prop where
  | global (h : depthOf steps = 1) : Fails steps .pop
  | unbound {name : Bytes} {v : Value} {pos : Option Pos}
      (h : ∀ k l b, ¬ Defines steps k l name b) : Fails steps (.assign name v pos)
  | misfit {name : Bytes} {v : Value} {pos : Option Pos} {l : Nat} {type : Ty}
      (hmeans : Means steps name l) (htype : TypeOf steps l name type)
      (hv : v.misfit? type ≠ none) : Fails steps (.assign name v pos)

/-- A block: between an entry and its exit the scope that was entered is not left,
    and it is the innermost one again when the exit comes. -/
structure IsBlock (front inside : List Step) : Prop where
  stays : ∀ j ≤ inside.length, depthOf front < depthOf (front ++ .push :: inside.take j)
  closes : depthOf (front ++ .push :: inside) = depthOf front + 1

/-! ## §2. Last events -/

section
variable {α : Type} {event later : Nat → α → Prop}

theorem exists_last {n : Nat} (hbound : ∀ k a, event k a → k < n) (h : ∃ k a, event k a) :
    ∃ a, Last event a := by
  induction n with
  | zero =>
    obtain ⟨k, a, hk⟩ := h
    exact absurd (hbound k a hk) (Nat.not_lt_zero k)
  | succ n ih =>
    by_cases hn : ∃ a, event n a
    · obtain ⟨a, ha⟩ := hn
      exact ⟨a, n, ha, fun j b hj => Nat.le_of_lt_succ (hbound j b hj)⟩
    · apply ih
      intro k a hk
      have hne : k ≠ n := by
        rintro rfl
        exact hn ⟨a, hk⟩
      have hlt := hbound k a hk
      omega

theorem Last.unique {a b : α} (hsame : ∀ k a b, event k a → event k b → a = b)
    (ha : Last event a) (hb : Last event b) : a = b := by
  obtain ⟨k, hk, hklast⟩ := ha
  obtain ⟨j, hj, hjlast⟩ := hb
  obtain rfl := Nat.le_antisymm (hjlast k a hk) (hklast j b hj)
  exact hsame k a b hk hj

/-- An event after all others is the last. -/
theorem last_iff_of_new {n : Nat} {b : α} (hbound : ∀ k a, event k a → k ≤ n)
    (hnew : ∀ a, event n a ↔ a = b) (a : α) : Last event a ↔ a = b := by
  constructor
  · rintro ⟨k, hk, hlast⟩
    obtain rfl := Nat.le_antisymm (hbound k a hk) (hlast n b ((hnew b).mpr rfl))
    exact (hnew a).mp hk
  · rintro rfl
    exact ⟨n, (hnew a).mpr rfl, hbound⟩

theorem last_and_iff {c : Prop} (h : ∀ k a, later k a ↔ event k a ∧ c) (a : α) :
    Last later a ↔ Last event a ∧ c := by
  simp only [Last, h]
  constructor
  · rintro ⟨k, ⟨hk, hc⟩, hlast⟩
    exact ⟨⟨k, hk, fun j b hj => hlast j b ⟨hj, hc⟩⟩, hc⟩
  · rintro ⟨⟨k, hk, hlast⟩, hc⟩
    exact ⟨k, ⟨hk, hc⟩, fun j b hj => hlast j b hj.1⟩

end

/-! ## §3. Events in longer histories -/

@[simp] theorem depthOf_append_single (steps : List Step) (step : Step) :
    depthOf (steps ++ [step]) = step.depthAfter (depthOf steps) := by
  rw [depthOf, List.foldl_append]
  rfl

theorem depthOf_pos (steps : List Step) : 1 ≤ depthOf steps := by
  induction steps using List.reverseRecOn with
  | nil => exact Nat.le_refl 1
  | append_singleton steps step ih =>
    rw [depthOf_append_single]
    cases step with
    | push => exact Nat.le_succ_of_le ih
    | pop =>
      show 1 ≤ if 1 < depthOf steps then depthOf steps - 1 else depthOf steps
      split
      · omega
      · exact ih
    | define name b | assign name v pos | lookup name => exact ih

section
variable {front back : List Step} {k l : Nat} {name : Bytes}

theorem lives_append (hk : k < front.length) :
    Lives (front ++ back) k l
      ↔ Lives front k l ∧ ∀ j ≤ back.length, l < depthOf (front ++ back.take j) := by
  constructor
  · intro h
    constructor
    · intro j hkj hj
      have hlt := h j hkj (by rw [List.length_append]; omega)
      rwa [List.take_append_of_le_length hj] at hlt
    · intro j hj
      have hlt := h (front.length + j) (by omega) (by rw [List.length_append]; omega)
      rwa [List.take_length_add_append] at hlt
  · rintro ⟨hfront, hback⟩ j hkj hj
    -- the depth is asked for in the front, or behind it
    by_cases hle : j ≤ front.length
    · rw [List.take_append_of_le_length hle]
      exact hfront j hkj hle
    · obtain ⟨i, rfl⟩ := Nat.exists_eq_add_of_le (Nat.le_of_not_le hle)
      rw [List.length_append] at hj
      rw [List.take_length_add_append]
      exact hback i (by omega)

theorem defines_append (hk : k < front.length) {b : Binding} :
    Defines (front ++ back) k l name b
      ↔ Defines front k l name b ∧ ∀ j ≤ back.length, l < depthOf (front ++ back.take j) := by
  constructor
  · rintro ⟨hstep, hinner, hlives⟩
    rw [List.getElem?_append_left hk] at hstep
    rw [List.take_append_of_le_length (Nat.le_of_lt hk)] at hinner
    obtain ⟨hfront, hback⟩ := (lives_append hk).mp hlives
    exact ⟨⟨hstep, hinner, hfront⟩, hback⟩
  · rintro ⟨⟨hstep, hinner, hlives⟩, hback⟩
    refine ⟨?_, ?_, (lives_append hk).mpr ⟨hlives, hback⟩⟩
    · rwa [List.getElem?_append_left hk]
    · rwa [List.take_append_of_le_length (Nat.le_of_lt hk)]

theorem assigns_append (hk : k < front.length) {v : Value} :
    Assigns (front ++ back) k l name v
      ↔ Assigns front k l name v ∧ ∀ j ≤ back.length, l < depthOf (front ++ back.take j) := by
  have htake : (front ++ back).take k = front.take k :=
    List.take_append_of_le_length (Nat.le_of_lt hk)
  constructor
  · rintro ⟨hstep, hmeans, hfits, hlives⟩
    rw [List.getElem?_append_left hk] at hstep
    rw [htake] at hmeans hfits
    obtain ⟨hfront, hback⟩ := (lives_append hk).mp hlives
    exact ⟨⟨hstep, hmeans, hfits, hfront⟩, hback⟩
  · rintro ⟨⟨hstep, hmeans, hfits, hlives⟩, hback⟩
    refine ⟨?_, ?_, ?_, (lives_append hk).mpr ⟨hlives, hback⟩⟩
    · rwa [List.getElem?_append_left hk]
    · rwa [htake]
    · rwa [htake]

theorem stores_append (hk : k < front.length) {v : Value} :
    Stores (front ++ back) k l name v
      ↔ Stores front k l name v ∧ ∀ j ≤ back.length, l < depthOf (front ++ back.take j) := by
  unfold Stores
  simp only [defines_append hk, assigns_append hk]
  constructor
  · rintro (⟨type, hdefines, hback⟩ | ⟨hassigns, hback⟩)
    · exact ⟨.inl ⟨type, hdefines⟩, hback⟩
    · exact ⟨.inr hassigns, hback⟩
  · rintro ⟨⟨type, hdefines⟩ | hassigns, hback⟩
    · exact .inl ⟨type, hdefines, hback⟩
    · exact .inr ⟨hassigns, hback⟩

end

section
variable {steps : List Step} {k l : Nat} {name : Bytes} {b : Binding} {v : Value}

theorem Defines.lt_length (h : Defines steps k l name b) : k < steps.length :=
  (List.getElem?_eq_some_iff.mp h.step).1

theorem Assigns.lt_length (h : Assigns steps k l name v) : k < steps.length := by
  obtain ⟨pos, hstep⟩ := h.step
  exact (List.getElem?_eq_some_iff.mp hstep).1

theorem Stores.lt_length (h : Stores steps k l name v) : k < steps.length := by
  obtain ⟨type, h⟩ | h := h
  · exact h.lt_length
  · exact h.lt_length

theorem Lives.lt_depth (h : Lives steps k l) (hk : k < steps.length) : l < depthOf steps := by
  have hlast := h steps.length hk (Nat.le_refl _)
  rwa [List.take_length] at hlast

theorem Defines.lt_depth (h : Defines steps k l name b) : l < depthOf steps :=
  h.lives.lt_depth h.lt_length

theorem Stores.lt_depth (h : Stores steps k l name v) : l < depthOf steps := by
  have hk := h.lt_length
  obtain ⟨type, h⟩ | h := h
  · exact h.lives.lt_depth hk
  · exact h.lives.lt_depth hk

theorem Defines.unique {b' : Binding} (h : Defines steps k l name b)
    (h' : Defines steps k l name b') : b = b' := by
  have hsame := h.step.symm.trans h'.step
  cases hsame
  rfl

theorem TypeOf.unique {type type' : Ty} (h : TypeOf steps l name type)
    (h' : TypeOf steps l name type') : type = type' := by
  apply Last.unique _ h h'
  rintro k type type' ⟨v, hv⟩ ⟨v', hv'⟩
  exact congrArg Binding.type (hv.unique hv')

theorem Stores.unique {v' : Value} (h : Stores steps k l name v)
    (h' : Stores steps k l name v') : v = v' := by
  obtain ⟨type, h⟩ | h := h <;> obtain ⟨type', h'⟩ | h' := h'
  · exact congrArg Binding.value (h.unique h')
  · obtain ⟨pos, hstep⟩ := h'.step
    cases h.step.symm.trans hstep
  · obtain ⟨pos, hstep⟩ := h.step
    cases h'.step.symm.trans hstep
  · obtain ⟨pos, hstep⟩ := h.step
    obtain ⟨pos', hstep'⟩ := h'.step
    cases hstep.symm.trans hstep'
    rfl

theorem last_store_unique {v' : Value} (h : Last (fun k v => Stores steps k l name v) v)
    (h' : Last (fun k v => Stores steps k l name v) v') : v = v' := by
  apply Last.unique _ h h'
  exact fun _ _ _ => Stores.unique

theorem exists_typeOf (h : ∃ k b, Defines steps k l name b) : ∃ type, TypeOf steps l name type := by
  obtain ⟨k, b, hdefines⟩ := h
  apply exists_last (n := steps.length)
  · rintro k type ⟨v, hv⟩
    exact hv.lt_length
  · exact ⟨k, b.type, b.value, hdefines⟩

/-- A name holds something in a scope just when it was defined there. -/
theorem exists_holds_iff :
    (∃ b, Holds steps l name b) ↔ ∃ k b, Defines steps k l name b := by
  constructor
  · rintro ⟨b, ⟨k, ⟨v, hk⟩, -⟩, -⟩
    exact ⟨k, _, hk⟩
  · intro h
    obtain ⟨type, htype⟩ := exists_typeOf h
    obtain ⟨k, b, hdefines⟩ := h
    have hstored : ∃ v, Last (fun k v => Stores steps k l name v) v :=
      exists_last (fun _ _ => Stores.lt_length) ⟨k, b.value, .inl ⟨b.type, hdefines⟩⟩
    obtain ⟨v, hv⟩ := hstored
    exact ⟨⟨type, v⟩, htype, hv⟩

theorem means_iff :
    Means steps name l
      ↔ (∃ b, Holds steps l name b) ∧ ∀ l', l < l' → ∀ b, ¬ Holds steps l' name b := by
  rw [exists_holds_iff]
  constructor
  · rintro ⟨hdefined, hinner⟩
    refine ⟨hdefined, fun l' hl' b hb => ?_⟩
    obtain ⟨k, c, hdefines⟩ := exists_holds_iff.mp ⟨b, hb⟩
    have hle := hinner k l' c hdefines
    omega
  · rintro ⟨hdefined, hnone⟩
    refine ⟨hdefined, fun k l' b hb => ?_⟩
    apply Nat.le_of_not_lt
    intro hlt
    obtain ⟨c, hc⟩ := exists_holds_iff.mpr ⟨k, b, hb⟩
    exact hnone l' hlt c hc

end

/-! ## §4. One more step -/

/-- What a step stores after some others. -/
inductive Writes (steps : List Step) : Step → Nat → Bytes → Value → Prop where
  | define {l : Nat} {name : Bytes} {b : Binding} (h : depthOf steps = l + 1) :
      Writes steps (.define name b) l name b.value
  | assign {l : Nat} {name : Bytes} {v : Value} {pos : Option Pos} {type : Ty}
      (hmeans : Means steps name l) (htype : TypeOf steps l name type)
      (hv : v.misfit? type = none) : Writes steps (.assign name v pos) l name v

section
variable {steps : List Step} {step : Step} {k l : Nat} {name : Bytes} {b : Binding} {v : Value}

/-- A step at the end leaves the events before it in the scopes that it does not
    end. -/
theorem defines_before (hk : k < steps.length) :
    Defines (steps ++ [step]) k l name b
      ↔ Defines steps k l name b ∧ l < depthOf (steps ++ [step]) := by
  rw [defines_append hk]
  refine and_congr_right fun h => ?_
  constructor
  · exact fun hback => hback 1 (Nat.le_refl 1)
  · intro hlt j hj
    cases j with
    | zero =>
      rw [List.take_zero, List.append_nil]
      exact h.lt_depth
    | succ j => rwa [List.take_of_length_le (Nat.succ_pos j)]

theorem stores_before (hk : k < steps.length) :
    Stores (steps ++ [step]) k l name v
      ↔ Stores steps k l name v ∧ l < depthOf (steps ++ [step]) := by
  rw [stores_append hk]
  refine and_congr_right fun h => ?_
  constructor
  · exact fun hback => hback 1 (Nat.le_refl 1)
  · intro hlt j hj
    cases j with
    | zero =>
      rw [List.take_zero, List.append_nil]
      exact h.lt_depth
    | succ j => rwa [List.take_of_length_le (Nat.succ_pos j)]

theorem lives_now (h : l < depthOf (steps ++ [step])) : Lives (steps ++ [step]) steps.length l := by
  intro j hlt hj
  rwa [List.take_of_length_le]
  rw [List.length_append, List.length_singleton]
  exact hlt

theorem defines_now :
    Defines (steps ++ [step]) steps.length l name b
      ↔ step = .define name b ∧ depthOf steps = l + 1 := by
  constructor
  · rintro ⟨hstep, hinner, -⟩
    rw [List.getElem?_concat_length] at hstep
    rw [List.take_left] at hinner
    exact ⟨Option.some.inj hstep, hinner⟩
  · rintro ⟨rfl, hinner⟩
    refine ⟨List.getElem?_concat_length, ?_, lives_now ?_⟩
    · rwa [List.take_left]
    · rw [depthOf_append_single]
      show l < depthOf steps
      omega

theorem stores_now :
    Stores (steps ++ [step]) steps.length l name v ↔ Writes steps step l name v := by
  constructor
  · rintro (⟨type, hdefines⟩ | ⟨⟨pos, hstep⟩, hmeans, ⟨type, htype, hv⟩, -⟩)
    · obtain ⟨rfl, hinner⟩ := defines_now.mp hdefines
      exact .define hinner
    · rw [List.getElem?_concat_length] at hstep
      rw [List.take_left] at hmeans htype
      obtain rfl := Option.some.inj hstep
      exact .assign hmeans htype hv
  · intro h
    cases h with
    | @define l name b h => exact .inl ⟨b.type, defines_now.mpr ⟨rfl, h⟩⟩
    | @assign l name v pos type hmeans htype hv =>
      refine .inr ⟨⟨pos, List.getElem?_concat_length⟩, ?_, ⟨type, ?_, hv⟩, lives_now ?_⟩
      · rwa [List.take_left]
      · rwa [List.take_left]
      · obtain ⟨k, b, hdefines⟩ := hmeans.defined
        rw [depthOf_append_single]
        exact hdefines.lt_depth

theorem Defines.le_length (h : Defines (steps ++ [step]) k l name b) : k ≤ steps.length := by
  have hlt := h.lt_length
  rw [List.length_append, List.length_singleton] at hlt
  omega

theorem Stores.le_length (h : Stores (steps ++ [step]) k l name v) : k ≤ steps.length := by
  have hlt := h.lt_length
  rw [List.length_append, List.length_singleton] at hlt
  omega

/-- Without a definition now a type stays, unless its scope has ended. -/
theorem typeOf_append_single (hquiet : ∀ b, step = .define name b → depthOf steps ≠ l + 1)
    {type : Ty} :
    TypeOf (steps ++ [step]) l name type
      ↔ TypeOf steps l name type ∧ l < depthOf (steps ++ [step]) := by
  apply last_and_iff
  intro k type
  constructor
  · rintro ⟨v, hv⟩
    obtain hlt | rfl := Nat.lt_or_eq_of_le hv.le_length
    · obtain ⟨hdefines, hdepth⟩ := (defines_before hlt).mp hv
      exact ⟨⟨v, hdefines⟩, hdepth⟩
    · obtain ⟨hstep, hinner⟩ := defines_now.mp hv
      exact absurd hinner (hquiet _ hstep)
  · rintro ⟨⟨v, hv⟩, hdepth⟩
    exact ⟨v, (defines_before hv.lt_length).mpr ⟨hv, hdepth⟩⟩

/-- What a name holds stays if nothing is stored under it now and its scope does not
    end. -/
theorem holds_append_single (hquiet : ∀ v, ¬ Writes steps step l name v) :
    Holds (steps ++ [step]) l name b
      ↔ Holds steps l name b ∧ l < depthOf (steps ++ [step]) := by
  have htype : TypeOf (steps ++ [step]) l name b.type
      ↔ TypeOf steps l name b.type ∧ l < depthOf (steps ++ [step]) := by
    apply typeOf_append_single
    rintro c rfl hinner
    exact hquiet c.value (.define hinner)
  -- an older value stays the last one, for nothing is written over it
  have hvalue : Last (fun k v => Stores (steps ++ [step]) k l name v) b.value
      ↔ Last (fun k v => Stores steps k l name v) b.value ∧ l < depthOf (steps ++ [step]) := by
    apply last_and_iff
    intro k v
    constructor
    · intro h
      obtain hlt | rfl := Nat.lt_or_eq_of_le h.le_length
      · exact (stores_before hlt).mp h
      · exact absurd (stores_now.mp h) (hquiet v)
    · rintro ⟨h, hdepth⟩
      exact (stores_before h.lt_length).mpr ⟨h, hdepth⟩
  constructor
  · rintro ⟨ht, hv⟩
    exact ⟨⟨(htype.mp ht).1, (hvalue.mp hv).1⟩, (htype.mp ht).2⟩
  · rintro ⟨⟨ht, hv⟩, hdepth⟩
    exact ⟨htype.mpr ⟨ht, hdepth⟩, hvalue.mpr ⟨hv, hdepth⟩⟩

theorem Holds.lt_depth (h : Holds steps l name b) : l < depthOf steps := by
  obtain ⟨k, hstores, -⟩ := h.value
  exact hstores.lt_depth

theorem holds_of_quiet (hquiet : ∀ v, ¬ Writes steps step l name v)
    (hdepth : depthOf steps ≤ depthOf (steps ++ [step])) :
    Holds (steps ++ [step]) l name b ↔ Holds steps l name b := by
  rw [holds_append_single hquiet]
  exact and_iff_left_of_imp fun h => Nat.lt_of_lt_of_le h.lt_depth hdepth

/-- What is stored now is the last that was stored. -/
theorem last_store_of_writes (h : Writes steps step l name v) (w : Value) :
    Last (fun k v => Stores (steps ++ [step]) k l name v) w ↔ w = v := by
  apply last_iff_of_new (fun _ _ => Stores.le_length)
  intro w
  constructor
  · exact fun hw => hw.unique (stores_now.mpr h)
  · rintro rfl
    exact stores_now.mpr h

theorem holds_define (hinner : depthOf steps = l + 1) (c : Binding) :
    Holds (steps ++ [.define name c]) l name b ↔ b = c := by
  -- the new definition is the last one of all
  have htype : TypeOf (steps ++ [.define name c]) l name b.type ↔ b.type = c.type := by
    apply last_iff_of_new (n := steps.length)
    · rintro k type ⟨v, hv⟩
      exact hv.le_length
    · intro type
      simp only [defines_now, hinner, and_true]
      constructor
      · rintro ⟨v, hv⟩
        cases hv
        rfl
      · rintro rfl
        exact ⟨c.value, rfl⟩
  have hwrites : Writes steps (.define name c) l name c.value := .define hinner
  have hvalue := last_store_of_writes hwrites b.value
  constructor
  · rintro ⟨ht, hv⟩
    obtain ⟨type, value⟩ := b
    obtain rfl : type = c.type := htype.mp ht
    obtain rfl : value = c.value := hvalue.mp hv
    rfl
  · rintro rfl
    exact ⟨htype.mpr rfl, hvalue.mpr rfl⟩

theorem holds_assign {c : Binding} {pos : Option Pos} (hmeans : Means steps name l)
    (hc : Holds steps l name c) (hv : v.misfit? c.type = none) :
    Holds (steps ++ [.assign name v pos]) l name b ↔ b = ⟨c.type, v⟩ := by
  have hdepth : l < depthOf (steps ++ [.assign name v pos]) := by
    obtain ⟨k, d, hdefines⟩ := hmeans.defined
    rw [depthOf_append_single]
    exact hdefines.lt_depth
  -- an assignment defines nothing, so the type stays
  have htype : TypeOf (steps ++ [.assign name v pos]) l name b.type ↔ b.type = c.type := by
    rw [typeOf_append_single (fun d hd => by cases hd)]
    constructor
    · exact fun h => h.1.unique hc.type
    · intro h
      rw [h]
      exact ⟨hc.type, hdepth⟩
  have hwrites : Writes steps (.assign name v pos) l name v := .assign hmeans hc.type hv
  have hvalue := last_store_of_writes hwrites b.value
  constructor
  · rintro ⟨ht, hw⟩
    obtain ⟨type, value⟩ := b
    obtain rfl : type = c.type := htype.mp ht
    obtain rfl : value = v := hvalue.mp hw
    rfl
  · rintro rfl
    exact ⟨htype.mpr rfl, hvalue.mpr rfl⟩

end

/-! ## §5. Blocks -/

/-- What a block makes of the binding of a name in a scope around it: it stays as it
    is, but for the value that was last assigned to it inside. -/
inductive AfterBlock (front whole : List Step) (l : Nat) (name : Bytes) :
    (before later : Option Binding) → Prop where
  | unbound : AfterBlock front whole l name none none
  | kept {b : Binding} (h : ∀ k v, front.length < k → ¬ Assigns whole k l name v) :
      AfterBlock front whole l name (some b) (some b)
  | assigned {b : Binding} {v : Value}
      (h : Last (fun k v => front.length < k ∧ Assigns whole k l name v) v) :
      AfterBlock front whole l name (some b) (some ⟨b.type, v⟩)

/-- The steps of a block after some others. -/
def block (front inside : List Step) : List Step := front ++ .push :: inside ++ [.pop]

section
variable {front inside : List Step} (h : IsBlock front inside)
include h

theorem IsBlock.depthOf : depthOf (block front inside) = depthOf front := by
  have hpos := depthOf_pos front
  rw [block, depthOf_append_single, h.closes]
  exact if_pos (by omega)

/-- No scope around a block ends in it. -/
theorem IsBlock.around {l : Nat} (hl : l < ScopeStack.depthOf front) :
    ∀ j ≤ (Step.push :: inside ++ [Step.pop]).length,
      l < ScopeStack.depthOf (front ++ (Step.push :: inside ++ [Step.pop]).take j) := by
  intro j hj
  cases j with
  | zero =>
    rw [List.take_zero, List.append_nil]
    exact hl
  | succ j =>
    -- inside of the block its own scope is open, and after it those that were open before
    by_cases hlast : j ≤ inside.length
    · have hstays := h.stays j hlast
      rw [List.cons_append, List.take_succ_cons, List.take_append_of_le_length hlast]
      omega
    · rw [List.take_of_length_le]
      · have hdepth := h.depthOf
        rw [block, List.append_assoc] at hdepth
        omega
      · rw [List.length_append, List.length_cons, List.length_singleton]
        omega

variable {k l : Nat} {name : Bytes}

theorem IsBlock.defines_iff (hl : l < ScopeStack.depthOf front) {b : Binding} :
    Defines (block front inside) k l name b ↔ Defines front k l name b := by
  have hwhole : block front inside = front ++ (Step.push :: inside ++ [Step.pop]) :=
    List.append_assoc _ _ _
  constructor
  · intro hdefines
    by_cases hk : k < front.length
    · rw [hwhole] at hdefines
      exact ((defines_append hk).mp hdefines).1
    · -- inside of the block definitions are made further in
      obtain ⟨j, rfl⟩ := Nat.exists_eq_add_of_le (Nat.le_of_not_lt hk)
      have hstep := hdefines.step
      have hinner := hdefines.innermost
      rw [hwhole, List.getElem?_append_right (Nat.le_add_right _ _), Nat.add_sub_cancel_left]
        at hstep
      rw [hwhole, List.take_length_add_append] at hinner
      -- the entry of the block defines nothing, and all after it stands further in
      cases j with
      | zero => cases hstep
      | succ j =>
        by_cases hj : j ≤ inside.length
        · have hstays := h.stays j hj
          rw [List.cons_append, List.take_succ_cons, List.take_append_of_le_length hj] at hinner
          omega
        · rw [List.getElem?_eq_none] at hstep
          · cases hstep
          · rw [List.length_append, List.length_cons, List.length_singleton]
            omega
  · intro hdefines
    rw [hwhole]
    exact (defines_append hdefines.lt_length).mpr ⟨hdefines, h.around hl⟩

theorem IsBlock.stores_iff (hl : l < ScopeStack.depthOf front) {v : Value} :
    Stores (block front inside) k l name v
      ↔ Stores front k l name v ∨ front.length < k ∧ Assigns (block front inside) k l name v := by
  have hwhole : block front inside = front ++ (Step.push :: inside ++ [Step.pop]) :=
    List.append_assoc _ _ _
  constructor
  · intro hstores
    obtain hlt | rfl | hgt := Nat.lt_trichotomy k front.length
    · rw [hwhole, stores_append hlt] at hstores
      exact .inl hstores.1
    · -- the block begins with an entry
      have hpush : (block front inside)[front.length]? = some .push := by
        rw [hwhole, List.getElem?_append_right (Nat.le_refl _), Nat.sub_self]
        rfl
      obtain ⟨type, hdefines⟩ | hassigns := hstores
      · cases hpush.symm.trans hdefines.step
      · obtain ⟨pos, hstep⟩ := hassigns.step
        cases hpush.symm.trans hstep
    · obtain ⟨type, hdefines⟩ | hassigns := hstores
      · exact .inl (.inl ⟨type, (h.defines_iff hl).mp hdefines⟩)
      · exact .inr ⟨hgt, hassigns⟩
  · rintro (hstores | ⟨-, hassigns⟩)
    · rw [hwhole]
      exact (stores_append hstores.lt_length).mpr ⟨hstores, h.around hl⟩
    · exact .inr hassigns

theorem IsBlock.typeOf_iff (hl : l < ScopeStack.depthOf front) {type : Ty} :
    TypeOf (block front inside) l name type ↔ TypeOf front l name type := by
  unfold TypeOf
  simp only [h.defines_iff hl]

/-- What a name holds in a scope around a block, after the block. -/
theorem IsBlock.holds {b c : Binding} (hl : l < ScopeStack.depthOf front)
    (hb : Holds front l name b) (hc : Holds (block front inside) l name c) :
    AfterBlock front (block front inside) l name (some b) (some c) := by
  obtain ⟨type, value⟩ := c
  obtain rfl : type = b.type := ((h.typeOf_iff hl).mp hc.type).unique hb.type
  obtain ⟨k, hk, hlast⟩ := hc.value
  obtain hbefore | hinside := (h.stores_iff hl).mp hk
  · -- the last value was stored before the block, so none was stored in it
    have hnone : ∀ j v, front.length < j → ¬ Assigns (block front inside) j l name v := by
      intro j v hj hassigns
      have hle := hlast j v (.inr hassigns)
      have hlt := hbefore.lt_length
      omega
    have hvalue : Last (fun k v => Stores front k l name v) value := by
      refine ⟨k, hbefore, fun j v hj => ?_⟩
      exact hlast j v ((h.stores_iff hl).mpr (.inl hj))
    obtain rfl := last_store_unique hvalue hb.value
    exact .kept hnone
  · apply AfterBlock.assigned
    exact ⟨k, hinside, fun j v hj => hlast j v (.inr hj.2)⟩

end

end Lumen.ScopeStack
