/-
  Lumen.Proofs.Checking.Routes — two routes to the same verdict.

  Whether an expression may stand under a declared type can be asked in two ways.
  One looks into list literals and checks their elements one by one, and merges no
  types.  The other finds the type of the whole expression, in which the types of
  the elements are merged, and compares that.

  A type that can be declared has no `any`, so it accepts what two types merge to
  just when it accepts both, and types that it accepts do merge.  So the elements
  pass one by one just when their merger does, and by induction on the expression
  the two routes never differ.

  Main statements:
    * `Ty.accepts_merge?` / `Ty.exists_merge?` — mergers under a declared type;
    * `inferElements_accepted_iff` — the elements of a list;
    * `checkAgainst_iff_infer` — any expression;
    * `routes_agree` — and list literals in parentheses in particular.
-/
import Lumen.Proofs.Checking.Judged

namespace Lumen

/-! ## §1. Mergers under a declared type -/

namespace Ty

@[simp] theorem accepts_any (t : Ty) : t.accepts any = true := by cases t <;> rfl

/-- A merger is one of the two sides, or a list whose elements are merged. -/
theorem merge?_cases {a b c : Ty} (h : a.merge? b = some c) :
    (a = any ∧ b = c) ∨ (b = any ∧ a = c) ∨ (a = c ∧ b = c)
      ∨ ∃ a' b' c', a = list a' ∧ b = list b' ∧ c = list c' ∧ a'.merge? b' = some c' := by
  cases a with
  | any => exact .inl ⟨rfl, Option.some.inj h⟩
  | list a =>
    cases b with
    | any => exact .inr (.inl ⟨rfl, Option.some.inj h⟩)
    | list b =>
      obtain ⟨c', hc', rfl⟩ := Option.map_eq_some_iff.mp h
      exact .inr (.inr (.inr ⟨a, b, c', rfl, rfl, rfl, hc'⟩))
    | _ => simp [merge?] at h
  | _ => cases b <;> simp_all [merge?]

/-- A type without `any` accepts a merger just when it accepts both sides. -/
theorem accepts_merge? {t a b c : Ty} (ht : t.isDeclarable = true) (h : a.merge? b = some c) :
    t.accepts c = true ↔ t.accepts a = true ∧ t.accepts b = true := by
  induction t generalizing a b c with
  | any => cases ht
  | list t ih =>
    obtain ⟨rfl, rfl⟩ | ⟨rfl, rfl⟩ | ⟨rfl, rfl⟩ | ⟨a', b', c', rfl, rfl, rfl, hmerge⟩ :=
      merge?_cases h
    · simp
    · simp
    · simp
    · exact ih ht hmerge
  | _ =>
    obtain ⟨rfl, rfl⟩ | ⟨rfl, rfl⟩ | ⟨rfl, rfl⟩ | ⟨a', b', c', rfl, rfl, rfl, -⟩ := merge?_cases h
    · simp
    · simp
    · simp
    · simp [accepts]

/-- Types that one type without `any` accepts can be merged. -/
theorem exists_merge? {t a b : Ty} (ht : t.isDeclarable = true) (ha : t.accepts a = true)
    (hb : t.accepts b = true) : ∃ c, a.merge? b = some c := by
  rw [← Option.isSome_iff_exists, isSome_merge?]
  induction t generalizing a b with
  | list t ih =>
    cases a <;> cases b <;> simp_all [accepts, isDeclarable]
  | any => cases ht
  | _ => cases a <;> cases b <;> simp_all [accepts]

end Ty

/-! ## §2. The elements of a list -/

/-- What becomes of an expression under a declared type, if only its type counts: it
    has one that is accepted, or one that is not known. -/
def Ty.Admits (declared : Ty) (r : Except ParseError (Option Ty)) : Prop :=
  ∃ t, r = .ok t ∧ ∀ u, t = some u → declared.accepts u = true

theorem Ty.admits_ok (declared : Ty) (t : Option Ty) :
    declared.Admits (.ok t) ↔ ∀ u, t = some u → declared.accepts u = true := by
  constructor
  · intro h
    obtain ⟨t', ht', haccepts⟩ := h
    obtain rfl : t = t' := Except.ok.inj ht'
    exact haccepts
  · intro h
    exact ⟨t, rfl, h⟩

theorem Ty.not_admits_error (declared : Ty) (e : ParseError) : ¬ declared.Admits (.error e) := by
  intro h
  obtain ⟨t, ht, -⟩ := h
  cases ht

/-- Both routes come to the same verdict on an expression. -/
def SameVerdict (env : Env) (e : Expr) : Prop :=
  ∀ declared name pos, declared.isDeclarable = true →
    (checkAgainst env declared name pos e = .ok () ↔ declared.Admits (infer env e))

section
variable {env : Env} {es : List Expr}

/-- The elements pass one by one just when each of them does. -/
theorem checkElements_iff (declared : Ty) (name : Bytes) :
    checkElements env declared name es = .ok ()
      ↔ ∀ e ∈ es, checkType env declared e name = .ok () := by
  induction es with
  | nil => simp [checkElements]
  | cons e rest ih =>
    rw [checkElements, List.forall_mem_cons, ← ih]
    show (checkType env declared e name >>= fun _ => checkElements env declared name rest) = .ok ()
      ↔ _
    cases checkType env declared e name with
    | ok _ => simp [bind, Except.bind]
    | error f => simp [bind, Except.bind]

/-- The types of the elements merge to an accepted one just when all of them are
    accepted, and so is what they are merged with. -/
theorem inferElements_accepted_iff {elem : Ty} (helem : elem.isDeclarable = true) (name : Bytes)
    (h : ∀ e ∈ es, SameVerdict env e) (merged : Ty) :
    (∃ t, inferElements env merged es = .ok t ∧ elem.accepts t = true)
      ↔ elem.accepts merged = true ∧ ∀ e ∈ es, checkType env elem e name = .ok () := by
  induction es generalizing merged with
  | nil => simp [inferElements]
  | cons e rest ih =>
    obtain ⟨hhead, htail⟩ := List.forall_mem_cons.mp h
    have he : checkType env elem e name = .ok () ↔ elem.Admits (infer env e) :=
      hhead elem name e.pos helem
    rw [inferElements, List.forall_mem_cons, he]
    cases infer env e with
    | error f => simp [bind, Except.bind, elem.not_admits_error f]
    | ok t =>
      rw [Ty.admits_ok]
      cases t with
      -- of an element of unknown type nothing is asked, and it changes nothing
      | none =>
        show (∃ u, inferElements env merged rest = .ok u ∧ _) ↔ _
        rw [ih htail merged]
        simp
      | some t =>
        simp only [bind, Except.bind, Option.some.injEq, forall_eq']
        cases hmerge : merged.merge? t with
        | some finer =>
          show (∃ u, inferElements env finer rest = .ok u ∧ _) ↔ _
          rw [ih htail finer, Ty.accepts_merge? helem hmerge, and_assoc]
        -- two types that are accepted would merge
        | none =>
          constructor
          · intro hfails
            obtain ⟨u, hu, -⟩ := hfails
            cases hu
          · intro hpass
            obtain ⟨c, hc⟩ := Ty.exists_merge? helem hpass.1 hpass.2.1
            rw [hmerge] at hc
            cases hc

end

/-! ## §3. Expressions -/

/-- Where no more than the type of an expression counts, there is one route only. -/
theorem sameVerdict_of_isPlain (env : Env) {e : Expr} (h : e.isPlain = true) :
    SameVerdict env e := by
  intro declared name pos _
  rw [checkAgainst_of_infer h]
  cases infer env e with
  | error f => simp [bind, Except.bind, declared.not_admits_error f]
  | ok t =>
    rw [Ty.admits_ok]
    cases t with
    | none => simp [bind, Except.bind]
    | some t =>
      show (if declared.accepts t = true then Except.ok () else _) = _ ↔ _
      by_cases haccepts : declared.accepts t = true
      · simp [haccepts]
      · simp [haccepts]

/-- Both routes come to the same verdict on every expression.  Only parentheses and list
    literals are looked into. -/
theorem checkAgainst_iff_infer (env : Env) (e : Expr) : SameVerdict env e := by
  induction e with
  | group p inner ih =>
    intro declared name pos hdecl
    rw [checkAgainst, infer_group]
    exact ih declared name pos hdecl
  | list p elements ih =>
    intro declared name pos hdecl
    have hlist : declared.Admits (infer env (.list p elements))
        ↔ ∃ t, inferElements env .any elements = .ok t ∧ declared.accepts (.list t) = true := by
      rw [infer]
      cases inferElements env .any elements with
      | error f => simp [bind, Except.bind, declared.not_admits_error f]
      | ok t =>
        show declared.Admits (.ok (some (.list t))) ↔ _
        rw [Ty.admits_ok]
        simp
    rw [hlist]
    cases declared with
    | list elem =>
      have helem : elem.isDeclarable = true := hdecl
      rw [checkAgainst, checkElements_iff]
      show _ ↔ ∃ t, _ ∧ elem.accepts t = true
      rw [inferElements_accepted_iff helem name ih, Ty.accepts_any]
      simp
    | any => cases hdecl
    -- a list literal is no value of a scalar type, and its type is no scalar type
    | _ => simp [checkAgainst, Ty.accepts]
  | _ => exact sameVerdict_of_isPlain env rfl

/-- Neither route minds parentheses around an expression. -/
theorem checkAgainst_ungrouped (env : Env) (declared : Ty) (name : Bytes) (pos : Pos) (e : Expr) :
    checkAgainst env declared name pos e.ungrouped = checkAgainst env declared name pos e := by
  induction e with
  | group p inner ih => rw [Expr.ungrouped, checkAgainst, ih]
  | _ => rfl

/-- **The two routes agree.**  In any environment, an expression may stand under a type
    that can be declared just when it has a type and that is unknown or accepted.  In
    particular a list literal, in parentheses or not, is checked element by element,
    and passes just when the types of its elements merge to one that is accepted. -/
theorem routes_agree (env : Env) {declared : Ty} (hdecl : declared.isDeclarable = true) (e : Expr)
    (name : Bytes) :
    (checkType env declared e name = .ok ()
        ↔ ∃ t, infer env e = .ok t ∧ ∀ u, t = some u → declared.accepts u = true)
      ∧ ∀ p elements elem, e.ungrouped = .list p elements → declared = .list elem →
        (checkType env declared e name = .ok ()
            ↔ ∀ x ∈ elements, checkType env elem x name = .ok ())
          ∧ (checkType env declared e name = .ok ()
            ↔ ∃ t, inferElements env .any elements = .ok t ∧ elem.accepts t = true) := by
  refine ⟨checkAgainst_iff_infer env e declared name e.pos hdecl, ?_⟩
  intro p elements elem hlist hdeclared
  subst hdeclared
  have helem : elem.isDeclarable = true := hdecl
  have hverdict : ∀ x ∈ elements, SameVerdict env x := fun x _ => checkAgainst_iff_infer env x
  have hmerged := inferElements_accepted_iff helem name hverdict .any
  -- parentheses are looked through, and then each element is checked on its own
  have hchecks : checkType env (.list elem) e name = .ok ()
      ↔ ∀ x ∈ elements, checkType env elem x name = .ok () := by
    unfold checkType
    rw [← checkAgainst_ungrouped, hlist, checkAgainst]
    exact checkElements_iff elem name
  refine ⟨hchecks, ?_⟩
  rw [hchecks, hmerged, Ty.accepts_any]
  simp

/-- The list `([[], (f()), [1]])`. -/
def nestedLists : Expr :=
  .group {} (.list {} [.list {} [], .group {} (.call {} [102] []),
    .list {} [.literal {} (.int 1)]])

/-- Its elements merge to a list of integers, so it may stand under `list<list<int>>`, and
    each of them under `list<int>`; but it may not stand under `list<list<bool>>`. -/
theorem routes_agree_nested :
    (Ty.list (.list .int)).isDeclarable = true ∧ (Ty.list (.list .bool)).isDeclarable = true
      ∧ infer .empty nestedLists = .ok (some (.list (.list .int)))
      ∧ checkType .empty (.list (.list .int)) nestedLists [] = .ok ()
      ∧ checkType .empty (.list .int) (.group {} (.call {} [102] [])) [] = .ok ()
      ∧ checkType .empty (.list (.list .bool)) nestedLists [] ≠ .ok () := by
  have hinfer : infer .empty nestedLists = .ok (some (.list (.list .int))) := by
    simp only [nestedLists, infer, inferElements, inferEach]
    rfl
  have hcheck : checkType .empty (.list (.list .int)) nestedLists [] = .ok () := by
    apply (routes_agree .empty rfl nestedLists []).1.mpr
    refine ⟨_, hinfer, ?_⟩
    intro u hu
    cases hu
    rfl
  have hcall := ((routes_agree .empty rfl nestedLists []).2 {} _ _ rfl rfl).1.mp hcheck
    (.group {} (.call {} [102] [])) (by simp)
  refine ⟨rfl, rfl, hinfer, hcheck, hcall, ?_⟩
  intro hbools
  obtain ⟨t, ht, haccepts⟩ := (routes_agree .empty rfl nestedLists []).1.mp hbools
  rw [hinfer] at ht
  cases ht
  exact absurd (haccepts _ rfl) (by decide)

end Lumen
