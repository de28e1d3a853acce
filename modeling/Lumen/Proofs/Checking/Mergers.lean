/-
  Lumen.Proofs.Checking.Mergers — merging types in any order.

  Of two types one may say less than the other: it has `any` where the other has
  something.  To merge two types is to take the least one that says what both of
  them say, and this fails just when no type does.  So a merger does not depend on
  the order of its two sides, and of three types it does not matter which two are
  merged first.

  The type of a list literal merges the types of its elements one after the other,
  and passes over the elements of which no type is known.  By the laws of mergers two
  neighbours may change places, and so may all the elements.  Which element is
  blamed if the types do not merge does depend on the order.

  Main statements:
    * `Ty.merge?_eq_some_iff` — the merger is the least upper bound;
    * `Ty.merge?_comm` / `Ty.merge?_assoc` — the order of mergers;
    * `inferElements_perm` — the elements of a list in any order;
    * `mergers_join` — the laws, and what follows for list literals.
-/
import Lumen.Proofs.Checking.Routes

namespace Lumen

/-! ## §1. What types say -/

namespace Ty

/-- A type says no more than another one: they differ only where the first has
    `any`. -/
inductive Vaguer : Ty → Ty → Prop where
  | any (t : Ty) : Vaguer any t
  | refl (t : Ty) : Vaguer t t
  | list {a b : Ty} (h : Vaguer a b) : Vaguer (list a) (list b)

theorem vaguer_any_iff {a : Ty} : a.Vaguer any ↔ a = any := by
  constructor
  · intro h
    cases h <;> rfl
  · rintro rfl
    exact .any any

/-- Only lists say at least as much as a list. -/
theorem list_vaguer_iff {a t : Ty} : (list a).Vaguer t ↔ ∃ b, t = list b ∧ a.Vaguer b := by
  constructor
  · intro h
    cases h with
    | refl => exact ⟨a, rfl, .refl a⟩
    | list h => exact ⟨_, rfl, h⟩
  · rintro ⟨b, rfl, h⟩
    exact .list h

theorem Vaguer.antisymm {a b : Ty} (h : a.Vaguer b) (h' : b.Vaguer a) : a = b := by
  induction h with
  | any t => exact (vaguer_any_iff.mp h').symm
  | refl t => rfl
  | list h ih =>
    obtain ⟨_, heq, hback⟩ := list_vaguer_iff.mp h'
    cases heq
    rw [ih hback]

/-! ## §2. Mergers -/

@[simp] theorem any_merge? (b : Ty) : any.merge? b = some b := by cases b <;> rfl

@[simp] theorem merge?_any (a : Ty) : a.merge? any = some a := by cases a <;> rfl

@[simp] theorem list_merge?_list (a b : Ty) :
    (list a).merge? (list b) = (a.merge? b).map list := rfl

theorem merge?_comm (a b : Ty) : a.merge? b = b.merge? a := by
  induction a generalizing b with
  | any => simp
  | list a ih =>
    cases b with
    | list b => simp [ih b]
    | _ => rfl
  | _ => cases b <;> rfl

/-- Of three types any two may be merged first. -/
theorem merge?_assoc (a b c : Ty) :
    (b.merge? c).bind a.merge? = (a.merge? b).bind fun d => d.merge? c := by
  induction a generalizing b c with
  | any =>
    have hany : any.merge? = some := funext any_merge?
    rw [hany, Option.bind_fun_some, Option.bind_some]
  | list a ih =>
    cases b with
    | any => simp
    | list b =>
      cases c with
      | any => simp
      -- below the lists the same law holds
      | list c =>
        have hinner := congrArg (Option.map list) (ih b c)
        rw [Option.map_bind, Option.map_bind] at hinner
        simpa [Option.bind_map, Function.comp_def] using hinner
      | _ => simp [merge?, Option.bind_map, Function.comp_def]
    | _ => cases c <;> simp [merge?]
  | _ => cases b <;> cases c <;> simp [merge?]

/-- What says at least as much as each of two types says at least as much as their
    merger, and the other way round. -/
theorem vaguer_iff_of_merge? {a b c : Ty} (h : a.merge? b = some c) (d : Ty) :
    c.Vaguer d ↔ a.Vaguer d ∧ b.Vaguer d := by
  induction c generalizing a b d with
  | list c ih =>
    obtain ⟨rfl, rfl⟩ | ⟨rfl, rfl⟩ | ⟨rfl, rfl⟩ | ⟨a', b', c', rfl, rfl, heq, hmerge⟩ :=
      merge?_cases h
    · simp [Vaguer.any]
    · simp [Vaguer.any]
    · exact (and_self_iff).symm
    · obtain rfl := Ty.list.inj heq
      simp only [list_vaguer_iff, ih hmerge]
      constructor
      · rintro ⟨e, rfl, ha, hb⟩
        exact ⟨⟨e, rfl, ha⟩, e, rfl, hb⟩
      · rintro ⟨⟨e, rfl, ha⟩, e', heq', hb⟩
        cases heq'
        exact ⟨e, rfl, ha, hb⟩
  | _ =>
    obtain ⟨rfl, rfl⟩ | ⟨rfl, rfl⟩ | ⟨rfl, rfl⟩ | ⟨a', b', c', rfl, rfl, heq, hmerge⟩ :=
      merge?_cases h
    · simp [Vaguer.any]
    · simp [Vaguer.any]
    · exact (and_self_iff).symm
    · cases heq

/-- Two types merge if some type says what both of them say. -/
theorem exists_merge?_of_vaguer {a b d : Ty} (ha : a.Vaguer d) (hb : b.Vaguer d) :
    ∃ c, a.merge? b = some c := by
  induction ha generalizing b with
  | any d => exact ⟨b, any_merge? b⟩
  | refl a =>
    -- one side says what both say, so it is the merger
    induction hb with
    | any a => exact ⟨a, merge?_any a⟩
    | refl a => exact ⟨a, a.merge?_self⟩
    | list hb ih =>
      obtain ⟨c, hc⟩ := ih
      exact ⟨list c, by rw [list_merge?_list, hc]; rfl⟩
  | @list a d ha ih =>
    cases hb with
    | any => exact ⟨list a, merge?_any (list a)⟩
    | refl =>
      obtain ⟨c, hc⟩ := ih (.refl d)
      exact ⟨list c, by rw [list_merge?_list, hc]; rfl⟩
    | list hb =>
      obtain ⟨c, hc⟩ := ih hb
      exact ⟨list c, by rw [list_merge?_list, hc]; rfl⟩

/-- The merger is the least type that says what both sides say, and there is one if any
    type says that. -/
theorem merge?_eq_some_iff {a b c : Ty} :
    a.merge? b = some c ↔ ∀ d, c.Vaguer d ↔ a.Vaguer d ∧ b.Vaguer d := by
  constructor
  · exact vaguer_iff_of_merge?
  · intro hleast
    obtain ⟨ha, hb⟩ := (hleast c).mp (.refl c)
    obtain ⟨m, hm⟩ := exists_merge?_of_vaguer ha hb
    have hbelow : m.Vaguer c := (vaguer_iff_of_merge? hm c).mpr ⟨ha, hb⟩
    have habove : c.Vaguer m := (hleast m).mpr ((vaguer_iff_of_merge? hm m).mp (.refl m))
    rw [hm, hbelow.antisymm habove]

end Ty

/-! ## §3. The elements of a list -/

namespace Ty

/-- A type merged with that of one more element, if it is known. -/
def absorb? (merged : Ty) : Option Ty → Option Ty
  | none => some merged
  | some t => merged.merge? t

/-- Two elements may change places. -/
theorem absorb?_right_comm (merged : Ty) (t u : Option Ty) :
    (merged.absorb? t).bind (·.absorb? u) = (merged.absorb? u).bind (·.absorb? t) := by
  cases t with
  | none => simp [absorb?]
  | some t =>
    cases u with
    | none => simp [absorb?]
    | some u =>
      calc (merged.merge? t).bind (·.merge? u)
          = (t.merge? u).bind merged.merge? := (merge?_assoc merged t u).symm
        _ = (u.merge? t).bind merged.merge? := by rw [merge?_comm]
        _ = (merged.merge? u).bind (·.merge? t) := merge?_assoc merged u t

end Ty

/-- The types of some elements merge just when the first element has a type, that is
    absorbed, and the others merge with what comes out. -/
theorem inferElements_cons_eq_ok_iff {env : Env} {merged result : Ty} {e : Expr}
    {rest : List Expr} :
    inferElements env merged (e :: rest) = .ok result
      ↔ ∃ t finer, infer env e = .ok t ∧ merged.absorb? t = some finer
          ∧ inferElements env finer rest = .ok result := by
  rw [inferElements]
  cases infer env e with
  | error f => simp [bind, Except.bind]
  | ok t =>
    cases t with
    | none => simp [bind, Except.bind, Ty.absorb?]
    | some t =>
      simp only [bind, Except.bind, Ty.absorb?]
      cases hmerge : merged.merge? t with
      | none => simp [hmerge]
      | some finer => simp [hmerge]

/-- The elements of a list may come in any order: what their types merge to is the
    same, or nothing in either order. -/
theorem inferElements_perm {env : Env} {es es' : List Expr} (h : es.Perm es') (merged result : Ty) :
    inferElements env merged es = .ok result ↔ inferElements env merged es' = .ok result := by
  induction h generalizing merged with
  | nil => exact Iff.rfl
  | cons e _ ih => simp only [inferElements_cons_eq_ok_iff, ih]
  | trans _ _ ih ih' => exact (ih merged).trans (ih' merged)
  | swap e e' rest =>
    have hswap : ∀ x y : Expr, inferElements env merged (x :: y :: rest) = .ok result →
        inferElements env merged (y :: x :: rest) = .ok result := by
      intro x y hxy
      obtain ⟨t, finer, hx, habsorb, hrest⟩ := inferElements_cons_eq_ok_iff.mp hxy
      obtain ⟨u, finest, hy, habsorb', hrest'⟩ := inferElements_cons_eq_ok_iff.mp hrest
      -- the two types are absorbed in the other order, with the same result
      have hboth : (merged.absorb? u).bind (·.absorb? t) = some finest := by
        rw [Ty.absorb?_right_comm, habsorb]
        exact habsorb'
      obtain ⟨mid, hu, ht⟩ := Option.bind_eq_some_iff.mp hboth
      exact inferElements_cons_eq_ok_iff.mpr
        ⟨u, mid, hy, hu, inferElements_cons_eq_ok_iff.mpr ⟨t, finest, hx, ht, hrest'⟩⟩
    exact ⟨hswap e' e, hswap e e'⟩

/-- A list literal has the type of lists of what its elements merge to. -/
theorem infer_list_eq_ok_iff {env : Env} {p : Pos} {es : List Expr} {t : Option Ty} :
    infer env (.list p es) = .ok t
      ↔ ∃ elem, inferElements env .any es = .ok elem ∧ t = some (.list elem) := by
  rw [infer]
  cases inferElements env .any es with
  | error f => simp [bind, Except.bind]
  | ok elem => simp [bind, Except.bind, pure, Except.pure, eq_comm]

/-! ## §4. Orders -/

/-- **Types merge in any order.**  Mergers commute, a type merged with itself or with
    `any` stays as it is, and of three types any two may be merged first.  Two types have
    a merger just when one accepts the other, in either direction, and then it is the
    least type that says what both of them say.  So in any environment a list literal and
    any permutation of it both have a type, which is the same, or both fail. -/
theorem mergers_join :
    (∀ a b : Ty, a.merge? b = b.merge? a)
      ∧ (∀ a : Ty, a.merge? a = some a ∧ a.merge? .any = some a)
      ∧ (∀ a b c : Ty, (b.merge? c).bind a.merge? = (a.merge? b).bind fun d => d.merge? c)
      ∧ (∀ a b : Ty, (a.merge? b).isSome = a.accepts b ∧ (a.merge? b).isSome = b.accepts a)
      ∧ (∀ a b c : Ty, a.merge? b = some c ↔ ∀ d, c.Vaguer d ↔ a.Vaguer d ∧ b.Vaguer d)
      ∧ ∀ (env : Env) (p p' : Pos) (es es' : List Expr), es.Perm es' →
          (∃ t, infer env (.list p es) = .ok t ∧ infer env (.list p' es') = .ok t)
            ∨ ∃ f f', infer env (.list p es) = .error f ∧ infer env (.list p' es') = .error f' := by
  refine ⟨Ty.merge?_comm, fun a => ⟨a.merge?_self, a.merge?_any⟩, Ty.merge?_assoc, ?_,
    fun a b c => Ty.merge?_eq_some_iff, ?_⟩
  · intro a b
    rw [← Ty.accepts_comm a b]
    exact ⟨a.isSome_merge? b, a.isSome_merge? b⟩
  · intro env p p' es es' hperm
    -- a literal has a type just if its elements merge, in either order
    have hsame : ∀ t, infer env (.list p es) = .ok t ↔ infer env (.list p' es') = .ok t := by
      intro t
      simp only [infer_list_eq_ok_iff, inferElements_perm hperm]
    cases h : infer env (.list p es) with
    | ok t => exact .inl ⟨t, rfl, (hsame t).mp h⟩
    | error f =>
      cases h' : infer env (.list p' es') with
      | ok t =>
        rw [(hsame t).mpr h'] at h
        cases h
      | error f' => exact .inr ⟨f, f', rfl, rfl⟩

/-- `[[], f(), [1]]` has the type `list<list<int>>`, and so has `[[1], [], f()]`. -/
theorem mergers_join_rotated :
    let call : Expr := .call {} [102] []
    let ones : Expr := .list {} [.literal {} (.int 1)]
    [.list {} [], call, ones].Perm [ones, .list {} [], call]
      ∧ infer .empty (.list {} [.list {} [], call, ones]) = .ok (some (.list (.list .int)))
      ∧ infer .empty (.list {} [ones, .list {} [], call]) = .ok (some (.list (.list .int))) := by
  intro call ones
  have hperm : [.list {} [], call, ones].Perm [ones, .list {} [], call] :=
    (List.perm_append_comm : ([.list {} [], call] ++ [ones]).Perm ([ones] ++ [.list {} [], call]))
  -- the lists that tell nothing of their elements take on the type of the last one
  have hinfer : infer .empty (.list {} [.list {} [], call, ones])
      = .ok (some (.list (.list .int))) := by
    simp only [call, ones, infer, inferElements, inferEach]
    rfl
  refine ⟨hperm, hinfer, ?_⟩
  obtain ⟨t, ht, ht'⟩ | ⟨f, f', hf, -⟩ := mergers_join.2.2.2.2.2 .empty {} {} _ _ hperm
  · rwa [← ht, hinfer] at ht'
  · rw [hinfer] at hf
    cases hf

end Lumen
