/-
  Lumen.Proofs.Checking.Misfits — the first part of a value that does not fit.

  Whether a value fits a type is told by a rule for each shape of values.  What is
  unknown fits, and so does anything where any type will do; a constant fits its own
  type, and a list fits a list type if all its items fit the element type.

  Where a value does not fit, some part of it clashes with the type that is wanted of
  it: one of them is a list and the other is not, or a constant has another scalar type.
  The search goes through the items from the first to the last and into each of them,
  and names the first such part by the indices that lead to it.  Each index goes with
  one `list` of the type, and all items in front of the one it picks fit.

  Main statements:
    * `Fits`, `Clashes`, `Leads` — fitting, clashing by itself, and the way to a part;
    * `misfitItem?_eq_none_iff` / `misfitItem?_eq_some_iff` — the search among items;
    * `misfit?_eq_none_iff` / `misfit?_eq_some_iff` — the search in a value;
    * `Leads.eq_whole_iff` — only the empty way leads to the value itself;
    * `first_misfit` — verdict and place together.
-/
import Mathlib.Logic.Function.Iterate
import Lumen.Value

namespace Lumen

theorem Ty.isList_cases (t : Ty) : (∃ elem, t = .list elem) ∨ t.isList = false := by
  cases t with
  | list elem => exact .inl ⟨elem, rfl⟩
  | _ => exact .inr rfl

namespace Value

/-! ## §1. Fitting and clashing -/

/-- Induction on values; the items of a list count as its parts. -/
theorem ind {motive : Value → Prop} (unknown : motive .unknown)
    (scalar : ∀ v, motive (.scalar v))
    (list : ∀ items, (∀ v ∈ items, motive v) → motive (.list items)) (v : Value) : motive v :=
  @Value.rec motive (fun vs => ∀ v ∈ vs, motive v) unknown scalar list
    (fun _ h => by cases h)
    (fun _ _ hhead htail => List.forall_mem_cons.mpr ⟨hhead, htail⟩) v

/-- A value fits a type, as far as it is known. -/
inductive Fits : Ty → Value → Prop where
  | unknown (t : Ty) : Fits t .unknown
  | any (v : Value) : Fits .any v
  | scalar {t : Ty} {v : Literal} (h : t = Ty.ofLiteral v) : Fits t (.scalar v)
  | list {elem : Ty} {items : List Value} (h : ∀ v ∈ items, Fits elem v) :
    Fits (.list elem) (.list items)

/-- A value does not fit a type by itself, whatever its items are: it is a constant of
    another type, or a list where none is wanted. -/
inductive Clashes : Ty → Value → Prop where
  | scalar {t : Ty} {v : Literal} (hany : t ≠ .any) (h : t ≠ Ty.ofLiteral v) :
    Clashes t (.scalar v)
  | list {t : Ty} {items : List Value} (hany : t ≠ .any) (h : t.isList = false) :
    Clashes t (.list items)

theorem fits_list_iff {elem : Ty} {items : List Value} :
    Fits (.list elem) (.list items) ↔ ∀ v ∈ items, Fits elem v := by
  constructor
  · intro h
    cases h with
    | list hitems => exact hitems
  · exact .list

theorem Clashes.not_fits {t : Ty} {v : Value} (h : Clashes t v) : ¬ Fits t v := by
  intro hfits
  cases h with
  | scalar hany hother =>
    cases hfits with
    | any => exact hany rfl
    | scalar hsame => exact hother hsame
  | list hany hlist =>
    cases hfits with
    | any => exact hany rfl
    | list => cases hlist

/-- Where value and type are not both lists, the search comes to an end at once. -/
theorem misfit?_settled {t : Ty} {v : Value} (h : t.isList = false ∨ v.isList = false) :
    (misfit? t v = none ∧ Fits t v) ∨ misfit? t v = some ⟨[], v⟩ ∧ Clashes t v := by
  cases v with
  | unknown => exact .inl ⟨misfit?_unknown t, .unknown t⟩
  | scalar v =>
    -- a scalar is looked at once, whatever the type
    have hrule : misfit? t (.scalar v)
        = if scalarFits t v then none else some ⟨[], .scalar v⟩ := by
      cases t <;> rw [misfit?]
    rw [hrule]
    by_cases hfits : scalarFits t v = true
    · rw [if_pos hfits]
      simp only [scalarFits, Bool.or_eq_true, beq_iff_eq] at hfits
      rcases hfits with rfl | hsame
      · exact .inl ⟨rfl, .any _⟩
      · exact .inl ⟨rfl, .scalar hsame⟩
    · rw [if_neg hfits]
      simp only [scalarFits, Bool.or_eq_true, beq_iff_eq, not_or] at hfits
      exact .inr ⟨rfl, .scalar hfits.1 hfits.2⟩
  | list items =>
    have ht : t.isList = false := by
      rcases h with ht | hlist
      · exact ht
      · cases hlist
    cases t with
    | any => exact .inl ⟨by rw [misfit?], .any _⟩
    | list elem => cases ht
    | _ => exact .inr ⟨by simp [misfit?], .list (by simp) rfl⟩

/-! ## §2. Items -/

section
variable {elem : Ty} {items : List Value}

theorem misfitItem?_eq_none_iff (index : Nat) :
    misfitItem? elem index items = none ↔ ∀ v ∈ items, misfit? elem v = none := by
  induction items generalizing index with
  | nil => simp [misfitItem?]
  | cons v items ih =>
    rw [misfitItem?, List.forall_mem_cons, ← ih (index + 1)]
    cases misfit? elem v <;> simp

/-- The item to blame is the first that does not fit. -/
theorem misfitItem?_eq_some_iff (index : Nat) {m : Misfit} :
    misfitItem? elem index items = some m
      ↔ ∃ before item after inner, items = before ++ item :: after
        ∧ (∀ v ∈ before, misfit? elem v = none) ∧ misfit? elem item = some inner
        ∧ m = inner.inside (index + before.length) := by
  induction items generalizing index with
  | nil => simp [misfitItem?]
  | cons v items ih =>
    rw [misfitItem?]
    cases hv : misfit? elem v with
    | some inner =>
      show some (inner.inside index) = some m ↔ _
      constructor
      · intro h
        exact ⟨[], v, items, inner, rfl, List.forall_mem_nil _, hv, (Option.some.inj h).symm⟩
      · rintro ⟨before, item, after, inner', hsplit, hbefore, hitem, rfl⟩
        -- the first item does not fit, so that none comes before the one to blame
        have hnil : before = [] := by
          cases before with
          | nil => rfl
          | cons w before =>
            obtain ⟨rfl, -⟩ := List.cons.inj hsplit
            rw [hbefore v List.mem_cons_self] at hv
            cases hv
        subst hnil
        obtain ⟨rfl, -⟩ := List.cons.inj hsplit
        obtain rfl := Option.some.inj (hv.symm.trans hitem)
        rfl
    | none =>
      show misfitItem? elem (index + 1) items = some m ↔ _
      have hindex : ∀ before : List Value,
          index + 1 + before.length = index + (v :: before).length := by
        intro before
        rw [List.length_cons]
        omega
      rw [ih (index + 1)]
      constructor
      · rintro ⟨before, item, after, inner, rfl, hbefore, hitem, rfl⟩
        rw [hindex]
        exact ⟨v :: before, item, after, inner, rfl, List.forall_mem_cons.mpr ⟨hv, hbefore⟩,
          hitem, rfl⟩
      · rintro ⟨before, item, after, inner, hsplit, hbefore, hitem, rfl⟩
        cases before with
        | nil =>
          obtain ⟨rfl, -⟩ := List.cons.inj hsplit
          rw [hv] at hitem
          cases hitem
        | cons w before =>
          obtain ⟨rfl, rfl⟩ := List.cons.inj hsplit
          rw [← hindex]
          exact ⟨before, item, after, inner, rfl, (List.forall_mem_cons.mp hbefore).2, hitem, rfl⟩

end

theorem misfit?_list (elem : Ty) (items : List Value) :
    misfit? (.list elem) (.list items) = misfitItem? elem 0 items := by
  rw [misfit?]

/-! ## §3. The verdict and the place -/

/-- Some indices lead from a value to a part of it, and from the type that is wanted of
    the value to the one that is wanted of the part.  Each picks an item of a list in front
    of which all items fit. -/
inductive Leads : Ty → Value → List Nat → Ty → Value → Prop where
  | whole (t : Ty) (v : Value) : Leads t v [] t v
  | inside {elem rest : Ty} {before after : List Value} {item part : Value} {path : List Nat}
    (hbefore : ∀ v ∈ before, Fits elem v) (h : Leads elem item path rest part) :
    Leads (.list elem) (.list (before ++ item :: after)) (before.length :: path) rest part

section
variable {t rest : Ty} {v part : Value} {path : List Nat}

/-- With every index one `list` of the type is stripped. -/
theorem Leads.type_eq (h : Leads t v path rest part) : t = Ty.list^[path.length] rest := by
  induction h with
  | whole => rfl
  | inside hbefore h ih =>
    rw [List.length_cons, Function.iterate_succ_apply', ← ih]

theorem Leads.sizeOf_le (h : Leads t v path rest part) :
    sizeOf part + path.length ≤ sizeOf v := by
  induction h with
  | whole => exact Nat.le_refl _
  | @inside elem rest before after item part path hbefore h ih =>
    have hitem : sizeOf item < sizeOf (before ++ item :: after) :=
      List.sizeOf_lt_of_mem (by simp)
    rw [Value.list.sizeOf_spec, List.length_cons]
    omega

/-- Only the empty way leads to the value itself: other parts are smaller. -/
theorem Leads.eq_whole_iff (h : Leads t v path rest part) : part = v ↔ path = [] := by
  constructor
  · rintro rfl
    have hsize := h.sizeOf_le
    exact List.length_eq_zero_iff.mp (by omega)
  · rintro rfl
    cases h
    rfl

/-- Where value and type are not both lists, no index leads anywhere. -/
theorem Leads.of_settled (hsettled : t.isList = false ∨ v.isList = false)
    (h : Leads t v path rest part) : path = [] ∧ rest = t ∧ part = v := by
  cases h with
  | whole => exact ⟨rfl, rfl, rfl⟩
  | inside hbefore h =>
    rcases hsettled with ht | hv
    · cases ht
    · cases hv

end

/-- Nothing is to blame just if the value fits. -/
theorem misfit?_eq_none_iff (t : Ty) (v : Value) : misfit? t v = none ↔ Fits t v := by
  have hsettled : ∀ {t : Ty} {v : Value}, t.isList = false ∨ v.isList = false →
      (misfit? t v = none ↔ Fits t v) := by
    intro t v h
    rcases misfit?_settled h with ⟨hnone, hfits⟩ | ⟨hsome, hclash⟩
    · exact iff_of_true hnone hfits
    · exact iff_of_false (by rw [hsome]; simp) hclash.not_fits
  induction v using ind generalizing t with
  | unknown => exact hsettled (.inr rfl)
  | scalar v => exact hsettled (.inr rfl)
  | list items ih =>
    rcases t.isList_cases with ⟨elem, rfl⟩ | ht
    · rw [misfit?_list, misfitItem?_eq_none_iff, fits_list_iff]
      exact forall₂_congr fun v hv => ih v hv elem
    · exact hsettled (.inl ht)

/-- A part is to blame just if it clashes with what is wanted of it, and all items in front
    of the way to it fit. -/
theorem misfit?_eq_some_iff (t : Ty) (v : Value) (m : Misfit) :
    misfit? t v = some m ↔ ∃ rest, Leads t v m.path rest m.value ∧ Clashes rest m.value := by
  have hsettled : ∀ {t : Ty} {v : Value}, t.isList = false ∨ v.isList = false → ∀ m : Misfit,
      (misfit? t v = some m ↔ ∃ rest, Leads t v m.path rest m.value ∧ Clashes rest m.value) := by
    intro t v h m
    obtain ⟨path, part⟩ := m
    constructor
    · intro hm
      rcases misfit?_settled h with ⟨hnone, -⟩ | ⟨hsome, hclash⟩
      · rw [hnone] at hm
        cases hm
      · rw [hsome] at hm
        cases hm
        exact ⟨t, .whole t v, hclash⟩
    · rintro ⟨rest, hleads, hclash⟩
      obtain ⟨hpath, rfl, rfl⟩ := hleads.of_settled h
      obtain rfl : path = [] := hpath
      rcases misfit?_settled h with ⟨-, hfits⟩ | ⟨hsome, -⟩
      · exact absurd hfits hclash.not_fits
      · exact hsome
  induction v using ind generalizing t m with
  | unknown => exact hsettled (.inr rfl) m
  | scalar v => exact hsettled (.inr rfl) m
  | list items ih =>
    rcases t.isList_cases with ⟨elem, rfl⟩ | ht
    · rw [misfit?_list, misfitItem?_eq_some_iff]
      constructor
      · rintro ⟨before, item, after, inner, rfl, hbefore, hitem, rfl⟩
        obtain ⟨rest, hleads, hclash⟩ := (ih item (by simp) elem inner).mp hitem
        rw [Nat.zero_add]
        exact ⟨rest, .inside (fun v hv => (misfit?_eq_none_iff elem v).mp (hbefore v hv)) hleads,
          hclash⟩
      · obtain ⟨path, part⟩ := m
        rintro ⟨rest, hleads, hclash⟩
        -- the way is empty, or its first index picks the item to blame
        cases hleads with
        | whole =>
          -- a list does not clash with a list type
          cases hclash with
          | list hany hlist => cases hlist
        | @inside elem rest before after item part path hbefore hleads =>
          refine ⟨before, item, after, ⟨path, part⟩, rfl, ?_, ?_, ?_⟩
          · exact fun v hv => (misfit?_eq_none_iff elem v).mpr (hbefore v hv)
          · exact (ih item (by simp) elem ⟨path, part⟩).mpr ⟨rest, hleads, hclash⟩
          · rw [Nat.zero_add]
            rfl
    · exact hsettled (.inl ht) m

/-- **The first part that does not fit.**  Of any value and any type the search says that
    nothing is to blame just if the value fits.  What it blames otherwise is the one part that
    clashes by itself with what is left of the type, a `list` having been stripped for each
    index, such that on the way to it all items in front of the chosen ones fit; and that is
    the value itself just if no index leads to it. -/
theorem first_misfit (t : Ty) (v : Value) :
    (misfit? t v = none ↔ Fits t v)
      ∧ ∀ m, misfit? t v = some m
        ↔ ∃ rest, t = Ty.list^[m.path.length] rest ∧ Leads t v m.path rest m.value
          ∧ Clashes rest m.value ∧ (m.value = v ↔ m.path = []) := by
  refine ⟨misfit?_eq_none_iff t v, fun m => (misfit?_eq_some_iff t v m).trans ?_⟩
  constructor
  · rintro ⟨rest, hleads, hclash⟩
    exact ⟨rest, hleads.type_eq, hleads, hclash, hleads.eq_whole_iff⟩
  · rintro ⟨rest, -, hleads, hclash, -⟩
    exact ⟨rest, hleads, hclash⟩

/-- Of `[[], [1, true]]`, where lists of lists of integers are wanted, the second item of the
    second item is to blame. -/
example : (misfit? (.list (.list .int))
      (.list [.list [], .list [.scalar (.int 1), .scalar (.bool true)]])).map Misfit.path
    = some [1, 1] := by decide

end Value
end Lumen
