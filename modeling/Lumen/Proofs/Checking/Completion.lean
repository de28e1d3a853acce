/-
  Lumen.Proofs.Checking.Completion — what a checked run has read can be completed.

  A checked run that fails stops in the middle of the text.  When a check has made it
  stop, then all that is missing in what it has read are the words that close the
  open blocks.  With these in the place of the rest, an unchecked run reads
  something, and a walk over that finds the same error.  There is one error of the
  same kind that no check reports, the wrong type of a loop variable; but with this
  an unchecked run stops as well.  A checked run that succeeds has made the walk
  over what it gives itself, and another run reads the same where the same tokens
  stand.

  Both are said of one reader at a time, and pass through sequences.  How many
  steps the unchecked run has is left open: for all numbers of them it gives the
  same, unless they run out.

  Main statements:
    * `CompletedBy` — tokens to which only the ends of blocks are missing;
    * `Stuck` — readers that fail where the same tokens are left;
    * `Completable` — what is said of a reader;
    * `Completable.andThen` / `Completable.bind` — sequences;
    * `completable_peek` / `completable_optional` — looking ahead;
    * `checks_then` … `completable_inScope` — checks, changes and scopes.
-/
import Lumen.Proofs.Checking.Follows
import Lumen.Proofs.Reading.Rereads

namespace Lumen.Parse
open CursorM

/-! ## §1. Completions -/

/-- Whether some tokens are nothing but the ends of blocks. -/
def AllEnd (tokens : List Token) : Prop := ∀ t ∈ tokens, t.lexeme = .word .end_

theorem AllEnd.closes {r rest : List Token} (hr : AllEnd r) (h : Closes rest) :
    Closes (r ++ rest) := by
  cases r with
  | nil => exact h
  | cons t r =>
    intro t' ht'
    obtain rfl : t = t' := Option.some.inj ht'
    exact hr t List.mem_cons_self

theorem AllEnd.append {r r' : List Token} (h : AllEnd r) (h' : AllEnd r') : AllEnd (r ++ r') :=
  List.forall_mem_append.mpr ⟨h, h'⟩

theorem allEnd_nil : AllEnd [] := fun _ h => absurd h List.not_mem_nil

/-- Nothing is left, so a block may end. -/
theorem closes_nil : Closes [] := by
  intro t ht
  cases ht

theorem AllEnd.closes_self {r : List Token} (hr : AllEnd r) : Closes r :=
  List.append_nil r ▸ hr.closes closes_nil

section
variable {α β : Type} {F : α → Prop} {G : β → Prop}

/-- After the tokens `u` and the ends of some blocks, the readers `m` give one thing
    in `F`. -/
def CompletedBy (u : List Token) (m : Nat → ParseM α) (F : α → Prop) : Prop :=
  ∃ r a, AllEnd r ∧ F a ∧ ∀ (i : Nat) (d : State) (rest : List Token),
    d.cursor.ahead = u ++ (r ++ rest) → Closes rest → Yields (m i) d a rest

/-- At least `k` of the tokens at `c`, and the ends of some blocks, make the readers
    `m` give something in `F`. -/
def Completed (k : Nat) (m : Nat → ParseM α) (c : Cursor) (F : α → Prop) : Prop :=
  ∃ u v, k ≤ u.length ∧ c.ahead = u ++ v ∧ CompletedBy u m F

/-- Before the ends of some blocks, the readers `m` give something in `F`. -/
abbrev Finishes (m : Nat → ParseM α) (F : α → Prop) : Prop := CompletedBy [] m F

theorem CompletedBy.mono {u : List Token} {m : Nat → ParseM α} {F' : α → Prop}
    (h : CompletedBy u m F) (hF : ∀ a, F a → F' a) : CompletedBy u m F' := by
  obtain ⟨r, a, hr, ha, hyields⟩ := h
  exact ⟨r, a, hr, hF a ha, hyields⟩

/-- What is completed can be gone on from, if the rest comes to an end as well. -/
theorem CompletedBy.bind {u : List Token} {m : Nat → ParseM α} {k : Nat → α → ParseM β}
    (h : CompletedBy u m F) (hk : ∀ a, F a → Finishes (fun i => k i a) G) :
    CompletedBy u (fun i => m i >>= k i) G := by
  obtain ⟨r, a, hr, ha, hyields⟩ := h
  obtain ⟨r', b, hr', hb, hyields'⟩ := hk a ha
  refine ⟨r ++ r', b, hr.append hr', hb, ?_⟩
  intro i d rest hd hrest
  rw [List.append_assoc] at hd
  apply (hyields i d (r' ++ rest) hd (hr'.closes hrest)).bind
  exact fun t ht => hyields' i t rest ht hrest

theorem finishes_pure {a : α} (ha : F a) : Finishes (fun _ => pure a) F :=
  ⟨[], a, allEnd_nil, ha, fun _ _ _ hd _ => ⟨rfl, hd⟩⟩

theorem Completed.weaken {j k : Nat} {m : Nat → ParseM α} {c : Cursor} (h : Completed j m c F)
    (hle : k ≤ j) : Completed k m c F := by
  obtain ⟨u, v, hlen, hrest⟩ := h
  exact ⟨u, v, Nat.le_trans hle hlen, hrest⟩

/-- What was read before is read again. -/
theorem Completed.after {j k : Nat} {m : Nat → ParseM α} {f : Nat → α → ParseM β}
    {c c₁ : Cursor} {a : α} (h : ∀ i, Reread j (m i) c a c₁)
    (h' : Completed k (fun i => f i a) c₁ G) : Completed (j + k) (fun i => m i >>= f i) c G := by
  obtain ⟨u, hlen, hahead, -⟩ := h 0
  obtain ⟨v, w, hlen', hahead', r, b, hr, hb, hyields'⟩ := h'
  refine ⟨u ++ v, w, ?_, ?_, r, b, hr, hb, ?_⟩
  · rw [List.length_append]
    omega
  · rw [hahead, hahead', List.append_assoc]
  · intro i d rest hd hrest
    rw [List.append_assoc] at hd
    -- what follows the first part may be cut off, but only before the end of a block
    have hmid : Alike c₁.ahead (v ++ (r ++ rest)) := by
      rw [hahead']
      exact Alike.append (.inr (hr.closes hrest)) v
    -- whatever the number of steps, the same tokens have been read
    obtain ⟨u', -, hahead'', hyields⟩ := h i
    obtain rfl : u' = u := List.append_cancel_right (hahead''.symm.trans hahead)
    apply (hyields d _ hd hmid).bind
    intro d₁ hd₁
    exact hyields' i d₁ rest hd₁ hrest

/-- Where the same tokens are left to read, the readers `m` fail with `f`. -/
def Stuck (m : Nat → ParseM α) (c : Cursor) (f : Failure) : Prop :=
  ∀ (i : Nat) (d : State), d.cursor.ahead = c.ahead →
    Ends (m i) d (fun _ _ => False) fun f' _ => f' = f ∨ f' = .outOfSteps

/-- Readers that fail are followed by nothing. -/
theorem Stuck.bind {m : Nat → ParseM α} {k : Nat → α → ParseM β} {c : Cursor} {f : Failure}
    (h : Stuck m c f) : Stuck (fun i => m i >>= k i) c f := by
  intro i d hd
  apply (h i d hd).bind
  exact fun _ _ hfalse => hfalse.elim

/-- What was read before is read again, and then the readers fail. -/
theorem Stuck.after {j : Nat} {m : Nat → ParseM α} {k : Nat → α → ParseM β} {c c₁ : Cursor}
    {a : α} {f : Failure} (h : ∀ i, Reread j (m i) c a c₁) (h' : Stuck (fun i => k i a) c₁ f) :
    Stuck (fun i => m i >>= k i) c f := by
  intro i d hd
  obtain ⟨u, -, hahead, hyields⟩ := h i
  apply ((hyields d c₁.ahead (hd.trans hahead) (.inl rfl)).mono (fun _ _ ht => ht) ?_).bind
  · rintro a' d₁ ⟨rfl, hd₁⟩
    exact h' i d₁ hd₁
  · exact fun _ _ hsteps => .inr hsteps

/-- With a static error a checked run stops in what can be completed, or an unchecked
    run stops too. -/
def Halted (k : Nat) (m : Nat → ParseM α) (c : Cursor) (f : Failure) (F : α → Prop) : Prop :=
  f.isStatic = true → Completed k m c F ∨ Stuck m c f

theorem Halted.weaken {j k : Nat} {m : Nat → ParseM α} {c : Cursor} {f : Failure}
    (h : Halted j m c f F) (hle : k ≤ j) : Halted k m c f F :=
  fun hf => (h hf).imp_left fun hcompleted => hcompleted.weaken hle

/-- A reader of tokens reads again among readers of statements. -/
theorem Reread.lift {k : Nat} {m' : CursorM α} {c c' : Cursor} {a : α} (h : Reread k m' c a c') :
    Reread k (liftM m' : ParseM α) c a c' := by
  obtain ⟨u, hlen, hahead, hyields⟩ := h
  refine ⟨u, hlen, hahead, ?_⟩
  intro d rest hd halike
  unfold Yields
  rw [ends_lift]
  exact hyields d.cursor rest hd halike

/-! ## §2. Readers of statements -/

/-- A checked run `on` from a state, beside unchecked ones `off`.  If it gives
    something, then the walk `W` over that has come to the same environment, and at
    least `k` tokens have been read, which `off` reads alike.  If it stops with a
    static error, then at least `j` tokens can be completed to something where the
    walk finds this error, or `off` stops as well. -/
def CompletableAt (k j : Nat) (on : ParseM α) (off : Nat → ParseM α) (W : α → Walk)
    (s : State) : Prop :=
  Ends on s (fun a t => W a = .ok t.env ∧ ∀ i, Reread k (off i) s.cursor a t.cursor)
    fun f _ => Halted j off s.cursor f fun a => W a = .error f

/-- This is so for all states with a certain environment. -/
def Completable (k j : Nat) (on : ParseM α) (off : Nat → ParseM α) (env : Env)
    (W : α → Walk) : Prop :=
  ∀ s : State, s.env = env → CompletableAt k j on off W s

variable {k j : Nat} {on : ParseM α} {off : Nat → ParseM α} {env : Env} {W : α → Walk}

theorem CompletableAt.weaken {k' j' : Nat} {s : State} (h : CompletableAt k' j' on off W s)
    (hk : k ≤ k') (hj : j ≤ j') : CompletableAt k j on off W s := by
  apply h.mono
  · rintro a t ⟨hW, hread⟩
    exact ⟨hW, fun i => (hread i).weaken hk⟩
  · exact fun f t hhalted => hhalted.weaken hj

theorem Completable.weaken {k' j' : Nat} (h : Completable k' j' on off env W) (hk : k ≤ k')
    (hj : j ≤ j') : Completable k j on off env W := fun s hs => (h s hs).weaken hk hj

/-- It may be forgotten that something was read. -/
theorem Completable.forget (h : Completable 1 1 on off env W) : Completable 0 0 on off env W :=
  h.weaken (Nat.zero_le 1) (Nat.zero_le 1)

/-- An unchecked run without steps gives nothing, so nothing is asked of it. -/
theorem Completable.ofSteps (read : Nat → Nat → ParseM α) {n : Nat → Nat}
    (hzero : ∀ i, read i 0 = throw .outOfSteps)
    (h : Completable k j on (fun i => read i (n i - 1 + 1)) env W) :
    Completable k j on (fun i => read i (n i)) env W := by
  have hsteps : ∀ i, read i (n i) = throw .outOfSteps ∨ read i (n i) = read i (n i - 1 + 1) := by
    intro i
    rcases Nat.eq_zero_or_pos (n i) with hi | hi
    · exact .inl (hi ▸ hzero i)
    · exact .inr (congrArg _ (Nat.sub_add_cancel hi).symm)
  intro s hs
  apply (h s hs).mono
  · rintro a t ⟨hW, hread⟩
    refine ⟨hW, ?_⟩
    intro i
    show Reread k (read i (n i)) s.cursor a t.cursor
    rcases hsteps i with hi | hi
    · -- the run has no steps
      exact hi ▸ (hread i).outOfSteps
    · exact hi ▸ hread i
  · intro f t hhalted hf
    rcases hhalted hf with ⟨u, v, hlen, hahead, r, a, hr, ha, hyields⟩ | hstuck
    · refine .inl ⟨u, v, hlen, hahead, r, a, hr, ha, ?_⟩
      intro i d rest hd hrest
      show Yields (read i (n i)) d a rest
      rcases hsteps i with hi | hi
      · exact hi ▸ yields_outOfSteps d a rest
      · exact hi ▸ hyields i d rest hd hrest
    · refine .inr ?_
      intro i d hd
      show Ends (read i (n i)) d _ _
      rcases hsteps i with hi | hi
      · rw [hi]
        exact .inr rfl
      · exact hi ▸ hstuck i d hd

theorem completable_pure {a : α} (ha : W a = .ok env) :
    Completable 0 j (pure a) (fun _ => pure a) env W :=
  fun s hs => ⟨hs ▸ ha, fun _ => reread_pure s.cursor a⟩

theorem completable_throw {f : Failure} (hf : f.isStatic = false) :
    Completable k j (throw f) off env W := by
  intro s _ h
  rw [hf] at h
  cases h

theorem completable_unexpected (expected : Expected) :
    Completable k j (liftM (unexpected (α := α) expected)) off env W := by
  intro s _ h
  cases h

variable {kon : α → ParseM β} {koff : Nat → α → ParseM β} {W' : β → Walk}

/-- A sequence.  The walk may find an error in the first step; then the second has
    to come to an end. -/
theorem Completable.sequence {k₁ j₁ k₂ j₂ : Nat} (h : Completable k₁ j₁ on off env W)
    (hk : ∀ a env', W a = .ok env' →
      Completable k₂ j₂ (kon a) (fun i => koff i a) env' W')
    (hend : ∀ a f, W a = .error f → f.isStatic = true →
      Finishes (fun i => koff i a) fun b => W' b = .error f) :
    Completable (k₁ + k₂) (min j₁ (k₁ + j₂)) (on >>= kon) (fun i => off i >>= koff i)
      env W' := by
  intro s hs
  unfold CompletableAt
  rw [ends_bind]
  apply (h s hs).mono
  -- the first step gives something, and the second does or stops
  · rintro a t ⟨hW, hread⟩
    apply (hk a t.env hW t rfl).mono
    · rintro b u ⟨hW', hread'⟩
      exact ⟨hW', fun i => (hread i).bind (hread' i)⟩
    · intro f u hhalted hf
      rcases hhalted hf with hcompleted | hstuck
      · exact .inl ((Completed.after hread hcompleted).weaken (Nat.min_le_right _ _))
      · exact .inr (.after hread hstuck)
  -- the first step stops, and the second has nothing left to read
  · intro f t hhalted hf
    rcases hhalted hf with ⟨u, v, hlen, hahead, hu⟩ | hstuck
    · exact .inl ⟨u, v, Nat.le_trans (Nat.min_le_left _ _) hlen, hahead,
        hu.bind fun a ha => hend a f ha hf⟩
    · exact .inr hstuck.bind

/-- A sequence that starts with something that is read. -/
theorem Completable.andThen [AtMostOne k] [AtMostOne j] (h : Completable 1 1 on off env W)
    (hk : ∀ a env', W a = .ok env' → Completable 0 0 (kon a) (fun i => koff i a) env' W')
    (hend : ∀ a f, W a = .error f → f.isStatic = true →
      Finishes (fun i => koff i a) fun b => W' b = .error f) :
    Completable k j (on >>= kon) (fun i => off i >>= koff i) env W' :=
  (h.sequence hk hend).weaken AtMostOne.le_one
    (Nat.le_min.mpr ⟨AtMostOne.le_one, AtMostOne.le_one⟩)

/-- A sequence that starts with something that need not be there. -/
theorem Completable.bind (h : Completable 0 j on off env W)
    (hk : ∀ a env', W a = .ok env' → Completable k j (kon a) (fun i => koff i a) env' W')
    (hend : ∀ a f, W a = .error f → f.isStatic = true →
      Finishes (fun i => koff i a) fun b => W' b = .error f) :
    Completable k j (on >>= kon) (fun i => off i >>= koff i) env W' :=
  (h.sequence hk hend).weaken (Nat.le_add_left k 0)
    (Nat.le_min.mpr ⟨Nat.le_refl j, Nat.le_add_left j 0⟩)

end

/-! ## §3. Reading and looking ahead -/

section
variable {α β : Type} {k j : Nat} {env : Env} {W : β → Walk} {m : CursorM α}
  {m' : Nat → CursorM α} {kon : α → ParseM β} {koff : Nat → α → ParseM β}

/-- Reading leaves the walk where it is. -/
theorem completable_read (hm : ∀ i, Rereads k m (m' i)) :
    Completable k j (liftM m) (fun i => liftM (m' i)) env fun _ => .ok env := by
  intro s hs
  unfold CompletableAt
  rw [ends_lift]
  cases hrun : m s.cursor with
  | ok a c =>
    rw [ends_ok hrun]
    exact ⟨congrArg _ hs.symm, fun i => ((hm i s.cursor).of_ok hrun).lift⟩
  | error f c =>
    rw [ends_error hrun]
    intro hf
    rw [(hm 0 s.cursor).of_error hrun] at hf
    cases hf

/-- What is read only to be refused is refused again. -/
theorem completable_refused {m : CursorM α} {m' : Nat → CursorM α}
    (hm : ∀ i, Repeats m (m' i)) (f : α → Failure) :
    Completable k j (liftM (m >>= fun a => throw (f a) : CursorM β))
      (fun i => liftM (m' i >>= fun a => throw (f a) : CursorM β)) env W := by
  intro s hs
  unfold CompletableAt
  rw [ends_lift, ends_bind]
  -- the second readers are started from any state with the same tokens
  cases hrun : m s.cursor with
  | ok a c =>
    rw [ends_ok hrun]
    intro _
    refine .inr ?_
    intro i d hd
    rw [ends_lift, ends_bind]
    apply (((hm i) s.cursor d.cursor hd).of_ok hrun).mono
    · rintro a' c' ⟨rfl, -⟩
      exact .inl rfl
    · exact fun _ _ hsteps => .inr hsteps
  | error e c =>
    rw [ends_error hrun]
    intro he
    rw [(hm 0 s.cursor s.cursor rfl).of_error hrun] at he
    cases he

theorem reads_then [AtMostOne k] [AtMostOne j] (hm : ∀ i, Rereads 1 m (m' i))
    (hk : ∀ a, Completable 0 0 (kon a) (fun i => koff i a) env W) :
    Completable k j (liftM m >>= kon) (fun i => liftM (m' i) >>= koff i) env W := by
  refine (completable_read hm).andThen ?_ ?_
  · intro a env' h
    cases h
    exact hk a
  · intro a f h _
    cases h

theorem reads_bind (hm : ∀ i, Rereads 0 m (m' i))
    (hk : ∀ a, Completable k j (kon a) (fun i => koff i a) env W) :
    Completable k j (liftM m >>= kon) (fun i => liftM (m' i) >>= koff i) env W := by
  apply (completable_read hm).bind
  · intro a env' h
    cases h
    exact hk a
  · intro a f h _
    cases h

end

/-- Looking at a token among readers of statements. -/
theorem Looks.lift {γ : Type} {m : CursorM γ} {look : Option Token → γ} (hm : Looks m look) :
    Looks (liftM m : ParseM γ) look := by
  intro s
  show onCursor m s = _
  unfold onCursor
  rw [hm s.cursor]
  rfl

section
variable {α γ : Type} {m : CursorM γ} {look : Option Token → γ} (hm : Looks m look)
  {f : γ → ParseM α} {f' : Nat → γ → ParseM α} {env : Env} {W : α → Walk}
include hm

/-- The same token is seen, so the readers fail as they do after it. -/
theorem stuck_peek {c : Cursor} {e : Failure}
    (h : Stuck (fun i => f' i (look c.token?)) c e) : Stuck (fun i => liftM m >>= f' i) c e := by
  intro i d hd
  have hsame : d.cursor.token? = c.token? := token?_congr (congrArg List.head? hd)
  rw [ends_looks hm.lift]
  show Ends (f' i (look d.cursor.token?)) d _ _
  rw [hsame]
  exact h i d hd

theorem completableAt_peek {s : State}
    (h : CompletableAt 1 1 (f (look s.cursor.token?)) (fun i => f' i (look s.cursor.token?))
      W s) :
    CompletableAt 1 1 (liftM m >>= f) (fun i => liftM m >>= f' i) W s := by
  unfold CompletableAt
  rw [ends_looks hm.lift]
  apply h.mono
  · rintro a t ⟨hW, hread⟩
    exact ⟨hW, fun i => (hread i).peek hm.lift⟩
  · intro e t hhalted he
    rcases hhalted he with ⟨u, v, hlen, hahead, r, a, hr, ha, hyields⟩ | hstuck
    · refine .inl ⟨u, v, hlen, hahead, r, a, hr, ha, ?_⟩
      intro i d rest hd hrest
      exact yields_peek hm.lift hlen hahead hd (hyields i d rest hd hrest)
    · exact .inr (stuck_peek hm hstuck)

theorem completable_peek (h : ∀ x, Completable 1 1 (f x) (fun i => f' i x) env W) :
    Completable 1 1 (liftM m >>= f) (fun i => liftM m >>= f' i) env W :=
  fun s hs => completableAt_peek hm (h _ s hs)

/-- Nothing need be read after looking, if what decides is the same before `end`. -/
theorem completable_optional {j : Nat} [AtMostOne j] {stop : γ} (hstop : Settled look stop)
    (h₀ : Completable 0 j (f stop) (fun i => f' i stop) env W)
    (h₁ : ∀ x, x ≠ stop → Completable 1 1 (f x) (fun i => f' i x) env W) :
    Completable 0 j (liftM m >>= f) (fun i => liftM m >>= f' i) env W := by
  intro s hs
  -- either looking is all that is done, or something is read next
  by_cases hlook : look s.cursor.token? = stop
  · unfold CompletableAt
    rw [ends_looks hm.lift]
    show Ends (f (look s.cursor.token?)) s _ _
    rw [hlook]
    apply (h₀ s hs).mono
    · rintro a t ⟨hW, hread⟩
      exact ⟨hW, fun i => (hread i).stop hm.lift hstop hlook⟩
    · intro e t hhalted he
      rcases hhalted he with ⟨u, v, hlen, hahead, r, a, hr, ha, hyields⟩ | hstuck
      · refine .inl ⟨u, v, hlen, hahead, r, a, hr, ha, ?_⟩
        intro i d rest hd hrest
        have hbefore : Alike s.cursor.ahead d.cursor.ahead := by
          rw [hahead, hd]
          exact Alike.append (.inr (hr.closes hrest)) u
        exact yields_stop hm.lift hstop hlook hbefore (hyields i d rest hd hrest)
      · rw [← hlook] at hstuck
        exact .inr (stuck_peek hm hstuck)
  · exact (completableAt_peek hm (h₁ _ hlook s hs)).weaken (Nat.zero_le 1) AtMostOne.le_one

end

/-! ## §4. Checks, changes and scopes -/

section
variable {α β : Type} {env : Env} {k j : Nat}

/-- A step that only the checked run takes. -/
theorem completable_step {m : ParseM Unit} {change : Env → Walk} (hm : Moves m change) :
    Completable 0 0 m (fun _ => pure ()) env fun _ => change env := by
  rintro s rfl
  apply (hm s).mono
  · rintro _ t ⟨hcursor, hchange⟩
    refine ⟨hchange, ?_⟩
    rw [hcursor]
    exact fun _ => reread_pure s.cursor ()
  · intro f t hchange _
    exact .inl ⟨[], s.cursor.ahead, Nat.le_refl 0, rfl, finishes_pure hchange⟩

variable {o o' : Options} (hon : o.checked = true) (hoff : o'.checked = false)
  {kon : Unit → ParseM β} {koff : Nat → Unit → ParseM β} {W : β → Walk}
include hon hoff

/-- A check, and what follows it. -/
theorem checks_then {check : Env → Except ParseError α}
    (hk : ∀ a, check env = .ok a → Completable k 0 (kon ()) (fun i => koff i ()) env W)
    (hend : ∀ e, check env = .error e →
      Finishes (fun i => koff i ()) fun b => W b = .error (.error e)) :
    Completable k 0 (checking o check >>= kon) (fun i => checking o' check >>= koff i) env W := by
  -- the unchecked parser does nothing in the place of the check
  have hnothing : checking o' check = pure () := funext fun s => checking_off hoff check s
  rw [hnothing]
  apply (completable_step (checking_moves hon check)).bind
  · intro _ env'
    cases hcheck : check env with
    | ok a =>
      intro h
      cases h
      exact hk a hcheck
    | error e =>
      intro h
      cases h
  · intro _ f
    cases hcheck : check env with
    | ok a =>
      intro h
      cases h
    | error e =>
      intro h _
      cases h
      exact hend e hcheck

/-- A change, and what follows it. -/
theorem updates_then {change : Env → Except ParseError Env}
    (hk : ∀ env', change env = .ok env' →
      Completable k 0 (kon ()) (fun i => koff i ()) env' W)
    (hend : ∀ e, change env = .error e →
      Finishes (fun i => koff i ()) fun b => W b = .error (.error e)) :
    Completable k 0 (updating o change >>= kon) (fun i => updating o' change >>= koff i)
      env W := by
  -- the unchecked run makes no change
  have hnothing : updating o' change = pure () := funext fun s => updating_off hoff change s
  rw [hnothing]
  apply (completable_step (updating_moves hon change)).bind
  · intro _ env'
    cases hchange : change env with
    | ok env₁ =>
      intro h
      cases h
      exact hk env' hchange
    | error e =>
      intro h
      cases h
  · intro _ f
    cases hchange : change env with
    | ok env₁ =>
      intro h
      cases h
    | error e =>
      intro h _
      cases h
      exact hend e hchange

omit hon hoff in
/-- A scope that cannot be left is no static error. -/
theorem not_static_of_pop {f : Failure} (h : env.pop = .error f) : f.isStatic = false := by
  unfold Env.pop at h
  split at h
  · cases h
  · cases h
    rfl

/-- A scope is entered before something is read, and left after it. -/
theorem completable_inScope {locals : List Param} {inside : Env}
    (hinside : env.push.declareAll locals = .ok inside) {body : ParseM β}
    {body' : Nat → ParseM β} (hbody : Completable 0 j body body' inside W) :
    Completable 0 j (inScope o locals body) (fun i => inScope o' locals (body' i)) env fun b =>
      W b >>= Env.pop := by
  simp only [inScope_off hoff]
  unfold inScope
  rw [if_pos hon]
  rintro s rfl
  unfold CompletableAt
  -- entering does not fail, and nothing is refused
  apply ((enter_moves o).of_ok rfl).bind
  rintro _ t₁ ⟨hcursor₁, henv₁⟩
  have hdeclare : orFail (t₁.env.declareAll locals) = .ok inside := by
    rw [henv₁, hinside]
    rfl
  apply ((updating_moves hon (·.declareAll locals)).of_ok hdeclare).bind
  rintro _ t₂ ⟨hcursor₂, henv₂⟩
  have hcursor : t₂.cursor = s.cursor := hcursor₂.trans hcursor₁
  rw [ends_bind]
  apply (hbody t₂ henv₂).mono
  · rintro b t₃ ⟨hW, hread⟩
    -- leaving the scope is the last step of the walk, and reads nothing
    rw [ends_bind]
    rw [hcursor] at hread
    apply ((leave_moves o) t₃).mono
    · rintro _ t₄ ⟨hcursor₄, hpop⟩
      refine ⟨?_, hcursor₄ ▸ hread⟩
      show (W b >>= Env.pop) = _
      rw [hW]
      exact hpop
    · intro f t₄ hpop hf
      rw [not_static_of_pop hpop] at hf
      cases hf
  · intro f t₃ hhalted hf
    rw [hcursor] at hhalted
    rcases hhalted hf with ⟨u, v, hlen, hahead, hu⟩ | hstuck
    · refine .inl ⟨u, v, hlen, hahead, hu.mono ?_⟩
      intro b hb
      show (W b >>= Env.pop) = _
      rw [hb]
      rfl
    · exact .inr hstuck

end

end Lumen.Parse
