/-
  Lumen.Proofs.Reading.Local — a reader sees one token at a time.

  What a reader does depends on the tokens up to the one at which it stops, and on no
  other.  Where a text is cut off and it has not come to the end, it does the same
  whatever is put in the place of the rest.

  One thing may happen to a token: a `>=` that stands where a list type is to be closed
  becomes two.  Whether a run comes there can be told from the text before the `>=`.
  Cut off in front of it, the run ends at the end of the text, and for want of a `>`;
  nothing else asks for one.

  Main statements:
    * `Local` — a reader of this kind, beside itself with fewer steps;
    * `Local.bind` — a sequence;
    * `local_peeks` — looking at the next token;
    * `type_local` — types;
    * `tokens_local`, `expr_local` — all readers of tokens, and expressions among them.
-/
import Lumen.Proofs.Reading.Congruence

namespace Lumen

namespace Parse
open CursorM

/-! ## §1. States and runs -/

/-- A state in which there is a cursor, and other tokens may be put in the place of those
    that are ahead. -/
class Facing (σ : Type) extends HasCursor σ where
  facing : σ → List Token → σ
  cursor_facing : ∀ s ts, cursor (facing s ts) = ⟨(cursor s).before, ts⟩
  facing_facing : ∀ s ts us, facing (facing s ts) us = facing s us
  facing_ahead : ∀ s, facing s (cursor s).ahead = s

export Facing (facing facing_facing)

instance : Facing Cursor where
  toHasCursor := inferInstance
  facing c ts := ⟨c.before, ts⟩
  cursor_facing _ _ := rfl
  facing_facing _ _ _ := rfl
  facing_ahead _ := rfl

instance : Facing State where
  toHasCursor := inferInstance
  facing s ts := { s with cursor := ⟨s.cursor.before, ts⟩ }
  cursor_facing _ _ := rfl
  facing_facing _ _ _ := rfl
  facing_ahead _ := rfl

section
variable {σ : Type} [HasCursor σ]

/-- The tokens that are ahead. -/
abbrev ahead (s : σ) : List Token := (HasCursor.cursor s).ahead

/-- All tokens, read or not. -/
abbrev tokens (s : σ) : List Token := (HasCursor.cursor s).tokens

end

section
variable {σ α β : Type}

@[simp] theorem ahead_facing [Facing σ] (s : σ) (ts : List Token) : ahead (facing s ts) = ts := by
  rw [ahead, Facing.cursor_facing]

/-- A run fails in a certain way. -/
def Fails (m : EStateM Failure σ α) (s : σ) (f : Failure) : Prop := ∃ t, m s = .error f t

/-- The failure of a run that wants to close a list type. -/
def lacksClose (met : Option Token) : Failure := .error (.unexpected (.mark .gt) met)

variable {m : EStateM Failure σ α} {k : α → EStateM Failure σ β} {s s' t : σ} {a : α} {f : Failure}

theorem Fails.bind (h : Fails m s f) : Fails (m >>= k) s f := by
  obtain ⟨t, hrun⟩ := h
  exact ⟨t, bind_of_error hrun⟩

/-- A sequence fails in its first part or in what comes after. -/
theorem Fails.of_bind (h : Fails (m >>= k) s f) :
    Fails m s f ∨ ∃ a t, m s = .ok a t ∧ Fails (k a) t f := by
  cases hrun : m s with
  | ok a t =>
    refine .inr ⟨a, t, rfl, ?_⟩
    unfold Fails at h
    rwa [bind_of_ok hrun] at h
  | error g t =>
    unfold Fails at h
    rw [bind_of_error hrun] at h
    obtain ⟨t', ht'⟩ := h
    cases ht'
    exact .inl ⟨t, hrun⟩

/-- A sequence does the same with more steps. -/
theorem steps_bind {m₀ m : EStateM Failure σ α} {k₀ k : α → EStateM Failure σ β}
    (hm : ∀ s, Fails m₀ s .outOfSteps ∨ m s = m₀ s)
    (hk : ∀ a s, Fails (k₀ a) s .outOfSteps ∨ k a s = k₀ a s) (s : σ) :
    Fails (m₀ >>= k₀) s .outOfSteps ∨ (m >>= k) s = (m₀ >>= k₀) s := by
  rcases hm s with hout | hsame
  · exact .inl hout.bind
  · cases hrun : m₀ s with
    | ok a t =>
      rw [Fails, bind_of_ok hrun, bind_of_ok (hsame.trans hrun)]
      exact hk a t
    | error f t =>
      rw [bind_of_error hrun, bind_of_error (hsame.trans hrun)]
      exact .inr rfl

end

/-! ## §2. Local readers -/

section
variable {σ α β : Type} [Facing σ]

/-- A run of `m` from `s` that has come to `t`.  If it stands at a token there, it has
    read some tokens and looked at that one, and comes to the same end wherever these
    are ahead. -/
def ReadsTo (m : EStateM Failure σ α) (s : σ) (result : σ → EStateM.Result Failure σ α)
    (t : σ) : Prop :=
  ∀ h rest, ahead t = h :: rest → ∃ u, u ≠ [] ∧ ahead s = u ++ rest ∧
    ∀ y, m (facing s (u ++ y)) = result (facing t (h :: y))

/-- A run of `m` from `s` that has come to `t` has changed no token, or it has come to a
    `>=` where a list type is to be closed. -/
def Splits (m : EStateM Failure σ α) (s t : σ) : Prop :=
  tokens t = tokens s ∨ ∃ pre p post, ahead s = pre ++ ⟨.mark .ge, p⟩ :: post
    ∧ Fails m (facing s pre) (lacksClose none)

/-- A run of `m` from `s` fails in front of `t`, in the place of which it wants the end of
    a list type. -/
def StopsBefore (m : EStateM Failure σ α) (s : σ) (t : Token) (rest : List Token) : Prop :=
  ∃ c, m s = .error (lacksClose (some t)) c ∧ ahead c = t :: rest

/-- A reader `m` that sees one token at a time, and does the same as `m₀`, which has
    fewer steps. -/
structure Local (m₀ m : EStateM Failure σ α) : Prop where
  /-- The steps do not matter as long as there are some. -/
  steps : ∀ s, Fails m₀ s .outOfSteps ∨ m s = m₀ s
  /-- Where no token is ahead none is taken, and the end of no list type is wanted. -/
  atEnd : ∀ s, ahead s = [] →
    Ends m s (fun _ t => ahead t = []) fun f t => f ≠ lacksClose none ∧ ahead t = []
  /-- The tokens after that at the cursor have not been looked at. -/
  reads : ∀ s, Ends m s (fun a t => ReadsTo m s (.ok a) t) fun f t => ReadsTo m s (.error f) t
  /-- Where the end of a list type is wanted, `>=` is `>` and `=`. -/
  closes : ∀ s, Fails m s (lacksClose none) → ∀ p post,
    m (facing s (ahead s ++ ⟨.mark .ge, p⟩ :: post))
      = m (facing s (ahead s ++ ⟨.mark .gt, p⟩ :: ⟨.mark .equal, p.right⟩ :: post))
  /-- Where the end of a list type is wanted, no other token will do. -/
  stops : ∀ s, Fails m s (lacksClose none) → ∀ t rest, t.lexeme ≠ .mark .ge →
    t.lexeme ≠ .mark .gt → StopsBefore m (facing s (ahead s ++ t :: rest)) t rest
  /-- A token is changed only where the end of a list type is wanted. -/
  splits : ∀ s, Ends m s (fun _ t => Splits m s t) fun _ t => Splits m s t

variable {m₀ m : EStateM Failure σ α} {k₀ k : α → EStateM Failure σ β}

/-- What is read first is read again before what comes after. -/
theorem ReadsTo.bind {s t t' : σ} {a : α} {result : σ → EStateM.Result Failure σ β}
    (hfirst : ReadsTo m s (.ok a) t) (hsecond : ReadsTo (k a) t result t') :
    ReadsTo (m >>= k) s result t' := by
  intro h rest ht'
  obtain ⟨v, hv, ht, hagain'⟩ := hsecond h rest ht'
  cases v with
  | nil => exact absurd rfl hv
  | cons x v =>
    obtain ⟨u, hu, hs, hagain⟩ := hfirst x (v ++ rest) ht
    refine ⟨u ++ v, fun hnil => hu (List.append_eq_nil_iff.mp hnil).1, ?_, fun y => ?_⟩
    · rw [hs, List.append_assoc]
    · rw [List.append_assoc, bind_of_ok (hagain (v ++ y))]
      exact hagain' y

theorem ReadsTo.bind_error {s t : σ} {f : Failure} (h : ReadsTo m s (.error f) t) :
    ReadsTo (m >>= k) s (.error f) t := by
  intro x rest ht
  obtain ⟨u, hu, hs, hagain⟩ := h x rest ht
  exact ⟨u, hu, hs, fun y => bind_of_error (hagain y)⟩

/-- A sequence looks at no token that its parts do not look at. -/
theorem readsTo_bind
    (hm : ∀ s, Ends m s (fun a t => ReadsTo m s (.ok a) t) fun f t => ReadsTo m s (.error f) t)
    (hk : ∀ a s, Ends (k a) s (fun b t => ReadsTo (k a) s (.ok b) t)
      fun f t => ReadsTo (k a) s (.error f) t) (s : σ) :
    Ends (m >>= k) s (fun b t => ReadsTo (m >>= k) s (.ok b) t)
      fun f t => ReadsTo (m >>= k) s (.error f) t := by
  rw [ends_bind]
  apply (hm s).mono
  · intro a t hfirst
    exact (hk a t).mono (fun _ _ => hfirst.bind) fun _ _ => hfirst.bind
  · exact fun f t => ReadsTo.bind_error

theorem StopsBefore.bind {s : σ} {t : Token} {rest : List Token} (h : StopsBefore m s t rest) :
    StopsBefore (m >>= k) s t rest := by
  obtain ⟨c, hrun, hc⟩ := h
  exact ⟨c, bind_of_error hrun, hc⟩

theorem Splits.bind_left {s t : σ} (h : Splits m s t) : Splits (m >>= k) s t := by
  rcases h with hsame | ⟨pre, p, post, hs, hfails⟩
  · exact .inl hsame
  · exact .inr ⟨pre, p, post, hs, hfails.bind⟩

/-- A run that has read something before a token that is ahead does so again before any
    others. -/
theorem Local.reads_again (hm : Local m₀ m) {s t : σ} {a : α} (hrun : m s = .ok a t)
    (ht : ahead t ≠ []) :
    ∃ u h rest, ahead t = h :: rest ∧ ahead s = u ++ rest
      ∧ ∀ y, m (facing s (u ++ y)) = .ok a (facing t (h :: y)) := by
  obtain ⟨h, rest, hcons⟩ := List.exists_cons_of_ne_nil ht
  obtain ⟨u, -, hs, hagain⟩ := (hm.reads s).of_ok hrun h rest hcons
  exact ⟨u, h, rest, hcons, hs, hagain⟩

/-- Where no token is ahead, no end of a list type is wanted. -/
theorem Local.ahead_of_fails (hm : Local m₀ m) {s : σ} (h : Fails m s (lacksClose none)) :
    ahead s ≠ [] := by
  intro hs
  obtain ⟨t, hrun⟩ := h
  exact ((hm.atEnd s hs).of_error hrun).1 rfl

theorem Splits.bind (hm : Local m₀ m) (hk : ∀ a, Local (k₀ a) (k a)) {s t t' : σ} {a : α}
    (hrun : m s = .ok a t) (hsecond : Splits (k a) t t') : Splits (m >>= k) s t' := by
  rcases hsecond with hsame | ⟨pre, p, post, ht, hfails⟩
  · rcases (hm.splits s).of_ok hrun with hsame' | ⟨pre, p, post, hs, hfails⟩
    · exact .inl (hsame.trans hsame')
    · exact .inr ⟨pre, p, post, hs, hfails.bind⟩
  · have hpre : pre ≠ [] := by simpa using (hk a).ahead_of_fails hfails
    cases pre with
    | nil => exact absurd rfl hpre
    | cons x pre =>
      obtain ⟨u, h, rest, hcons, hs, hagain⟩ :=
        hm.reads_again hrun (by rw [ht]; exact List.cons_ne_nil _ _)
      rw [ht] at hcons
      obtain ⟨rfl, rfl⟩ := List.cons.inj hcons
      refine .inr ⟨u ++ pre, p, post, by rw [List.append_assoc]; exact hs, ?_⟩
      rw [Fails, bind_of_ok (hagain pre)]
      exact hfails

/-- A sequence of local readers. -/
theorem Local.bind (hm : Local m₀ m) (hk : ∀ a, Local (k₀ a) (k a)) :
    Local (m₀ >>= k₀) (m >>= k) where
  steps := steps_bind hm.steps fun a => (hk a).steps
  atEnd s hs := (hm.atEnd s hs).bind fun a t ht => (hk a).atEnd t ht
  reads := readsTo_bind hm.reads fun a => (hk a).reads
  closes s hs p post := by
    rcases hs.of_bind with hfirst | ⟨a, t, hrun, hfails⟩
    · exact bind_of_eq (hm.closes s hfirst p post)
    · -- some token is left, before which the first part reads the same again
      obtain ⟨u, h, rest, ht, hs, hagain⟩ := hm.reads_again hrun ((hk a).ahead_of_fails hfails)
      have hrest := (hk a).closes t hfails p post
      rw [ht] at hrest
      rw [hs, List.append_assoc, List.append_assoc, bind_of_ok (hagain _), bind_of_ok (hagain _)]
      exact hrest
  stops s hs x more hge hgt := by
    rcases hs.of_bind with hfirst | ⟨a, t, hrun, hfails⟩
    · exact (hm.stops s hfirst x more hge hgt).bind
    · obtain ⟨u, h, rest, ht, hs, hagain⟩ := hm.reads_again hrun ((hk a).ahead_of_fails hfails)
      have hrest := (hk a).stops t hfails x more hge hgt
      rw [ht] at hrest
      rw [hs, List.append_assoc, StopsBefore, bind_of_ok (hagain _)]
      exact hrest
  splits s := by
    rw [ends_bind]
    cases hrun : m s with
    | ok a t =>
      rw [ends_ok hrun]
      exact ((hk a).splits t).mono (fun _ _ => Splits.bind hm hk hrun)
        fun _ _ => Splits.bind hm hk hrun
    | error f t =>
      rw [ends_error hrun]
      exact ((hm.splits s).of_error hrun).bind_left

/-! ## §3. Looking and failing -/

/-- A reader that wants the end of no list type, changes no token, and looks at one. -/
theorem local_of_plain (hfails : ∀ {s met}, ¬ Fails m s (lacksClose met))
    (hkeeps : ∀ s, Ends m s (fun _ t => tokens t = tokens s ∧ (ahead s = [] → ahead t = []))
      fun _ t => tokens t = tokens s ∧ (ahead s = [] → ahead t = []))
    (hreads : ∀ s, Ends m s (fun a t => ReadsTo m s (.ok a) t)
      fun f t => ReadsTo m s (.error f) t) : Local m m where
  steps _ := .inr rfl
  atEnd s hs := by
    cases hrun : m s with
    | ok a t => exact (ends_ok hrun).mpr (((hkeeps s).of_ok hrun).2 hs)
    | error f t =>
      have hf : f ≠ lacksClose none := fun hf => hfails ⟨t, hf ▸ hrun⟩
      exact (ends_error hrun).mpr ⟨hf, ((hkeeps s).of_error hrun).2 hs⟩
  reads := hreads
  closes s h := absurd h hfails
  stops s h := absurd h hfails
  splits s := (hkeeps s).mono (fun _ _ h => .inl h.1) fun _ _ h => .inl h.1

/-- A run that has gone nowhere. -/
def resting (s : σ) : Except Failure α → EStateM.Result Failure σ α
  | .ok a => .ok a s
  | .error f => .error f s

/-- A reader that looks at the next token, and reads nothing. -/
theorem local_peeks (peek : Option Token → Except Failure α)
    (hm : ∀ s, m s = resting s (peek (ahead s).head?))
    (hpeek : ∀ t? met, peek t? ≠ .error (lacksClose met)) : Local m m := by
  have hfails : ∀ {s met}, ¬ Fails m s (lacksClose met) := by
    rintro s met ⟨t, hrun⟩
    apply hpeek (ahead s).head? met
    rw [hm] at hrun
    revert hrun
    cases peek (ahead s).head? with
    | ok a => exact fun hrun => by cases hrun
    | error f => exact fun hrun => by cases hrun; rfl
  -- it stays where it is, whatever comes of it
  have hends : ∀ {s} {Q : α → σ → Prop} {E : Failure → σ → Prop},
      (∀ a, peek (ahead s).head? = .ok a → Q a s) →
      (∀ f, peek (ahead s).head? = .error f → E f s) → Ends m s Q E := by
    intro s Q E hok herror
    rw [Ends, hm]
    cases hrun : peek (ahead s).head? with
    | ok a => exact hok a hrun
    | error f => exact herror f hrun
  have hagain : ∀ {s h rest} (r : Except Failure α), peek (ahead s).head? = r →
      ahead s = h :: rest → ∃ u, u ≠ [] ∧ ahead s = u ++ rest
        ∧ ∀ y, m (facing s (u ++ y)) = resting (facing s (h :: y)) r := by
    intro s h rest r hr hs
    refine ⟨[h], List.cons_ne_nil _ _, hs, fun y => ?_⟩
    rw [hm, ← hr, ahead_facing, hs]
    rfl
  apply local_of_plain hfails
  · exact fun s => hends (fun _ _ => ⟨rfl, id⟩) fun _ _ => ⟨rfl, id⟩
  · exact fun s => hends (fun a ha h rest => hagain (.ok a) ha)
      fun f hf h rest => hagain (.error f) hf

theorem local_pure (a : α) : Local (pure a : EStateM Failure σ α) (pure a) :=
  local_peeks (fun _ => .ok a) (fun _ => rfl) fun _ _ h => by cases h

theorem local_throw {f : Failure} (hf : ∀ met, f ≠ lacksClose met) :
    Local (throw f : EStateM Failure σ α) (throw f) :=
  local_peeks (fun _ => .error f) (fun _ => rfl) fun _ met h => hf met (Except.error.inj h)

theorem local_looks {look : Option Token → α} (hm : Looks m look) : Local m m :=
  local_peeks (fun t? => .ok (look (t?.filter fun t => !t.isEof))) hm
    fun _ _ h => by cases h

/-- A reader with fewer steps may have none. -/
theorem Local.outOfSteps (h : Local m₀ m) : Local (throw .outOfSteps) m :=
  { h with steps := fun s => .inl ⟨s, rfl⟩ }

/-- Steps are counted down in both readers; what is left of them may differ. -/
theorem Local.ofSteps (read₀ read : Nat → β → EStateM Failure σ α)
    (hzero₀ : ∀ b, read₀ 0 b = throw .outOfSteps) (hzero : ∀ b, read 0 b = throw .outOfSteps)
    (hsucc : ∀ {n₀ n}, n₀ ≤ n → (∀ b, Local (read₀ n₀ b) (read n b)) →
      ∀ b, Local (read₀ (n₀ + 1) b) (read (n + 1) b))
    {n₀ n : Nat} (hle : n₀ ≤ n) (b : β) : Local (read₀ n₀ b) (read n b) := by
  induction n generalizing n₀ b with
  | zero =>
    obtain rfl := Nat.le_zero.mp hle
    rw [hzero₀, hzero]
    exact local_throw fun _ => Failure.noConfusion
  | succ n ih =>
    cases n₀ with
    | zero => exact hzero₀ b ▸ (hsucc (Nat.zero_le n) (ih (Nat.zero_le n)) b).outOfSteps
    | succ n₀ =>
      have hle := Nat.le_of_succ_le_succ hle
      exact hsucc hle (ih hle) b

/-- To be local, with fewer steps and with more, is a congruence. -/
theorem local_congruence :
    Congruence (· ≤ ·) fun _ (m₀ m : EStateM Failure σ _) => Local m₀ m where
  ofPure := local_pure
  ofThrow he := local_throw fun met heq => he _ met (Failure.error.inj heq)
  ofBind hm hk := hm.bind hk
  ofSteps := Local.ofSteps
  succ := Nat.succ_le_succ

end

/-! ## §4. Readers of single tokens -/

theorem unexpected_local {α : Type} {expected : Expected} (h : expected ≠ .mark .gt) :
    Local (unexpected expected : CursorM α) (unexpected expected) := by
  refine local_peeks (fun t? => .error (.error (.unexpected expected t?))) (fun _ => rfl) ?_
  intro t? met heq
  exact h (ParseError.unexpected.inj (Failure.error.inj (Except.error.inj heq))).1

theorem advance_local : Local advance advance := by
  have hfails : ∀ {c met}, ¬ Fails advance c (lacksClose met) := by
    rintro c met ⟨t, hrun⟩
    rcases advance_cases c with ⟨-, hadvance⟩ | ⟨t, -, hadvance⟩
    · cases hadvance.symm.trans hrun
    · cases hadvance.symm.trans hrun
  apply local_of_plain hfails
  · intro c
    rcases advance_cases c with ⟨-, hadvance⟩ | ⟨t, ht, hadvance⟩
    · exact (ends_error hadvance).mpr ⟨rfl, id⟩
    · have htokens := Cursor.tokens_past (Option.filter_eq_some_iff.mp ht).1
      exact (ends_ok hadvance).mpr ⟨htokens, fun hc => congrArg List.tail hc⟩
  · intro c
    rcases advance_cases c with ⟨hnone, hadvance⟩ | ⟨t, ht, hadvance⟩
    · rw [ends_error hadvance]
      intro h rest hc
      refine ⟨[h], List.cons_ne_nil _ _, hc, fun y => advance_of_none ?_⟩
      rw [← hnone]
      exact token?_congr (congrArg List.head? hc).symm
    · rw [ends_ok hadvance]
      intro h rest hc
      have hahead : c.ahead = t :: h :: rest := (ahead_of_token? ht).trans (congrArg _ hc)
      refine ⟨[t, h], List.cons_ne_nil _ _, hahead, fun y => advance_of_some ?_⟩
      rw [← ht]
      exact token?_congr (congrArg List.head? hahead).symm

theorem mark_local {m : Mark} (hm : m ≠ .gt) : Local (mark m) (mark m) := by
  unfold mark
  apply (local_looks (isAt_looks _)).bind
  intro found
  split
  · exact advance_local.bind fun _ => local_pure ()
  · exact unexpected_local fun h => hm (Expected.mark.inj h)

/-! ## §5. Types

A type ends with a certain token, so that what comes after it need not be looked at.
Only the `=` that was split off the token stands between them. -/

theorem mark_of_ne {m : Mark} {c : Cursor} (h : c.lexeme? ≠ some (.mark m)) :
    mark m c = .error (.error (.unexpected (.mark m) c.current?)) c := by
  show (if c.lexeme? == some (.mark m) then (do let _ ← advance)
    else (unexpected (.mark m) : CursorM Unit)) c = _
  rw [if_neg fun heq => h (eq_of_beq heq)]
  rfl

/-- What closes a list type. -/
theorem closed_cases (elem : Ty) (before : List Token) (t : Token) (rest : List Token) :
    (∃ p, t = ⟨.mark .ge, p⟩ ∧ closed pure elem ⟨before, t :: rest⟩
        = .ok (.list elem) ⟨⟨.mark .gt, p⟩ :: before, ⟨.mark .equal, p.right⟩ :: rest⟩)
      ∨ (t.lexeme = .mark .gt
        ∧ closed pure elem ⟨before, t :: rest⟩ = .ok (.list elem) ⟨t :: before, rest⟩)
      ∨ (t.lexeme ≠ .mark .ge ∧ t.lexeme ≠ .mark .gt ∧ closed pure elem ⟨before, t :: rest⟩
        = .error (lacksClose (some t)) ⟨before, t :: rest⟩) := by
  obtain ⟨l, p⟩ := t
  by_cases hge : l = .mark .ge
  · subst hge
    exact .inl ⟨p, rfl, rfl⟩
  · have hsplit : Cursor.splitGe ⟨before, ⟨l, p⟩ :: rest⟩ = ⟨before, ⟨l, p⟩ :: rest⟩ := by
      apply splitGe_eq_self
      intro q hq
      cases hq
      exact hge rfl
    -- nothing is split, so a bracket is what has to be there
    have hclosed : closed pure elem ⟨before, ⟨l, p⟩ :: rest⟩
        = (do mark .gt; pure (.list elem) : CursorM Ty) ⟨before, ⟨l, p⟩ :: rest⟩ := by
      show (do mark .gt; pure (.list elem) : CursorM Ty)
        (Cursor.splitGe ⟨before, ⟨l, p⟩ :: rest⟩) = _
      rw [hsplit]
    rw [hclosed]
    by_cases hgt : l = .mark .gt
    · subst hgt
      exact .inr (.inl ⟨rfl, rfl⟩)
    · refine .inr (.inr ⟨hge, hgt, bind_of_error (mark_of_ne ?_)⟩)
      rw [Cursor.lexeme?_eq_head?, Cursor.lexemes_cons]
      split
      · exact fun h => by cases h
      · exact fun h => hgt (Option.some.inj h)

/-- What closes a list type looks at one token. -/
theorem closed_reads (elem : Ty) (c : Cursor) :
    Ends (closed pure elem) c (fun a t => ReadsTo (closed pure elem) c (.ok a) t)
      fun f t => ReadsTo (closed pure elem) c (.error f) t := by
  obtain ⟨before, ahead⟩ := c
  cases ahead with
  | nil => exact fun h rest hrest => by cases hrest
  | cons x rest =>
    obtain ⟨p, rfl, hclosed⟩ | ⟨hx, hclosed⟩ | ⟨hge, hgt, hclosed⟩ :=
      closed_cases elem before x rest
    · rw [ends_ok hclosed]
      intro h rest' hrest
      obtain ⟨rfl, rfl⟩ := List.cons.inj hrest
      exact ⟨[⟨.mark .ge, p⟩], List.cons_ne_nil _ _, rfl, fun y => rfl⟩
    · rw [ends_ok hclosed]
      rintro h rest' (rfl : rest = h :: rest')
      -- the bracket is passed, up to the next token
      refine ⟨[x, h], List.cons_ne_nil _ _, rfl, fun y => ?_⟩
      obtain ⟨l, p⟩ := x
      obtain rfl : l = .mark .gt := hx
      rfl
    · rw [ends_error hclosed]
      intro h rest' hrest
      obtain ⟨rfl, rfl⟩ := List.cons.inj hrest
      refine ⟨[x], List.cons_ne_nil _ _, rfl, fun y => ?_⟩
      obtain ⟨p, rfl, -⟩ | ⟨hx, -⟩ | ⟨-, -, hagain⟩ := closed_cases elem before x y
      · exact absurd rfl hge
      · exact absurd hx hgt
      · exact hagain

/-- The end of a list type is wanted at the end of the tokens only if there are none. -/
theorem ahead_of_closed_fails {elem : Ty} {c : Cursor}
    (h : Fails (closed pure elem) c (lacksClose none)) : c.ahead = [] := by
  obtain ⟨before, ahead⟩ := c
  obtain ⟨c', hrun⟩ := h
  cases ahead with
  | nil => rfl
  | cons t rest =>
    obtain ⟨p, rfl, hclosed⟩ | ⟨-, hclosed⟩ | ⟨-, -, hclosed⟩ :=
      closed_cases elem before t rest
    · cases hclosed.symm.trans hrun
    · cases hclosed.symm.trans hrun
    · cases hclosed.symm.trans hrun

/-- Whether tokens are what a split has left in front of the others. -/
def IsHalf (half : List Token) : Prop := half = [] ∨ ∃ p, half = [⟨.mark .equal, p⟩]

/-- A reader that gives something reads tokens whatever comes after them. -/
def Firm {α : Type} (m : CursorM α) : Prop :=
  ∀ c, Ends m c
    (fun a c' => ∃ u half v, u ≠ [] ∧ IsHalf half ∧ c.ahead = u ++ v ∧ c'.ahead = half ++ v
      ∧ ∀ y, m (facing c (u ++ y)) = .ok a (facing c' (half ++ y)))
    fun _ _ => True

theorem firm_unexpected {α : Type} (expected : Expected) :
    Firm (unexpected expected : CursorM α) := fun _ => trivial

theorem firm_throw {α : Type} (f : Failure) : Firm (throw f : CursorM α) := fun _ => trivial

theorem firm_advance {α : Type} (a : α) : Firm (do let _ ← advance; return a) := by
  intro c
  rcases advance_cases c with ⟨-, hadvance⟩ | ⟨t, ht, hadvance⟩
  · exact (ends_error (bind_of_error hadvance)).mpr trivial
  · rw [ends_bind, ends_ok hadvance]
    refine ⟨[t], [], (c.past t).ahead, List.cons_ne_nil _ _, .inl rfl, ahead_of_token? ht, rfl, ?_⟩
    intro y
    have hagain : advance (facing c ([t] ++ y)) = .ok t ((facing c ([t] ++ y)).past t) := by
      apply advance_of_some
      rw [← ht]
      exact token?_congr (congrArg List.head? (ahead_of_token? ht)).symm
    exact bind_of_ok hagain

/-- What comes before may be any local reader. -/
theorem Firm.bind {α β : Type} {m : CursorM α} {k : α → CursorM β} (hm : Local m m)
    (hk : ∀ a, Firm (k a)) : Firm (m >>= k) := by
  intro c
  rw [ends_bind]
  apply (hm.reads c).mono
  · intro a c₁ hfirst
    apply (hk a c₁).weaken
    rintro b c₂ ⟨u, half, v, hu, hhalf, hc₁, hc₂, hagain'⟩
    cases u with
    | nil => exact absurd rfl hu
    | cons x u =>
      -- what is read first reads the same, since `x` is still there
      obtain ⟨w, hw, hc, hagain⟩ := hfirst x (u ++ v) hc₁
      refine ⟨w ++ u, half, v, fun h => hw (List.append_eq_nil_iff.mp h).1, hhalf, ?_, hc₂, ?_⟩
      · rw [List.append_assoc]
        exact hc
      · intro y
        rw [List.append_assoc, bind_of_ok (hagain (u ++ y))]
        exact hagain' y
  · exact fun _ _ _ => trivial

section
variable {m₀ m : CursorM Ty} (hm : Local m₀ m) (hfirm : Firm m)
include hfirm

/-- Where a type ends, nothing after it has been looked at. -/
theorem Firm.ends_here {c t : Cursor} {elem : Ty} (hrun : m c = .ok elem t) (ht : t.ahead = []) :
    ∀ y, m (facing c (ahead c ++ y)) = .ok elem (facing t y) := by
  obtain ⟨u, half, v, -, -, hc, ht', hagain⟩ := (hfirm c).of_ok hrun
  obtain ⟨rfl, rfl⟩ := List.append_eq_nil_iff.mp (ht'.symm.trans ht)
  have hu : ahead c = u := hc.trans (List.append_nil u)
  rw [hu]
  exact hagain

/-- If something else than `=` is left, no half of a token is. -/
theorem Firm.ends_before {c t : Cursor} {elem : Ty} (hrun : m c = .ok elem t) {x : Token}
    {rest : List Token} (ht : t.ahead = x :: rest) (hx : x.lexeme ≠ .mark .equal) :
    ∃ u, u ≠ [] ∧ c.ahead = u ++ x :: rest
      ∧ ∀ y, m (facing c (u ++ y)) = .ok elem (facing t y) := by
  obtain ⟨u, half, v, hu, rfl | ⟨p, rfl⟩, hc, ht', hagain⟩ := (hfirm c).of_ok hrun
  · obtain rfl : v = x :: rest := ht'.symm.trans ht
    exact ⟨u, hu, hc, hagain⟩
  · obtain ⟨rfl, -⟩ := List.cons.inj (ht'.symm.trans ht)
    exact absurd rfl hx

theorem Firm.closed : Firm (m >>= Parse.closed pure) := by
  intro c
  cases hrun : m c with
  | error f t => exact (ends_error (bind_of_error hrun)).mpr trivial
  | ok elem t =>
    rw [Ends, bind_of_ok hrun]
    obtain ⟨before, ahead⟩ := t
    cases ahead with
    | nil => exact trivial
    | cons x rest =>
      obtain ⟨p, rfl, hclosed⟩ | ⟨hx, hclosed⟩ | ⟨-, -, hclosed⟩ :=
        closed_cases elem before x rest
      · obtain ⟨u, -, hc, hagain⟩ :=
          hfirm.ends_before hrun rfl fun h => Mark.noConfusion (Lexeme.mark.inj h)
        rw [hclosed]
        refine ⟨u ++ [⟨.mark .ge, p⟩], [⟨.mark .equal, p.right⟩], rest, by simp, .inr ⟨_, rfl⟩,
          by simpa using hc, rfl, fun y => ?_⟩
        rw [List.append_assoc, bind_of_ok (hagain _)]
        rfl
      · obtain ⟨u, -, hc, hagain⟩ := hfirm.ends_before hrun rfl
          fun h => Mark.noConfusion (Lexeme.mark.inj (hx.symm.trans h))
        rw [hclosed]
        refine ⟨u ++ [x], [], rest, by simp, .inl rfl, by simpa using hc, rfl, fun y => ?_⟩
        rw [List.append_assoc, bind_of_ok (hagain _)]
        obtain ⟨l, p⟩ := x
        obtain rfl : l = .mark .gt := hx
        rfl
      · rw [hclosed]
        exact trivial

include hm

theorem Local.closed : Local (m₀ >>= Parse.closed pure) (m >>= Parse.closed pure) where
  steps := steps_bind hm.steps fun _ _ => .inr rfl
  atEnd c hc := by
    cases hrun : m c with
    | ok elem t =>
      obtain ⟨u, half, v, hu, -, hc', -⟩ := (hfirm c).of_ok hrun
      exact absurd (List.append_eq_nil_iff.mp (hc'.symm.trans hc)).1 hu
    | error f t => exact (ends_error (bind_of_error hrun)).mpr ((hm.atEnd c hc).of_error hrun)
  reads := readsTo_bind hm.reads closed_reads
  -- the text stops inside of the type, or in front of the bracket that closes it
  closes c hc p post := by
    rcases hc.of_bind with hfirst | ⟨elem, t, hrun, hfails⟩
    · exact bind_of_eq (hm.closes c hfirst p post)
    · have hagain := hfirm.ends_here hrun (ahead_of_closed_fails hfails)
      rw [bind_of_ok (hagain _), bind_of_ok (hagain _)]
      rfl
  stops c hc x more hge hgt := by
    rcases hc.of_bind with hfirst | ⟨elem, t, hrun, hfails⟩
    · exact (hm.stops c hfirst x more hge hgt).bind
    · have hagain := hfirm.ends_here hrun (ahead_of_closed_fails hfails)
      rw [StopsBefore, bind_of_ok (hagain _)]
      obtain ⟨p, rfl, -⟩ | ⟨hx, -⟩ | ⟨-, -, hclosed⟩ := closed_cases elem t.before x more
      · exact absurd rfl hge
      · exact absurd hx hgt
      · exact ⟨_, hclosed, rfl⟩
  -- tokens are changed inside of the type, or at the bracket that closes it
  splits c := by
    cases hrun : m c with
    | error f t =>
      exact (ends_error (bind_of_error hrun)).mpr ((hm.splits c).of_error hrun).bind_left
    | ok elem t =>
      rw [Ends, bind_of_ok hrun]
      rcases (hm.splits c).of_ok hrun with hsame | ⟨pre, p, post, hc, hfails⟩
      · obtain ⟨before, ahead⟩ := t
        cases ahead with
        | nil => exact .inl hsame
        | cons x rest =>
          obtain ⟨p, rfl, hclosed⟩ | ⟨hx, hclosed⟩ | ⟨hge, hgt, hclosed⟩ :=
            closed_cases elem before x rest
          · -- the tokens before the one that is split are read to their end
            obtain ⟨u, -, hc, hagain⟩ :=
              hfirm.ends_before hrun rfl fun h => Mark.noConfusion (Lexeme.mark.inj h)
            rw [hclosed]
            refine .inr ⟨u, p, rest, hc, ?_⟩
            have hcut := hagain []
            rw [List.append_nil] at hcut
            rw [Fails, bind_of_ok hcut]
            exact ⟨_, rfl⟩
          · rw [hclosed]
            refine .inl (Eq.trans ?_ hsame)
            simp [tokens, HasCursor.cursor, Cursor.tokens]
          · rw [hclosed]
            exact .inl hsame
      · have hsplits : ∀ t' : Cursor, Splits (m >>= Parse.closed pure) c t' :=
          fun t' => .inr ⟨pre, p, post, hc, hfails.bind⟩
        exact (ends_trivial _ t).mono (fun _ t' _ => hsplits t') fun _ t' _ => hsplits t'

end

theorem type_firm (n : Nat) : Firm (type n) := by
  induction n with
  | zero => exact firm_throw _
  | succ n ih =>
    unfold type
    apply Firm.bind (local_looks lexeme?_looks)
    intro l?
    split
    · exact Firm.bind advance_local fun _ => Firm.bind (mark_local Mark.noConfusion) fun _ =>
        ih.closed
    · split
      · exact firm_advance _
      · exact firm_unexpected _
    · exact firm_unexpected _

theorem type_local {n₀ n : Nat} (hle : n₀ ≤ n) : Local (type n₀) (type n) := by
  refine local_congruence.countdown type type rfl rfl ?_ hle
  intro n₀ n _ ih
  unfold type
  apply (local_looks lexeme?_looks).bind
  intro l?
  split
  · exact advance_local.bind fun _ => (mark_local Mark.noConfusion).bind fun _ =>
      ih.closed (type_firm n)
  · split
    · exact advance_local.bind fun _ => local_pure _
    · exact unexpected_local Expected.noConfusion
  · exact unexpected_local Expected.noConfusion

/-! ## §6. All readers of tokens -/

/-- Readers of tokens are local, since they are made of readers that are. -/
theorem tokens_local : TokenCongruence (· ≤ ·) fun _ m₀ m => Local m₀ m where
  toCongruence := local_congruence
  ofLooks := local_looks
  ofUnexpected := unexpected_local
  ofAdvance := advance_local
  ofType := type_local

/-- Whole expressions. -/
theorem expr_local {n₀ n : Nat} (hle : n₀ ≤ n) : Local (expr n₀) (expr n) :=
  expr_congr tokens_local hle

end Parse
end Lumen
