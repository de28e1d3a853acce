/-
  Lumen.Proofs.Reading.Lookahead — what comes of a run is settled by the tokens up to
  the one at which it ends.

  A run ends before a token, or before what is left of one that was split.  Everything up
  to that token may have had its part in the outcome, and nothing after it had: in front
  of any other tokens the run gives the same result or fails in the same way, and leaves
  the same environment and the cursor at the same token.

  Main statements:
    * `Cursor.StandsOn` — a cursor stands on a token of a list, or on a part of it;
    * `ReadsTo.settled` — a run that has come to a token comes to the same in front of others;
    * `Operation.exists_standsOn` — with an end token, every run ends on a token;
    * `settled_by_tokens_read` — what comes of a run, whatever comes after that token.
-/
import Lumen.Proofs.Reading.Closings
import Lumen.Proofs.Reading.Progress

namespace Lumen

/-! ## §1. Places in a token list -/

/-- What can be ahead of a token: itself, or what it has been split into, or the second half
    of that. -/
inductive Token.Leaves (w : Token) : List Token → Prop
  | whole : w.Leaves [w]
  | halves (hge : w.lexeme = .mark .ge) : w.Leaves w.halves
  | second (hge : w.lexeme = .mark .ge) : w.Leaves [⟨.mark .equal, w.pos.right⟩]

namespace Cursor

/-- The cursor at an index of a token list. -/
def atIndex (T : List Token) (i : Nat) : Cursor := ⟨(T.take i).reverse, T.drop i⟩

/-- A cursor stands on the token at index `k` of a list: that token is at the cursor, or
    what is left of it after a split, and after it come those that come after it there. -/
def StandsOn (c : Cursor) (T : List Token) (k : Nat) : Prop :=
  ∃ w left, T[k]? = some w ∧ w.Leaves left ∧ c.ahead = left ++ T.drop (k + 1)

end Cursor

section
variable {T T' : List Token} {i k : Nat}

/-- What is at the end of a list is found by how long it is. -/
theorem Token.eq_drop_of_suffix {rest : List Token} (h : rest <:+ T)
    (hlength : rest.length + k = T.length) : rest = T.drop k := by
  have hk : k = T.length - rest.length := by omega
  rw [hk]
  exact List.suffix_iff_eq_drop.mp h

/-- The tokens from one index up to another, and those after that. -/
theorem Token.drop_eq_append (hk : k < T.length) (hi : i ≤ k + 1) :
    T.drop i = (T.take (k + 1)).drop i ++ T.drop (k + 1) := by
  have hle : i ≤ (T.take (k + 1)).length := by
    rw [List.length_take]
    omega
  rw [← List.drop_append_of_le_length hle, List.take_append_drop]

/-- What stands from one index up to another also stands there in a list that agrees with
    the first up to the second index. -/
theorem Token.drop_of_agree {u : List Token} (hk : k < T.length) (hu : u ≠ [])
    (hdrop : T.drop i = u ++ T.drop (k + 1)) (h : ∀ j ≤ k, T'[j]? = T[j]?) :
    T'.take i = T.take i ∧ T'.drop i = u ++ T'.drop (k + 1) := by
  have hlength := congrArg List.length hdrop
  have hpos := List.length_pos_iff.mpr hu
  simp only [List.length_append, List.length_drop] at hlength
  -- up to the index the two lists are one
  have htake : ∀ n ≤ k + 1, T'.take n = T.take n := by
    intro n hn
    apply List.ext_getElem?
    intro j
    rw [List.getElem?_take, List.getElem?_take]
    split
    · exact h j (by omega)
    · rfl
  have hk' : k < T'.length := by
    have hlast := h k (Nat.le_refl k)
    rw [List.getElem?_eq_getElem hk] at hlast
    exact (List.getElem?_eq_some_iff.mp hlast).1
  have hi : i ≤ k + 1 := by omega
  have hbetween : (T.take (k + 1)).drop i = u :=
    List.append_cancel_right ((Token.drop_eq_append hk hi).symm.trans hdrop)
  refine ⟨htake i hi, ?_⟩
  rw [Token.drop_eq_append hk' hi, htake (k + 1) (Nat.le_refl _), hbetween]

end

namespace Parse

/-! ## §2. Outcomes -/

/-- A parser at an index of a token list, in an environment, with a record. -/
def State.start (T : List Token) (i : Nat) (env : Env) (trace : Trace) : State :=
  { cursor := .atIndex T i, env, trace }

/-- Two states are the same as far as the cursor has come: the same tokens have been read
    and the same one is next, in the same environment and with the same record. -/
structure State.SameSoFar (s t : State) : Prop where
  before : s.cursor.before = t.cursor.before
  current : s.cursor.current? = t.cursor.current?
  env : s.env = t.env
  trace : s.trace = t.trace

/-- Two runs have given the same, or failed in the same way, in states that are the same as
    far as the cursor has come. -/
inductive SameOutcome {α : Type} :
    EStateM.Result Failure State α → EStateM.Result Failure State α → Prop
  | ok (a : α) {s t : State} (h : s.SameSoFar t) : SameOutcome (.ok a s) (.ok a t)
  | error (f : Failure) {s t : State} (h : s.SameSoFar t) :
    SameOutcome (.error f s) (.error f t)

theorem sameSoFar_facing {t : State} {x : Token} {rest : List Token}
    (h : ahead t = x :: rest) (y : List Token) : t.SameSoFar (facing t (x :: y)) where
  before := rfl
  current := by
    have hhead : t.cursor.ahead = x :: rest := h
    show t.cursor.ahead.head? = some x
    rw [hhead]
    rfl
  env := rfl
  trace := rfl

/-! ## §3. Where a run ends -/

section
variable {α : Type} {m : ParseM α} {T : List Token} {i k : Nat} {s t : State}
  {result : State → EStateM.Result Failure State α}

/-- A run that has come to a token of the list, or to a part of it, has read what is
    before the token and looked at nothing after it. -/
theorem ReadsTo.of_standsOn (hreads : ReadsTo m s result t) (hs : ahead s = T.drop i)
    (hstands : t.cursor.StandsOn T k) :
    ∃ w x u, T[k]? = some w ∧ w.Leaves [x] ∧ ahead t = x :: T.drop (k + 1)
      ∧ u ≠ [] ∧ T.drop i = u ++ T.drop (k + 1)
      ∧ ∀ y, m (facing s (u ++ y)) = result (facing t (x :: y)) := by
  obtain ⟨w, left, hw, hleft, hahead⟩ := hstands
  cases hleft with
  | whole =>
    obtain ⟨u, hu, hdrop, hagain⟩ := hreads w (T.drop (k + 1)) hahead
    exact ⟨w, w, u, hw, .whole, hahead, hu, hs.symm.trans hdrop, hagain⟩
  | second hge =>
    obtain ⟨u, hu, hdrop, hagain⟩ := hreads _ (T.drop (k + 1)) hahead
    exact ⟨w, _, u, hw, .second hge, hahead, hu, hs.symm.trans hdrop, hagain⟩
  | halves hge =>
    -- the second half would be a token of the list, in the place of the whole one
    exfalso
    obtain ⟨u, -, hdrop, -⟩ := hreads _ (⟨.mark .equal, w.pos.right⟩ :: T.drop (k + 1)) hahead
    obtain ⟨hlt, hget⟩ := List.getElem?_eq_some_iff.mp hw
    have hsuffix : ⟨.mark .equal, w.pos.right⟩ :: T.drop (k + 1) <:+ T :=
      List.IsSuffix.trans ⟨u, (hs.symm.trans hdrop).symm⟩ (List.drop_suffix i T)
    have hplace := Token.eq_drop_of_suffix (k := k) hsuffix (by
      rw [List.length_cons, List.length_drop]
      omega)
    rw [List.drop_eq_getElem_cons hlt, hget] at hplace
    rw [← (List.cons.inj hplace).1] at hge
    cases hge

/-- On a list that agrees up to the token to which a run has come, it comes to the same. -/
theorem ReadsTo.settled {T' : List Token} {env : Env} {trace : Trace}
    (hreads : ReadsTo m (.start T i env trace) result t) (hstands : t.cursor.StandsOn T k)
    (hagree : ∀ j ≤ k, T'[j]? = T[j]?) :
    ∃ t', m (.start T' i env trace) = result t' ∧ t.SameSoFar t' ∧ t'.cursor.StandsOn T' k := by
  obtain ⟨w, x, u, hw, hx, ht, hu, hdrop, hagain⟩ := hreads.of_standsOn rfl hstands
  obtain ⟨hk, -⟩ := List.getElem?_eq_some_iff.mp hw
  obtain ⟨htake, hdrop'⟩ := Token.drop_of_agree hk hu hdrop hagree
  have hw' : T'[k]? = some w := (hagree k (Nat.le_refl k)).trans hw
  have hstart : State.start T' i env trace
      = facing (.start T i env trace) (u ++ T'.drop (k + 1)) := by
    rw [State.start, Cursor.atIndex, htake, hdrop']
    rfl
  refine ⟨facing t (x :: T'.drop (k + 1)), ?_, sameSoFar_facing ht _, w, [x], hw', hx, rfl⟩
  rw [hstart]
  exact hagain (T'.drop (k + 1))

/-- The last of some tokens after splits is what is left of the last of them. -/
theorem leaves_of_resplit {closing : List Token → Bool} {front pre front' : List Token}
    {w x : Token} (h : front' ++ [x] = front ++ resplit closing [] (pre ++ [w])) :
    w.Leaves [x] := by
  have hlast := congrArg List.getLast? h
  rw [resplit_append, resplit, resplit, List.append_nil, List.nil_append] at hlast
  split at hlast
  · next hsplit =>
    obtain rfl : x = ⟨.mark .equal, w.pos.right⟩ := by simpa [Token.halves] using hlast
    exact .second hsplit.1
  · obtain rfl : x = w := by simpa using hlast
    exact .whole

/-- A run that ends before some token has come to a token of the list, or to a part of it:
    cut off after it, the tokens end with that token or with what is left of it. -/
theorem Local.standsOn (hm : Local m m) {closing : List Token → Bool}
    (hclosing : ∀ front, closing front = true ↔ Fails m (facing s front) (lacksClose none))
    (hresult : ∀ t, final (result t) = t) (hreads : ReadsTo m s result t)
    (hs : ahead s = T.drop i) (ht : ahead t ≠ []) : ∃ k, i ≤ k ∧ t.cursor.StandsOn T k := by
  obtain ⟨x, rest, hahead⟩ := List.exists_cons_of_ne_nil ht
  obtain ⟨u, hu, hdrop, hagain⟩ := hreads x rest hahead
  obtain ⟨pre, w, rfl⟩ : ∃ pre w, u = pre ++ [w] :=
    ⟨u.dropLast, u.getLast hu, (List.dropLast_concat_getLast hu).symm⟩
  rw [hs, List.append_assoc] at hdrop
  -- the run ends on the last token that it has looked at
  refine ⟨i + pre.length, Nat.le_add_right _ _, w, [x], ?_, ?_, ?_⟩
  · rw [← List.getElem?_drop, hdrop]
    simp
  · have hcut := hm.tokens_eq hclosing (pre ++ [w])
    have hrun := hagain []
    rw [List.append_nil] at hrun
    rw [hrun, hresult] at hcut
    exact leaves_of_resplit hcut
  · have hrest : T.drop (i + pre.length + 1) = rest := by
      rw [Nat.add_assoc, ← List.drop_drop, hdrop]
      simp
    rw [hrest]
    exact hahead

end

/-! ## §4. Everything that can be read -/

section
variable (o : Options) (op : Operation) {T : List Token} {i : Nat} (env : Env) (trace : Trace)

/-- The end token is not passed, so every run ends before some token. -/
theorem Operation.ahead_ne_nil (hi : i < T.length) (heof : ∃ e, T.getLast? = some e ∧ e.isEof) :
    ahead (final (op.read o (.start T i env trace))) ≠ [] := by
  obtain ⟨e, hlast, he⟩ := heof
  have hahead : ∃ e ∈ (State.start T i env trace).cursor.ahead, e.isEof = true := by
    refine ⟨e, ?_, he⟩
    show e ∈ T.drop i
    have hdrop : (T.drop i).getLast? = some e := by
      rw [List.getLast?_drop, if_neg (by omega), hlast]
    exact List.mem_of_getLast? hdrop
  have hreaches := op.inSteps_reaches o (.start T i env trace)
    ((State.start T i env trace).cursor.weight + 1)
  unfold Ends at hreaches
  rw [op.inSteps_eq o _ (Nat.lt_succ_self _)] at hreaches
  -- moving the cursor never passes an end token
  have hstays : ∀ t : State, (∃ ls, (State.start T i env trace).cursor.Reaches ls t.cursor) →
      ahead t ≠ [] := by
    rintro t ⟨ls, hreach⟩ hnil
    obtain ⟨e, hmem, -⟩ := hreach.exists_eof hahead
    have hempty : t.cursor.ahead = [] := hnil
    rw [hempty] at hmem
    cases hmem
  revert hreaches
  cases op.read o (.start T i env trace) with
  | ok a t => exact hstays t
  | error f t => exact hstays t

theorem Operation.exists_standsOn (hi : i < T.length)
    (heof : ∃ e, T.getLast? = some e ∧ e.isEof) :
    ∃ k, i ≤ k ∧ (final (op.read o (.start T i env trace))).cursor.StandsOn T k := by
  have hlocal := op.read_local o
  have hne := op.ahead_ne_nil o env trace hi heof
  have hclosing : ∀ front, op.reaches o (.start T i env trace) front = true
      ↔ Fails (op.read o) (facing (.start T i env trace) front) (lacksClose none) :=
    fun front => wantsClose_iff
  have hreads := hlocal.reads (.start T i env trace)
  cases hrun : op.read o (.start T i env trace) with
  | ok a t =>
    rw [hrun] at hne
    exact hlocal.standsOn hclosing (fun t => rfl) (hreads.of_ok hrun) rfl hne
  | error f t =>
    rw [hrun] at hne
    exact hlocal.standsOn hclosing (fun t => rfl) (hreads.of_error hrun) rfl hne

/-- **What comes of a run is settled by the tokens up to the one at which it ends.**  Take
    anything to be read, from any index of a token list and in any environment, with checks
    or without.  If an end token stands last, the run ends on a token of the list, or on what
    is left of it after a split.  Whenever a run ends so, at index `k`, it comes to the same
    on any list that agrees up to `k`: it gives the same or fails in the same way, it has read
    the same and stands on the same token, in the same environment and with the same record.
    So nothing after the token at which the first error is met has a part in the error. -/
theorem settled_by_tokens_read (T : List Token) (i : Nat) :
    (i < T.length → (∃ e, T.getLast? = some e ∧ e.isEof) →
        ∃ k, i ≤ k ∧ (final (op.read o (.start T i env trace))).cursor.StandsOn T k)
      ∧ ∀ k, (final (op.read o (.start T i env trace))).cursor.StandsOn T k →
        ∀ T', (∀ j ≤ k, T'[j]? = T[j]?) →
          SameOutcome (op.read o (.start T i env trace)) (op.read o (.start T' i env trace))
            ∧ (final (op.read o (.start T' i env trace))).cursor.StandsOn T' k := by
  refine ⟨fun hi heof => op.exists_standsOn o env trace hi heof, ?_⟩
  intro k hstands T' hagree
  have hreads := (op.read_local o).reads (.start T i env trace)
  cases hrun : op.read o (.start T i env trace) with
  | ok a t =>
    rw [hrun] at hstands
    obtain ⟨t', hrun', hsame, hstands'⟩ := (hreads.of_ok hrun).settled hstands hagree
    rw [hrun']
    exact ⟨.ok a hsame, hstands'⟩
  | error f t =>
    rw [hrun] at hstands
    obtain ⟨t', hrun', hsame, hstands'⟩ := (hreads.of_error hrun).settled hstands hagree
    rw [hrun']
    exact ⟨.error f hsame, hstands'⟩

end

/-- `let x: list<int>= )` fails at the parenthesis, which has become the token after the one
    that it was, and so it does with anything else after it. -/
theorem settled_by_tokens_read_closing :
    let front : List Token :=
      [⟨.word .let_, ⟨0, 1, 1⟩⟩, ⟨.ident [120], ⟨4, 1, 5⟩⟩, ⟨.mark .colon, ⟨5, 1, 6⟩⟩,
        ⟨.word .list, ⟨7, 1, 8⟩⟩, ⟨.mark .lt, ⟨11, 1, 12⟩⟩, ⟨.word .int, ⟨12, 1, 13⟩⟩,
        ⟨.mark .ge, ⟨15, 1, 16⟩⟩, ⟨.mark .rparen, ⟨18, 1, 19⟩⟩]
    let T := front ++ [⟨.eof, ⟨19, 1, 20⟩⟩]
    let T' := front ++ [⟨.literal (.int 1), ⟨20, 1, 21⟩⟩, ⟨.mark .rbrace, ⟨22, 1, 23⟩⟩]
    let run := fun tokens => Operation.program.read {} (.start tokens 0 {} #[])
    (∃ k, 0 ≤ k ∧ (final (run T)).cursor.StandsOn T k)
      ∧ (final (run T)).cursor.position = 8 ∧ (final (run T)).cursor.StandsOn T 7
      ∧ SameOutcome (run T) (run T') ∧ (final (run T')).cursor.StandsOn T' 7 := by
  intro front T T' run
  have hposition : (final (run T)).cursor.position = 8 := by decide +kernel
  have hahead : (final (run T)).cursor.ahead
      = [⟨.mark .rparen, ⟨18, 1, 19⟩⟩, ⟨.eof, ⟨19, 1, 20⟩⟩] := by decide +kernel
  have hstands : (final (run T)).cursor.StandsOn T 7 := ⟨_, _, rfl, .whole, hahead⟩
  have hagree : ∀ j ≤ 7, T'[j]? = T[j]? := by decide
  obtain ⟨hends, hsettled⟩ := settled_by_tokens_read {} .program {} #[] T 0
  exact ⟨hends (by decide) ⟨_, rfl, rfl⟩, hposition, hstands, hsettled 7 hstands T' hagree⟩

end Parse
end Lumen
