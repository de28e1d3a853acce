/-
  Lumen.Proofs.Reading.StmtLocal — statements and programs see one token at a time.

  The readers of statements are made of readers of tokens, which are local, and of
  checks, changes and notes, which do not look at the tokens at all.

  The readers that need no count of steps take one step more than is left to read.
  That differs with the tokens that are ahead, but it is always enough, and so it is
  of no consequence.

  Main statements:
    * `Local.lift`, `Aside.isLocal` — what statements are made of;
    * `stmts_local`, `stmt_local`, `topStmts_local` — statements and programs;
    * `withSteps_local` — without a count of steps;
    * `Operation.read_local` — everything that can be read.
-/
import Lumen.Proofs.Reading.Local
import Lumen.Proofs.Checking.Shadowed
import Lumen.Proofs.Checking.Walks

namespace Lumen

namespace Parse
open CursorM

/-! ## §1. What statements are made of -/

section
variable {α : Type}

theorem onCursor_ok {m : CursorM α} {s : State} {a : α} {c : Cursor} (h : m s.cursor = .ok a c) :
    onCursor m s = .ok a { s with cursor := c } := by
  unfold onCursor
  rw [h]

theorem onCursor_error {m : CursorM α} {s : State} {f : Failure} {c : Cursor}
    (h : m s.cursor = .error f c) : onCursor m s = .error f { s with cursor := c } := by
  unfold onCursor
  rw [h]

theorem onCursor_congr {m m' : CursorM α} {s s' : State} (h : m s.cursor = m' s'.cursor)
    (henv : s.env = s'.env) (htrace : s.trace = s'.trace) : onCursor m s = onCursor m' s' := by
  unfold onCursor
  rw [h]
  cases m' s'.cursor with
  | ok a c => simp only [henv, htrace]
  | error f c => simp only [henv, htrace]

theorem fails_onCursor {m : CursorM α} {s : State} {f : Failure} :
    Fails (onCursor m) s f ↔ Fails m s.cursor f := by
  constructor
  · rintro ⟨t, hrun⟩
    cases hm : m s.cursor with
    | ok a c =>
      rw [onCursor_ok hm] at hrun
      cases hrun
    | error g c =>
      rw [onCursor_error hm] at hrun
      cases hrun
      exact ⟨c, hm⟩
  · rintro ⟨c, hrun⟩
    exact ⟨_, onCursor_error hrun⟩

/-- A reader of tokens among readers of statements. -/
theorem Local.lift {m₀ m : CursorM α} (h : Local m₀ m) :
    Local (liftM m₀ : ParseM α) (liftM m) where
  steps s := by
    rcases h.steps s.cursor with hout | hsame
    · exact .inl (fails_onCursor.mpr hout)
    · exact .inr (onCursor_congr hsame rfl rfl)
  atEnd s hs := ends_lift.mpr (h.atEnd s.cursor hs)
  reads s := by
    rw [ends_lift]
    apply (h.reads s.cursor).mono
    · intro a c hreads x rest hc
      obtain ⟨u, hu, hs, hagain⟩ := hreads x rest hc
      exact ⟨u, hu, hs, fun y => onCursor_ok (hagain y)⟩
    · intro f c hreads x rest hc
      obtain ⟨u, hu, hs, hagain⟩ := hreads x rest hc
      exact ⟨u, hu, hs, fun y => onCursor_error (hagain y)⟩
  closes s hs p post :=
    onCursor_congr (h.closes s.cursor (fails_onCursor.mp hs) p post) rfl rfl
  stops s hs t rest hge hgt := by
    obtain ⟨c, hrun, hc⟩ := h.stops s.cursor (fails_onCursor.mp hs) t rest hge hgt
    exact ⟨_, onCursor_error hrun, hc⟩
  splits s := by
    rw [ends_lift]
    have hlift : ∀ c, Splits m s.cursor c →
        Splits (liftM m : ParseM α) s { s with cursor := c } := by
      rintro c (hsame | ⟨pre, p, post, hs, hfails⟩)
      · exact .inl hsame
      · exact .inr ⟨pre, p, post, hs, fails_onCursor.mpr hfails⟩
    exact (h.splits s.cursor).mono (fun _ => hlift) fun _ => hlift

theorem isApart_ne_lacksClose {f : Failure} (h : f.isApart = true) (met : Option Token) :
    f ≠ lacksClose met := by
  rintro rfl
  cases h

/-- What has nothing to do with the tokens does the same before any. -/
theorem Aside.isLocal {m : ParseM α} (h : Aside m) : Local m m := by
  -- what fails here is a check or a change, never the end of a list type
  have hfails : ∀ {s met}, ¬ Fails m s (lacksClose met) := by
    rintro ⟨c, env, trace⟩ met ⟨t, hrun⟩
    obtain ⟨a, env₁, trace₁, hm⟩ | ⟨f, env₁, trace₁, hf, hm⟩ := h env trace
    · cases (hm c).symm.trans hrun
    · cases (hm c).symm.trans hrun
      exact isApart_ne_lacksClose hf met rfl
  -- no token is taken, so any token that is ahead is all that the run needs
  have hreads : ∀ {s t : State} {result : State → EStateM.Result Failure State α},
      (∀ ts, m (facing s ts) = result (facing t ts)) → ahead t = ahead s →
        ReadsTo m s result t := by
    intro s t result hm ht x rest hrest
    exact ⟨[x], List.cons_ne_nil _ _, ht.symm.trans hrest, fun y => hm (x :: y)⟩
  apply local_of_plain hfails
  · rintro ⟨c, env, trace⟩
    obtain ⟨a, env₁, trace₁, hm⟩ | ⟨f, env₁, trace₁, hf, hm⟩ := h env trace
    · exact (ends_ok (hm c)).mpr ⟨rfl, id⟩
    · exact (ends_error (hm c)).mpr ⟨rfl, id⟩
  · rintro ⟨c, env, trace⟩
    obtain ⟨a, env₁, trace₁, hm⟩ | ⟨f, env₁, trace₁, hf, hm⟩ := h env trace
    · exact (ends_ok (hm c)).mpr (hreads (fun ts => hm _) rfl)
    · exact (ends_error (hm c)).mpr (hreads (fun ts => hm _) rfl)

end

/-! ## §2. Statements -/

section
variable {α : Type} (o : Options)

theorem inScope_local (locals : List Param) {body₀ body : ParseM α} (hbody : Local body₀ body) :
    Local (inScope o locals body₀) (inScope o locals body) := by
  unfold inScope
  split
  · apply (enter_aside o).isLocal.bind
    intro _
    apply (updating_aside o fun env => declareAll_apart env locals).isLocal.bind
    intro _
    apply hbody.bind
    exact fun a => (leave_aside o).isLocal.bind fun _ => local_pure a
  · exact hbody

/-- Readers of statements are local, since all that they are made of is. -/
theorem stmts_local : StmtCongruence o o (· ≤ ·) (fun _ m₀ m => Local m₀ m)
    fun _ m₀ m => Local m₀ m where
  toCongruence := local_congruence
  tokens := tokens_local
  ofTokens h := h.lift
  ofCheck hcheck := (checking_aside o hcheck.apart).isLocal
  ofChange hchange := (updating_aside o hchange.apart).isLocal
  ofScope locals _ _ hbody := inScope_local o locals hbody
  ofNote e := (note_aside o e).isLocal
  ofEnactTop a := (enactTop_aside o a).isLocal

theorem stmt_local {n₀ n : Nat} (hle : n₀ ≤ n) : Local (stmt o n₀) (stmt o n) :=
  stmt_congr (stmts_local o) hle

theorem topStmts_local {n₀ n : Nat} (hle : n₀ ≤ n) {k₀ k : Nat} (hk : k₀ ≤ k) :
    Local (topStmts o n₀ k₀) (topStmts o n k) :=
  topStmts_congr (stmts_local o) hle hk

end

/-! ## §3. Readers that need no count of steps -/

section
variable {α : Type}

theorem Fails.more_steps {m₀ m : ParseM α} (hm : Local m₀ m) {s : State} {f : Failure}
    (hf : f ≠ .outOfSteps) (h : Fails m₀ s f) : Fails m s f := by
  obtain ⟨t, hrun⟩ := h
  rcases hm.steps s with ⟨t', hout⟩ | hsame
  · rw [hrun] at hout
    cases hout
    exact absurd rfl hf
  · exact ⟨t, hsame.trans hrun⟩

/-- Steps that are enough for several runs. -/
theorem exists_steps (states : List State) : ∃ n, ∀ s ∈ states, s.cursor.weight < n := by
  induction states with
  | nil => exact ⟨0, fun _ h => by cases h⟩
  | cons s states ih =>
    obtain ⟨n, hn⟩ := ih
    refine ⟨s.cursor.weight + n + 1, List.forall_mem_cons.mpr ⟨by omega, fun t ht => ?_⟩⟩
    have := hn t ht
    omega

variable {read : Nat → ParseM α} (hsteps : ∀ s n, s.cursor.weight < n → HasSteps (read n) s)
  (hread : ∀ n₀ n, n₀ ≤ n → Local (read n₀) (read n))
include hsteps hread

/-- More steps than are needed make no difference. -/
theorem withSteps_eq {s : State} {n : Nat} (hn : s.cursor.weight < n) :
    withSteps read s = read n s := by
  show read (s.cursor.weight + 1) s = _
  rcases (hread _ n hn).steps s with ⟨t, hout⟩ | hsame
  · exact absurd rfl (Ends.of_error (hsteps s _ (Nat.lt_succ_self _)) hout)
  · exact hsame.symm

/-- What is read again with any number of steps is read again with as many as there
    are. -/
theorem withSteps_readsTo {s t : State} {result : State → EStateM.Result Failure State α}
    (hrun : withSteps read s = result t)
    (h : ∀ n, read n s = result t → ReadsTo (read n) s result t) :
    ReadsTo (withSteps read) s result t := by
  intro x rest ht
  obtain ⟨u, hu, hs, -⟩ := h _ hrun x rest ht
  refine ⟨u, hu, hs, fun y => ?_⟩
  -- one number of steps that is enough for this text and for the other one
  obtain ⟨n, hn⟩ := exists_steps [s, facing s (u ++ y)]
  rw [withSteps_eq hsteps hread (hn s (by simp))] at hrun
  obtain ⟨u', -, hs', hagain⟩ := h n hrun x rest ht
  obtain rfl : u' = u := List.append_cancel_right (hs'.symm.trans hs)
  rw [withSteps_eq hsteps hread (hn _ (by simp))]
  exact hagain y

theorem withSteps_local : Local (withSteps read) (withSteps read) where
  steps _ := .inr rfl
  atEnd s hs := (hread _ _ (Nat.le_refl (s.cursor.weight + 1))).atEnd s hs
  reads s := by
    cases hrun : withSteps read s with
    | ok a t =>
      rw [ends_ok hrun]
      apply withSteps_readsTo hsteps hread hrun
      exact fun n hn => ((hread n n (Nat.le_refl n)).reads s).of_ok hn
    | error f t =>
      rw [ends_error hrun]
      apply withSteps_readsTo hsteps hread hrun
      exact fun n hn => ((hread n n (Nat.le_refl n)).reads s).of_error hn
  closes s hs p post := by
    obtain ⟨n, hn⟩ := exists_steps [s, facing s (ahead s ++ ⟨.mark .ge, p⟩ :: post),
      facing s (ahead s ++ ⟨.mark .gt, p⟩ :: ⟨.mark .equal, p.right⟩ :: post)]
    rw [Fails, withSteps_eq hsteps hread (hn s (by simp))] at hs
    rw [withSteps_eq hsteps hread (hn _ (by simp)), withSteps_eq hsteps hread (hn _ (by simp))]
    exact (hread n n (Nat.le_refl n)).closes s hs p post
  stops s hs t rest hge hgt := by
    obtain ⟨n, hn⟩ := exists_steps [s, facing s (ahead s ++ t :: rest)]
    rw [Fails, withSteps_eq hsteps hread (hn s (by simp))] at hs
    rw [StopsBefore, withSteps_eq hsteps hread (hn _ (by simp))]
    exact (hread n n (Nat.le_refl n)).stops s hs t rest hge hgt
  splits s := by
    have hlift : ∀ t, Splits (read (s.cursor.weight + 1)) s t → Splits (withSteps read) s t := by
      rintro t (hsame | ⟨pre, p, post, hs, hfails⟩)
      · exact .inl hsame
      · refine .inr ⟨pre, p, post, hs, ?_⟩
        -- in front of the split token fewer steps are counted, but they are enough there
        obtain ⟨n, hn⟩ := exists_steps [s, facing s pre]
        rw [Fails, withSteps_eq hsteps hread (hn _ (by simp))]
        exact hfails.more_steps (hread _ n (hn s (by simp))) Failure.noConfusion
    exact ((hread _ _ (Nat.le_refl _)).splits s).mono (fun _ => hlift) fun _ => hlift

end

/-! ## §4. Everything that can be read -/

/-- What can be read from the tokens that are ahead. -/
inductive Operation where
  | program
  | statement
  | statements
  | expression
  | typeName

/-- What an operation gives. -/
def Operation.Given : Operation → Type
  | program => Program
  | statement => Stmt
  | statements => Block
  | expression => Expr
  | typeName => Ty

/-- The reader that performs an operation. -/
def Operation.read (o : Options) : (op : Operation) → ParseM op.Given
  | program => Parse.program o
  | statement => Parse.statement o
  | statements => Parse.statements o
  | expression => Parse.expression
  | typeName => Parse.typeName

section
variable (o : Options)

theorem program_local : Local (program o) (program o) := by
  unfold program
  apply (withSteps_local (fun s n => topStmts_hasSteps o s)
    fun _ _ hle => topStmts_local o hle hle).bind
  intro p
  apply Aside.isLocal
  exact aside_get (k := fun env => do note o (.parsed p.length env.functions.length); pure p)
    fun env => (note_aside o _).bind fun _ => aside_pure p

/-- Whatever is read, one token is seen at a time. -/
theorem Operation.read_local (op : Operation) : Local (op.read o) (op.read o) := by
  cases op with
  | program => exact program_local o
  | statement =>
    exact withSteps_local (fun s n => stmt_hasSteps o s) fun _ _ hle => stmt_local o hle
  | statements =>
    exact withSteps_local (fun s n hn => block_hasSteps o s hn [])
      fun _ _ hle => stmtBlock_congr (stmts_local o) hle []
  | expression =>
    exact withSteps_local (fun s n => expr_hasSteps s) fun _ _ hle => (expr_local hle).lift
  | typeName =>
    exact withSteps_local (fun s n => type_hasSteps s) fun _ _ hle => (type_local hle).lift

end

end Parse
end Lumen
