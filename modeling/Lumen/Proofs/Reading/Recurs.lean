/-
  Lumen.Proofs.Reading.Recurs — what has been read, in front of something else.

  A reader that has come to the token after an expression or a statement has looked at
  that token, and has found that nothing goes on there.  It finds the same at every
  token with which a statement or the end of a block begins, and where the text ends.
  So it reads the same again with another of these in the place of what followed.

  After `return` there is one thing more to be found: whether a value comes.  There the
  other text has to end the block, or end altogether.

  Main statements:
    * `Suits` — what may come where a reader has stopped;
    * `Recurs` — a reader that reads the same again in front of it;
    * `Recurs.bind`, `Recurs.after`, `recurs_optional` — sequences, and looking ahead;
    * `expr_recurs` — expressions.
-/
import Lumen.Proofs.Reading.Local
import Lumen.Proofs.Reading.StmtComplete

namespace Lumen

namespace Parse
open CursorM

/-! ## §1. What may come next -/

section
variable {σ : Type} [HasCursor σ]

/-- What was read last. -/
def lastRead? (s : σ) : Option Lexeme := (HasCursor.cursor s).before.head?.map Token.lexeme

/-- Whether some tokens may come where a reader has stopped: a statement starts there, a
    block ends or the text does; after `return` it is one of the latter. -/
structure Suits (s : σ) (next : List Token) : Prop where
  resumes : Resumes (Token.lexemes next)
  closes : lastRead? s = some (.word .return_) → closes (Token.lexemes next) = true

theorem Suits.congr {s t : σ} {next : List Token} (h : Suits t next)
    (hbefore : (HasCursor.cursor t).before = (HasCursor.cursor s).before) : Suits s next := by
  refine ⟨h.resumes, fun hlast => h.closes ?_⟩
  rwa [lastRead?, hbefore]

/-- What ends a block may come anywhere. -/
theorem suits_of_closes {next : List Token} (h : closes (Token.lexemes next) = true) (s : σ) :
    Suits s next := by
  refine ⟨fun l hl => ?_, fun _ => h⟩
  unfold Parse.closes at h
  rw [Option.mem_def.mp hl] at h
  rcases Bool.or_eq_true_iff.mp h with hend | helse
  · rw [eq_of_beq hend]
    exact .inr rfl
  · rw [eq_of_beq helse]
    exact .inr rfl

end

/-- A decision on the next token is the same wherever a statement starts, a block ends or
    the text does. -/
def Calm {γ : Type} (look : Option Token → γ) (stop : γ) : Prop :=
  ∀ t? : Option Token,
    (∀ t ∈ t?, t.lexeme.startsStmt = true ∨ t.lexeme.endsBlock = true) → look t? = stop

theorem calm_of_lexeme {γ : Type} (look : Option Lexeme → γ) {stop : γ} (hnone : look none = stop)
    (h : ∀ l : Lexeme, l.startsStmt = true ∨ l.endsBlock = true → look (some l) = stop) :
    Calm (fun t? => look (t?.map Token.lexeme)) stop := by
  intro t? ht
  cases t? with
  | none => exact hnone
  | some t => exact h t.lexeme (ht t rfl)

/-- Whether a given token is there, which neither starts a statement nor ends a block. -/
theorem isAt_calm {l : Lexeme} (hstarts : l.startsStmt = false) (hends : l.endsBlock = false) :
    Calm (fun t? => t?.map Token.lexeme == some l) false := by
  apply calm_of_lexeme (fun l? => l? == some l) rfl
  intro l' hl'
  show (some l' == some l) = false
  rw [beq_eq_false_iff_ne]
  rintro heq
  rw [Option.some.inj heq, hstarts, hends] at hl'
  rcases hl' with h | h
  · cases h
  · cases h

/-! ## §2. Reading the same again -/

section
variable {σ α β γ : Type} [Facing σ]

/-- Over at least `k` tokens a run of `m` has come from `s` to `t` and has given `a`, and it
    does so wherever these tokens stand in front of some that may come next. -/
def Recur (k : Nat) (m : EStateM Failure σ α) (s : σ) (a : α) (t : σ) : Prop :=
  ∃ u, k ≤ u.length ∧ ahead s = u ++ ahead t
    ∧ (u = [] → (HasCursor.cursor t).before = (HasCursor.cursor s).before)
    ∧ ∀ next, Suits t next → m (facing s (u ++ next)) = .ok a (facing t next)

/-- A run of `m` from `s` that has read at least `k` tokens reads the same again in front of
    whatever may come next. -/
def RecursAt (k : Nat) (m : EStateM Failure σ α) (s : σ) : Prop :=
  Ends m s (Recur k m s) fun _ _ => True

/-- All runs of a reader do so. -/
def Recurs (k : Nat) (m : EStateM Failure σ α) : Prop := ∀ s, RecursAt k m s

theorem Recur.weaken {j k : Nat} {m : EStateM Failure σ α} {s t : σ} {a : α}
    (h : Recur j m s a t) (hle : k ≤ j) : Recur k m s a t := by
  obtain ⟨u, hlen, hrest⟩ := h
  exact ⟨u, Nat.le_trans hle hlen, hrest⟩

/-- It may be forgotten that something was read. -/
theorem Recurs.forget {k : Nat} {m : EStateM Failure σ α} (h : Recurs k m) : Recurs 0 m :=
  fun s => Ends.weaken (h s) fun _ _ hread => hread.weaken (Nat.zero_le k)

theorem recurs_throw (f : Failure) (k : Nat) : Recurs k (throw f : EStateM Failure σ α) :=
  fun _ => trivial

/-- Where nothing is read, nothing is asked of what comes next. -/
theorem recur_resting {m : EStateM Failure σ α} {s t : σ} {a : α}
    (hcursor : HasCursor.cursor t = HasCursor.cursor s)
    (h : ∀ next, m (facing s next) = .ok a (facing t next)) : Recur 0 m s a t :=
  ⟨[], Nat.le_refl 0, congrArg Cursor.ahead hcursor.symm, fun _ => by rw [hcursor],
    fun next _ => h next⟩

theorem recurs_pure (a : α) : Recurs 0 (pure a : EStateM Failure σ α) :=
  fun _ => recur_resting rfl fun _ => rfl

variable {m : EStateM Failure σ α} {f : α → EStateM Failure σ β} {s t t' : σ} {a : α} {b : β}

/-- A sequence: if its second part reads something, the first has stopped at a token that
    stays where it is; and if not, both stop at the same place. -/
theorem Recur.bind {k : Nat} (h : Recur k m s a t) (hreads : ReadsTo m s (.ok a) t)
    (h' : Recur 0 (f a) t b t') : Recur k (m >>= f) s b t' := by
  -- `u` is read first, and `v` by the second part
  obtain ⟨u, hlen, hs, hbefore, hagain⟩ := h
  obtain ⟨v, -, ht, hbefore', hagain'⟩ := h'
  refine ⟨u ++ v, ?_, ?_, ?_, ?_⟩
  · rw [List.length_append]
    omega
  · rw [hs, ht, List.append_assoc]
  · intro hnil
    obtain ⟨hu, hv⟩ := List.append_eq_nil_iff.mp hnil
    rw [hbefore' hv, hbefore hu]
  · intro next hnext
    cases v with
    | nil =>
      -- nothing more is read, so the first part stands before the new text too
      rw [List.append_nil, bind_of_ok (hagain next (hnext.congr (hbefore' rfl)))]
      exact hagain' next hnext
    | cons x v =>
      -- the first part has seen `x`, which stays, and looks no further
      obtain ⟨w, -, hs', hmore⟩ := hreads x (v ++ ahead t') ht
      have hw : u ++ [x] = w := by
        have hboth : u ++ [x] ++ (v ++ ahead t') = w ++ (v ++ ahead t') := by
          rw [← hs', hs, ht, List.append_assoc]
          rfl
        exact List.append_cancel_right hboth
      have hall : u ++ x :: v ++ next = w ++ (v ++ next) := by
        rw [← hw]
        simp
      rw [hall, bind_of_ok (hmore (v ++ next))]
      exact hagain' next hnext

/-- A sequence whose second part reads something.  Of its first part no more is asked than
    that it sees one token at a time. -/
theorem Recur.after (hreads : ReadsTo m s (.ok a) t) (h : Recur 1 (f a) t b t') :
    Recur 1 (m >>= f) s b t' := by
  obtain ⟨v, hlen, ht, -, hagain⟩ := h
  cases v with
  | nil => exact absurd hlen (Nat.not_succ_le_zero 0)
  | cons x v =>
    obtain ⟨w, hw, hs, hmore⟩ := hreads x (v ++ ahead t') ht
    have hpos := List.length_pos_iff.mpr hw
    refine ⟨w ++ v, ?_, ?_, ?_, ?_⟩
    · rw [List.length_append]
      omega
    · rw [hs, List.append_assoc]
    · exact fun hnil => absurd (List.append_eq_nil_iff.mp hnil).1 hw
    · intro next hnext
      rw [List.append_assoc, bind_of_ok (hmore (v ++ next))]
      exact hagain next hnext

theorem Recurs.bind {k : Nat} (hlocal : Local m m) (hm : Recurs k m) (hf : ∀ a, Recurs 0 (f a)) :
    Recurs k (m >>= f) := by
  intro s
  rw [RecursAt, ends_bind]
  apply (Ends.and (hm s) (hlocal.reads s)).mono
  · rintro a t ⟨hread, hreads⟩
    exact Ends.weaken (hf a t) fun b t' => hread.bind hreads
  · exact fun _ _ _ => trivial

theorem Recurs.after (hlocal : Local m m) (hf : ∀ a, Recurs 1 (f a)) : Recurs 1 (m >>= f) := by
  intro s
  rw [RecursAt, ends_bind]
  apply (hlocal.reads s).mono
  · exact fun a t hreads => Ends.weaken (hf a t) fun b t' => Recur.after hreads
  · exact fun _ _ _ => trivial

/-! ## §3. Looking ahead -/

/-- The same tokens begin with the same token, whatever comes after them. -/
theorem token?_facing {s : σ} {u v : List Token} (hs : ahead s = u ++ v) (hu : u ≠ [])
    (next : List Token) :
    (HasCursor.cursor (facing s (u ++ next))).token? = (HasCursor.cursor s).token? := by
  apply token?_congr
  show (ahead (facing s (u ++ next))).head? = (ahead s).head?
  rw [ahead_facing, hs]
  exact head?_append_of_ne_nil hu v next

section
variable {look : Option Token → γ} {m : EStateM Failure σ γ} (hm : Looks m look)
  {f : γ → EStateM Failure σ α} {s t : σ} {a : α}
include hm

/-- The token that is seen is read, so that it is seen again. -/
theorem Recur.peek {k : Nat} (h : Recur (k + 1) (f (look (HasCursor.cursor s).token?)) s a t) :
    Recur (k + 1) (m >>= f) s a t := by
  obtain ⟨u, hlen, hs, hbefore, hagain⟩ := h
  refine ⟨u, hlen, hs, hbefore, fun next hnext => ?_⟩
  have hu : u ≠ [] := List.ne_nil_of_length_pos (by omega)
  rw [looks_bind hm, token?_facing hs hu next]
  exact hagain next hnext

/-- If nothing is read, the decision is the same at what comes next. -/
theorem Recur.stop {k : Nat} {stop : γ} (hcalm : Calm look stop)
    (hlook : look (HasCursor.cursor s).token? = stop) (h : Recur k (f stop) s a t) :
    Recur k (m >>= f) s a t := by
  obtain ⟨u, hlen, hs, hbefore, hagain⟩ := h
  refine ⟨u, hlen, hs, hbefore, fun next hnext => ?_⟩
  rw [looks_bind hm]
  have hsame : look (HasCursor.cursor (facing s (u ++ next))).token? = stop := by
    -- either what comes next is looked at, or a token that was read after all
    by_cases hu : u = []
    · subst hu
      apply hcalm
      intro x hx
      apply hnext.resumes
      have hhead := Cursor.map_token? (HasCursor.cursor (facing s ([] ++ next)))
      rw [Option.mem_def.mp hx, Facing.cursor_facing] at hhead
      exact hhead.symm
    · rw [token?_facing hs hu next]
      exact hlook
  rw [hsame]
  exact hagain next hnext

/-- What is read after looking may depend on what was seen. -/
theorem RecursAt.peek (h : RecursAt 1 (f (look (HasCursor.cursor s).token?)) s) :
    RecursAt 1 (m >>= f) s := by
  rw [RecursAt, ends_looks hm]
  exact Ends.weaken h fun a t hread => hread.peek hm

theorem recurs_peek (h : ∀ x, Recurs 1 (f x)) : Recurs 1 (m >>= f) :=
  fun s => (h _ s).peek hm

/-- Nothing need be read after looking, if what decides is the same at what comes next. -/
theorem recurs_optional {stop : γ} (hcalm : Calm look stop) (hstop : Recurs 0 (f stop))
    (h : ∀ x, x ≠ stop → Recurs 1 (f x)) : Recurs 0 (m >>= f) := by
  intro s
  rw [RecursAt, ends_looks hm]
  by_cases hlook : look (HasCursor.cursor s).token? = stop
  · rw [hlook]
    exact Ends.weaken (hstop s) fun a t hread => hread.stop hm hcalm hlook
  · exact Ends.weaken (h _ hlook s) fun a t hread => (hread.peek hm).weaken (Nat.zero_le 1)

end

end

/-! ## §4. Readers of single tokens -/

theorem unexpected_recurs {α : Type} (expected : Expected) (k : Nat) :
    Recurs k (unexpected expected : CursorM α) := fun _ => trivial

theorem advance_recurs : Recurs 1 advance := by
  intro c
  rcases advance_cases c with ⟨-, hadvance⟩ | ⟨t, ht, hadvance⟩
  · exact (ends_error hadvance).mpr trivial
  · rw [RecursAt, ends_ok hadvance]
    have hahead : ahead c = [t] ++ ahead (c.past t) := ahead_of_token? ht
    refine ⟨[t], Nat.le_refl 1, hahead, fun h => absurd h (List.cons_ne_nil _ _), ?_⟩
    intro next _
    apply advance_of_some
    rw [← ht]
    exact token?_congr (congrArg List.head? hahead).symm

/-- Reading a token and giving something. -/
theorem advanced_recurs {α : Type} (a : α) : Recurs 1 (do let _ ← advance; return a) :=
  Recurs.bind advance_local advance_recurs fun _ => recurs_pure a

theorem mark_recurs (m : Mark) : Recurs 1 (mark m) := by
  unfold mark
  apply recurs_peek (isAt_looks _)
  intro found
  split
  · exact advanced_recurs ()
  · exact unexpected_recurs _ _

theorem word_recurs (w : Word) : Recurs 1 (word w) := by
  unfold word
  apply recurs_peek (isAt_looks _)
  intro found
  split
  · exact advanced_recurs ()
  · exact unexpected_recurs _ _

section
variable {α : Type} {l : Lexeme} {f : Bool → CursorM α}

theorem accept_recurs (hstarts : l.startsStmt = false) (hends : l.endsBlock = false) :
    Recurs 0 (accept l) := by
  unfold accept
  refine recurs_optional (isAt_looks l) (isAt_calm hstarts hends) (recurs_pure false) ?_
  intro found hfound
  cases found with
  | false => exact absurd rfl hfound
  | true => exact advanced_recurs true

/-- A closing mark, or something else in its place. -/
theorem recurs_unless (h : Recurs 0 (f true)) (h' : Recurs 1 (f false)) :
    Recurs 1 (accept l >>= f) := by
  unfold accept
  rw [bind_assoc]
  apply recurs_peek (isAt_looks l)
  intro found
  cases found with
  | true =>
    simp only [reduceIte, bind_assoc, pure_bind]
    exact Recurs.bind advance_local advance_recurs fun _ => h
  | false => exact h'

/-- A token that means something is read.  None with which a statement starts or a block
    ends does. -/
theorem select?_recurs {meaning : Lexeme → Option α}
    (h : ∀ l : Lexeme, l.startsStmt = true ∨ l.endsBlock = true → meaning l = none) :
    Recurs 0 (select? meaning) := by
  have hselect : select? meaning
      = (do return (← lexeme?).bind meaning : CursorM (Option α)) >>= readFor := rfl
  have hlook : Looks (do return (← lexeme?).bind meaning : CursorM (Option α))
      fun t? => (t?.map Token.lexeme).bind meaning := fun _ => rfl
  have hcalm : Calm (fun t? => (t?.map Token.lexeme).bind meaning) none :=
    calm_of_lexeme (fun l? => l?.bind meaning) rfl h
  rw [hselect]
  refine recurs_optional hlook hcalm (recurs_pure none) ?_
  intro a? ha
  cases a? with
  | none => exact absurd rfl ha
  | some a => exact advanced_recurs (some a)

end

/-! ## §5. Expressions

In brackets an expression is followed by the closing mark, so that there nothing is asked of
its reader but that it sees one token at a time. -/

/-- An operator neither starts a statement nor ends a block. -/
theorem logicalJoin?_calm (op : LogicalOp) {l : Lexeme}
    (h : l.startsStmt = true ∨ l.endsBlock = true) : logicalJoin? op l = none := by
  cases l with
  | word w => cases w <;> cases op <;> first | rfl | (rcases h with h | h <;> cases h)
  | _ => rfl

theorem binaryJoin?_calm (ok : BinaryOp → Bool) {l : Lexeme}
    (h : l.startsStmt = true ∨ l.endsBlock = true) : binaryJoin? ok l = none := by
  cases l with
  | mark m => rcases h with h | h <;> cases h
  | _ => rfl

section
variable {operand : CursorM Expr} (hlocal : Local operand operand) (hop : Recurs 1 operand)
include hlocal hop

section
variable {join? : Lexeme → Option Join}
  (hjoin : ∀ l : Lexeme, l.startsStmt = true ∨ l.endsBlock = true → join? l = none)
include hjoin

theorem chain_recurs (steps : Nat) (lhs : Expr) : Recurs 0 (chain join? operand steps lhs) := by
  induction steps generalizing lhs with
  | zero => exact recurs_throw _ _
  | succ steps ih =>
    unfold chain
    apply Recurs.bind (select?_congr tokens_local join?) (select?_recurs hjoin)
    intro join
    split
    · exact recurs_pure lhs
    · exact (Recurs.bind hlocal hop fun rhs => ih _).forget

theorem leftAssoc_recurs (steps : Nat) : Recurs 1 (leftAssoc join? operand steps) := by
  unfold leftAssoc
  exact Recurs.bind hlocal hop fun lhs => chain_recurs hlocal hop hjoin steps lhs

theorem nonAssoc_recurs : Recurs 1 (nonAssoc join? operand) := by
  unfold nonAssoc
  apply Recurs.bind hlocal hop
  intro lhs
  apply Recurs.bind (select?_congr tokens_local join?) (select?_recurs hjoin)
  intro join
  split
  · exact recurs_pure lhs
  · exact (Recurs.bind hlocal hop fun rhs => recurs_pure _).forget

end

theorem signed_recurs (steps : Nat) : Recurs 1 (signed operand steps) := by
  induction steps with
  | zero => exact recurs_throw _ _
  | succ steps ih =>
    unfold signed
    apply recurs_peek (isAt_looks _)
    intro minus
    split
    · exact Recurs.after advance_local fun sign =>
        Recurs.bind (signed_congr tokens_local hlocal (Nat.le_refl steps)) ih fun e => recurs_pure _
    · exact hop

end

section
variable {expr : CursorM Expr} (hlocal : Local expr expr)
include hlocal

theorem listed_recurs {close : Mark} (hclose : close ≠ .gt) (steps : Nat) :
    Recurs 1 (listed close expr steps) := by
  induction steps with
  | zero => exact recurs_throw _ _
  | succ steps ih =>
    unfold listed
    apply Recurs.after hlocal
    intro e
    apply recurs_unless
    · refine (recurs_peek (isAt_looks _) ?_).forget
      intro closes
      split
      · exact unexpected_recurs _ _
      · exact Recurs.bind (listed_congr tokens_local hlocal (Nat.le_refl steps) hclose) ih
          fun es => recurs_pure _
    · exact Recurs.bind (mark_congr tokens_local hclose) (mark_recurs close) fun _ => recurs_pure _

theorem arguments_recurs {close : Mark} (hclose : close ≠ .gt) (steps : Nat) :
    Recurs 1 (arguments close expr steps) := by
  unfold arguments
  exact recurs_unless (recurs_pure []) (listed_recurs hlocal hclose steps)

theorem indices_recurs (steps : Nat) : Recurs 0 (indices expr steps) := by
  induction steps with
  | zero => exact recurs_throw _ _
  | succ steps ih =>
    unfold indices
    apply Recurs.bind (accept_congr tokens_local _) (accept_recurs rfl rfl)
    intro opens
    split
    · exact (Recurs.after hlocal fun index =>
        Recurs.bind (mark_congr tokens_local Mark.noConfusion) (mark_recurs _) fun _ =>
          Recurs.bind (indices_congr tokens_local hlocal (Nat.le_refl steps)) ih
            fun path => recurs_pure _).forget
    · exact recurs_pure []

theorem named_recurs (steps : Nat) (pos : Pos) (name : Bytes) :
    Recurs 0 (named expr steps pos name) := by
  have harguments : Recurs 1 (arguments .rparen expr steps) :=
    arguments_recurs hlocal Mark.noConfusion steps
  have hargumentsLocal : Local (arguments .rparen expr steps) (arguments .rparen expr steps) :=
    arguments_congr tokens_local hlocal (Nat.le_refl steps) Mark.noConfusion
  unfold named
  apply Recurs.bind (accept_congr tokens_local _) (accept_recurs rfl rfl)
  intro called
  split
  · exact (Recurs.bind hargumentsLocal harguments fun args => recurs_pure _).forget
  · -- no call: indices, and then a method perhaps
    apply Recurs.bind (indices_congr tokens_local hlocal (Nat.le_refl steps))
      (indices_recurs hlocal steps)
    intro path
    apply Recurs.bind (accept_congr tokens_local _) (accept_recurs rfl rfl)
    intro dot
    split
    · have hmethod : Local (identifier .methodName) (identifier .methodName) :=
        identifier_congr tokens_local Expected.noConfusion
      refine (Recurs.after hmethod fun method => ?_).forget
      exact Recurs.after (mark_congr tokens_local Mark.noConfusion) fun _ =>
        Recurs.bind hargumentsLocal harguments fun args => recurs_pure _
    · exact recurs_pure _

theorem primary_recurs (steps : Nat) : Recurs 1 (primary expr steps) := by
  unfold primary
  apply recurs_peek lexeme?_looks
  intro l?
  split
  · exact Recurs.bind advance_local advance_recurs fun t => recurs_pure _
  · exact Recurs.bind advance_local advance_recurs fun t => named_recurs hlocal steps t.pos _
  · exact Recurs.after advance_local fun t => Recurs.after hlocal fun inner =>
      Recurs.bind (mark_congr tokens_local Mark.noConfusion) (mark_recurs _) fun _ => recurs_pure _
  · exact Recurs.after advance_local fun t =>
      Recurs.bind (arguments_congr tokens_local hlocal (Nat.le_refl steps) Mark.noConfusion)
        (arguments_recurs hlocal Mark.noConfusion steps) fun es => recurs_pure _
  · exact unexpected_recurs _ _

theorem disjunction_recurs (steps : Nat) : Recurs 1 (disjunction expr steps) := by
  have hle := Nat.le_refl steps
  have hprimaryLocal := primary_congr tokens_local hlocal hle
  have hsigned := signed_recurs hprimaryLocal (primary_recurs hlocal steps) steps
  have hsignedLocal := signed_congr tokens_local hprimaryLocal hle
  -- level by level, each locality beside the one that it is used with
  have hmul : Recurs 1 (multiplicative expr steps) :=
    leftAssoc_recurs hsignedLocal hsigned (fun _ => binaryJoin?_calm _) steps
  have hmulLocal : Local (multiplicative expr steps) (multiplicative expr steps) :=
    leftAssoc_congr tokens_local hsignedLocal _ hle
  have hadd : Recurs 1 (additive expr steps) :=
    leftAssoc_recurs hmulLocal hmul (fun _ => binaryJoin?_calm _) steps
  have haddLocal : Local (additive expr steps) (additive expr steps) :=
    leftAssoc_congr tokens_local hmulLocal _ hle
  have hcmp : Recurs 1 (comparison expr steps) :=
    nonAssoc_recurs haddLocal hadd fun _ => binaryJoin?_calm _
  have hcmpLocal : Local (comparison expr steps) (comparison expr steps) :=
    nonAssoc_congr tokens_local haddLocal _
  have hand : Recurs 1 (conjunction expr steps) :=
    leftAssoc_recurs hcmpLocal hcmp (fun _ => logicalJoin?_calm _) steps
  have handLocal : Local (conjunction expr steps) (conjunction expr steps) :=
    leftAssoc_congr tokens_local hcmpLocal _ hle
  exact leftAssoc_recurs handLocal hand (fun _ => logicalJoin?_calm _) steps

end

/-- Whole expressions. -/
theorem expr_recurs (steps : Nat) : Recurs 1 (expr steps) := by
  cases steps with
  | zero => exact recurs_throw _ _
  | succ steps =>
    rw [expr_succ]
    exact disjunction_recurs (expr_local (Nat.le_refl steps)) (steps + 1)

end Parse
end Lumen
