/-
  Lumen.Proofs.Access.Tape — tokens by their index.

  A tape is a row of tagged tokens and an index.  It is read one token at a time, by
  asking for the token at an index; where there is none that is a fault, and so it is to
  pass the end.  A reader that looks before it asks runs into neither.

  A cursor shows as a tape, its tokens with their tags and its position as the index; the
  tapes that come about so are those whose payloads go with the tags and whose index is
  not past the tokens.  A reader of tapes mirrors a reader of cursors if it comes to what
  the other comes to, tags put on: a token that is passed where none is left is then a
  fault on both sides, and there is no other.

  Main statements:
    * `Tape.exists_cursor` — a sound tape is that of a cursor;
    * `MirrorsAt.bind`, `Mirrors.bind` — sequences;
    * `Tape.advance_mirrors` … `Tape.splitGe_mirrors` — single tokens;
    * `Tape.type_mirrors` — types.
-/
import Lumen.Proofs.Access.Tagged
import Lumen.Proofs.Reading.Ends
import Lumen.Parse.Ty

namespace Lumen

/-! ## §1. Errors as they are reported -/

/-- An error as it is put together when it is found: its texts, and the token to blame. -/
structure Report where
  kind : String
  expected : Bytes := []
  found : Option TaggedToken := none
  foundText : Bytes := []
  name : Bytes := []
  pos : Option Pos
deriving DecidableEq

/-- What is reported of an error. -/
def ParseError.report (e : ParseError) : Report where
  kind := e.kindName
  expected := e.expectedText
  found := e.found?.map Token.tagged
  foundText := e.foundText
  name := e.name
  pos := e.pos?

namespace Report

/-- Something is wanted in the place of a token, or at the end of the text, which is no
    token. -/
def unexpected (expected : Bytes) : Option TaggedToken → Except Fault Report
  | none =>
    .ok { kind := "unexpected-token", expected, foundText := ascii "end of input", pos := none }
  | some ⟨⟨.eof, _⟩, pos⟩ =>
    .ok { kind := "unexpected-token", expected, foundText := ascii "end of input", pos := some pos }
  | some t => do
    let text ← t.content.describe
    .ok
      { kind := "unexpected-token", expected, found := some t, foundText := text,
        pos := some t.pos }

/-- A token with which no statement starts, or which closes no block. -/
def noStatement (kind : String) (found : TaggedToken) : Except Fault Report := do
  let text ← found.content.describe
  .ok
    { kind, expected := ascii "statement", found := some found, foundText := text,
      pos := some found.pos }

theorem unexpected_eq (expected : Expected) (met : Option Token) :
    unexpected expected.text (met.map Token.tagged)
      = .ok (ParseError.unexpected expected met).report := by
  cases met with
  | none => rfl
  | some t =>
    obtain ⟨l, p⟩ := t
    cases l with
    | literal v =>
      cases v with
      | bool b => cases b <;> rfl
      | _ => rfl
    | _ => rfl

theorem unknownStatement_eq (met : Token) :
    noStatement "unknown-statement" met.tagged
      = .ok (ParseError.unknownStatement met).report := by
  show (met.lexeme.tagged.describe >>= _) = _
  rw [Tagged.describe_tagged]
  rfl

theorem strayTerminator_eq (met : Token) :
    noStatement "malformed-block" met.tagged = .ok (ParseError.strayTerminator met).report := by
  show (met.lexeme.tagged.describe >>= _) = _
  rw [Tagged.describe_tagged]
  rfl

end Report

/-! ## §2. Runs that may fault -/

/-- Why a run ended without a result: a fault, an error as it is reported, or what else may
    end a run. -/
inductive Stop where
  | fault (f : Fault)
  | error (r : Report)
  | globalScope
  | outOfSteps
deriving DecidableEq

/-- A failure as it shows where accesses can fault: the only fault is to pass the end. -/
def Failure.stop : Failure → Stop
  | error e => .error e.report
  | globalScope => .globalScope
  | pastEnd => .fault .atEnd
  | outOfSteps => .outOfSteps

section
variable {σ τ α β γ δ : Type}

/-- What is asked of a token, within a run. -/
def access (r : Except Fault α) : EStateM Stop τ α :=
  match r with
  | .ok a => pure a
  | .error f => throw (.fault f)

/-- The end of a run as it shows on the other side. -/
def mirrored (S : σ → τ) (view : α → β) :
    EStateM.Result Failure σ α → EStateM.Result Stop τ β
  | .ok a s => .ok (view a) (S s)
  | .error f s => .error f.stop (S s)

/-- From the state that shows `s`, a run of `r` comes to what one of `m` comes to. -/
def MirrorsAt (S : σ → τ) (view : α → β) (r : EStateM Stop τ β) (m : EStateM Failure σ α)
    (s : σ) : Prop := r (S s) = mirrored S view (m s)

/-- A reader mirrors another one. -/
def Mirrors (S : σ → τ) (view : α → β) (r : EStateM Stop τ β) (m : EStateM Failure σ α) :
    Prop := ∀ s, MirrorsAt S view r m s

variable {S : σ → τ} {view : α → β} {view' : γ → δ} {r : EStateM Stop τ β}
  {m : EStateM Failure σ α} {s : σ}

theorem mirrors_pure (a : α) : Mirrors S view (pure (view a)) (pure a) := fun _ => rfl

theorem mirrors_throw (f : Failure) : Mirrors S view (throw f.stop) (throw f) := fun _ => rfl

/-- The second part of a sequence goes on from where the first has come to. -/
theorem MirrorsAt.bind {r' : β → EStateM Stop τ δ} {m' : α → EStateM Failure σ γ}
    (h : MirrorsAt S view r m s)
    (hrest : ∀ a t, m s = .ok a t → MirrorsAt S view' (r' (view a)) (m' a) t) :
    MirrorsAt S view' (r >>= r') (m >>= m') s := by
  unfold MirrorsAt at h ⊢
  cases hrun : m s with
  | ok a t =>
    rw [hrun] at h
    rw [bind_of_ok h, bind_of_ok hrun]
    exact hrest a t hrun
  | error f t =>
    rw [hrun] at h
    rw [bind_of_error h, bind_of_error hrun]
    rfl

theorem Mirrors.bind {r' : β → EStateM Stop τ δ} {m' : α → EStateM Failure σ γ}
    (h : Mirrors S view r m) (hrest : ∀ a, Mirrors S view' (r' (view a)) (m' a)) :
    Mirrors S view' (r >>= r') (m >>= m') :=
  fun s => (h s).bind fun a t _ => hrest a t

/-- The first parts of two sequences come to states that show each other. -/
theorem MirrorsAt.passed {t : σ} {r₀ : EStateM Stop τ δ} {r' : δ → EStateM Stop τ β} {b : δ}
    {m₀ : EStateM Failure σ γ} {m' : γ → EStateM Failure σ α} {a : γ}
    (hr : r₀ (S s) = .ok b (S t)) (hm : m₀ s = .ok a t)
    (hrest : MirrorsAt S view (r' b) (m' a) t) : MirrorsAt S view (r₀ >>= r') (m₀ >>= m') s := by
  unfold MirrorsAt
  rw [bind_of_ok hr, bind_of_ok hm]
  exact hrest

/-- A look that changes nothing, on the side of the faults. -/
theorem MirrorsAt.looked {r₀ : EStateM Stop τ δ} {r' : δ → EStateM Stop τ β} {b : δ}
    (hlook : r₀ (S s) = .ok b (S s)) (h : MirrorsAt S view (r' b) m s) :
    MirrorsAt S view (r₀ >>= r') m s := by
  unfold MirrorsAt
  rw [bind_of_ok hlook]
  exact h

/-- A look that changes nothing, on the other side. -/
theorem MirrorsAt.peeked {m₀ : EStateM Failure σ γ} {m' : γ → EStateM Failure σ α} {a : γ}
    (hlook : m₀ s = .ok a s) (h : MirrorsAt S view r (m' a) s) :
    MirrorsAt S view r (m₀ >>= m') s := by
  unfold MirrorsAt
  rw [bind_of_ok hlook]
  exact h

end

/-! ## §3. Tapes -/

/-- Tokens in a row, and an index. -/
structure Tape where
  tokens : List TaggedToken
  index : Nat := 0
deriving DecidableEq

/-- A reader of tapes. -/
abbrev TapeM := EStateM Stop Tape

namespace Tape

/-- The payloads go with the tags, and the index is not past the tokens. -/
structure IsSound (tape : Tape) : Prop where
  tokens : ∀ t ∈ tape.tokens, t.content.isSound = true
  index : tape.index ≤ tape.tokens.length

/-- The token at an index. -/
def tokenAt (i : Nat) : TapeM TaggedToken := do
  match (← get).tokens[i]? with
  | some t => return t
  | none => throw (.fault .outside)

/-- The token at the index of the tape. -/
def here : TapeM TaggedToken := do tokenAt (← get).index

/-- The token in front of the index. -/
def previous : TapeM TaggedToken := do
  match (← get).index with
  | 0 => throw (.fault .outside)
  | i + 1 => tokenAt i

/-- Whether nothing is left to read. -/
def atEnd : TapeM Bool := do
  let tape ← get
  if tape.tokens.length ≤ tape.index then return true
  else return (← here).content.tag == .eof

/-- Whether something is left to read, of a certain kind. -/
def looksAt (ok : Tag → Bool) : TapeM Bool := do
  if ← atEnd then return false
  else return ok (← here).content.tag

def check (k : Tag) : TapeM Bool := looksAt (· == k)

/-- Whether something is left to read that is a certain token, with no payload. -/
def isNext (k : Tag) : TapeM Bool := do
  if ← atEnd then return false
  else return (← here).content == ⟨k, .none⟩

/-- Passes one token and gives it, the one that is then in front of the index. -/
def advance : TapeM TaggedToken := do
  if ← atEnd then throw (.fault .atEnd)
  else
    modify fun tape => { tape with index := tape.index + 1 }
    previous

/-- Passes a token of a certain kind if it is there, and tells whether it was. -/
def accept (k : Tag) : TapeM Bool := do
  if ← check k then
    let _ ← advance
    return true
  else return false

/-- The token at the index, if there is one. -/
def found? : TapeM (Option TaggedToken) := do
  let tape ← get
  if tape.index < tape.tokens.length then return some (← here)
  else return none

/-- The token after that at the index, if there is one. -/
def following? : TapeM (Option TaggedToken) := do
  let tape ← get
  if tape.index + 1 < tape.tokens.length then return some (← tokenAt (tape.index + 1))
  else return none

/-- Reports what is wanted in the place of the token at the index, if there is one. -/
def unexpected {α : Type} (expected : Bytes) : TapeM α := do
  throw (.error (← access (Report.unexpected expected (← found?))))

/-- Passes a mark or a reserved word, which has to be there. -/
def eat (k : Tag) : TapeM Unit := do
  if ← isNext k then
    let _ ← here
    modify fun tape => { tape with index := tape.index + 1 }
  else unexpected (← access (Tagged.describe ⟨k, .none⟩))

/-- Passes a name, which has to be there. -/
def identifier (expected : Bytes) : TapeM Bytes := do
  if ← check .ident then access (← advance).content.text
  else unexpected expected

/-- Puts `>` and `=` in the place of a `>=`, if that is there. -/
def splitGe : TapeM Unit := do
  if ← check (.mark .ge) then
    let t ← here
    modify fun tape =>
      { tape with
        tokens := (tape.tokens.set tape.index ⟨⟨.mark .gt, .none⟩, t.pos⟩).insertIdx
          (tape.index + 1) ⟨⟨.mark .equal, .none⟩, t.pos.right⟩ }

end Tape

/-! ## §4. Cursors as tapes -/

/-- A cursor as it shows where tokens have tags and are found by their index. -/
def Cursor.tape (c : Cursor) : Tape := ⟨c.tokens.map Token.tagged, c.position⟩

namespace Cursor
variable (c : Cursor)

theorem getElem?_tape : c.tape.tokens[c.tape.index]? = c.current?.map Token.tagged := by
  obtain ⟨before, ahead⟩ := c
  cases ahead <;> simp [tape, tokens, position, current?]

theorem length_tape_le_iff : c.tape.tokens.length ≤ c.tape.index ↔ c.current? = none := by
  obtain ⟨before, ahead⟩ := c
  cases ahead <;> simp [tape, tokens, position, current?]

theorem tape_past {c : Cursor} {t : Token} (h : c.current? = some t) :
    (c.past t).tape = { c.tape with index := c.tape.index + 1 } := by
  unfold tape
  rw [tokens_past h]
  rfl

/-- What is in front of the index of a tape, once a token has been passed. -/
theorem getElem?_tape_past {c : Cursor} {t : Token} (h : c.current? = some t) :
    (c.past t).tape.tokens[c.position]? = some t.tagged := by
  rw [tape_past h]
  have hhere := c.getElem?_tape
  rw [h] at hhere
  exact hhere

end Cursor

/-- A tape on which payloads go with tags is that of a cursor. -/
theorem Tape.exists_cursor {tape : Tape} (h : tape.IsSound) : ∃ c : Cursor, c.tape = tape := by
  have htokens : ∀ ts : List TaggedToken, (∀ t ∈ ts, t.content.isSound = true) →
      ∃ T : List Token, T.map Token.tagged = ts := by
    intro ts hts
    induction ts with
    | nil => exact ⟨[], rfl⟩
    | cons t ts ih =>
      obtain ⟨ht, hrest⟩ := List.forall_mem_cons.mp hts
      obtain ⟨l, hl⟩ := (Tagged.isSound_iff t.content).mp ht
      obtain ⟨T, hT⟩ := ih hrest
      refine ⟨⟨l, t.pos⟩ :: T, ?_⟩
      rw [List.map_cons, hT, Token.tagged, hl]
  obtain ⟨T, hT⟩ := htokens tape.tokens h.tokens
  -- the cursor stands where the index does, with what was passed in reverse
  refine ⟨⟨(T.take tape.index).reverse, T.drop tape.index⟩, ?_⟩
  have hindex : tape.index ≤ T.length := by
    have := h.index
    rwa [← hT, List.length_map] at this
  obtain ⟨tokens, index⟩ := tape
  simp only [Cursor.tape, Cursor.tokens, Cursor.position, List.reverse_reverse,
    List.take_append_drop, List.length_reverse, List.length_take, Tape.mk.injEq]
  exact ⟨hT, Nat.min_eq_left hindex⟩

theorem Cursor.tape_isSound (c : Cursor) : c.tape.IsSound where
  tokens := by
    intro t ht
    obtain ⟨u, -, rfl⟩ := List.mem_map.mp ht
    exact (Tagged.isSound_iff _).mpr ⟨u.lexeme, rfl⟩
  index := by
    simp [tape, tokens, position]

/-! ## §5. Single tokens -/

namespace CursorM

/-! A look at what is ahead leaves the cursor as it is. -/

theorem token?_run (c : Cursor) : token? c = .ok c.token? c := rfl

theorem lexeme?_run (c : Cursor) : lexeme? c = .ok c.lexeme? c := rfl

theorem isAt_run (l : Lexeme) (c : Cursor) : isAt l c = .ok (c.lexeme? == some l) c := rfl

end CursorM

namespace Tape
variable {c : Cursor} {t : Token}

theorem tag_tagged_eq_eof (t : Token) : (t.tagged.content.tag == .eof) = t.isEof := by
  obtain ⟨l, p⟩ := t
  cases l with
  | literal v => cases v <;> rfl
  | _ => rfl

theorem tokenAt_of_some {tape : Tape} {u : TaggedToken} {i : Nat}
    (h : tape.tokens[i]? = some u) : tokenAt i tape = .ok u tape := by
  have hget : (get : TapeM Tape) tape = .ok tape tape := rfl
  unfold tokenAt
  rw [bind_of_ok hget, h]
  rfl

/-- Where a token is asked for only if there is one, there is no fault. -/
theorem found?_eq (tape : Tape) : found? tape = .ok tape.tokens[tape.index]? tape := by
  show (if tape.index < tape.tokens.length then (do return some (← here))
    else pure none : TapeM (Option TaggedToken)) tape = _
  by_cases hlt : tape.index < tape.tokens.length
  · have hsome := List.getElem?_eq_getElem hlt
    have hhere : here tape = .ok tape.tokens[tape.index] tape := tokenAt_of_some hsome
    rw [if_pos hlt, hsome, bind_of_ok hhere]
    rfl
  · rw [if_neg hlt, List.getElem?_eq_none (Nat.le_of_not_lt hlt)]
    rfl

theorem following?_eq (tape : Tape) :
    following? tape = .ok tape.tokens[tape.index + 1]? tape := by
  show (if tape.index + 1 < tape.tokens.length then
      (do return some (← tokenAt (tape.index + 1)))
    else pure none : TapeM (Option TaggedToken)) tape = _
  by_cases hlt : tape.index + 1 < tape.tokens.length
  · have hsome := List.getElem?_eq_getElem hlt
    rw [if_pos hlt, hsome, bind_of_ok (tokenAt_of_some hsome)]
    rfl
  · rw [if_neg hlt, List.getElem?_eq_none (Nat.le_of_not_lt hlt)]
    rfl

theorem here_of_current (h : c.current? = some t) : here c.tape = .ok t.tagged c.tape := by
  have hat : c.tape.tokens[c.tape.index]? = some t.tagged := by
    rw [c.getElem?_tape, h]
    rfl
  exact tokenAt_of_some hat

theorem atEnd_tape (c : Cursor) : atEnd c.tape = .ok c.atEnd c.tape := by
  show (if c.tape.tokens.length ≤ c.tape.index then (pure true : TapeM Bool)
    else (do return (← here).content.tag == .eof)) c.tape = _
  cases hcurrent : c.current? with
  | none =>
    rw [if_pos (c.length_tape_le_iff.mpr hcurrent)]
    have hend : c.atEnd = true := by rw [Cursor.atEnd, Cursor.token?, hcurrent]; rfl
    rw [hend]
    rfl
  | some t =>
    rw [if_neg (fun h => by rw [c.length_tape_le_iff.mp h] at hcurrent; cases hcurrent)]
    rw [bind_of_ok (here_of_current hcurrent)]
    have hend : c.atEnd = t.isEof := by
      rw [Cursor.atEnd, Cursor.token?, hcurrent]
      cases h : t.isEof <;> simp [h]
    rw [hend, tag_tagged_eq_eof]
    rfl

/-- Where nothing is left to read, that is seen. -/
theorem atEnd_of_none (h : c.token? = none) : atEnd c.tape = .ok true c.tape := by
  rw [atEnd_tape, Cursor.atEnd, h]
  rfl

/-- Where something is left to read, that is seen. -/
theorem atEnd_of_some (h : c.token? = some t) : atEnd c.tape = .ok false c.tape := by
  rw [atEnd_tape, Cursor.atEnd, h]
  rfl

theorem here_of_some (h : c.token? = some t) : here c.tape = .ok t.tagged c.tape :=
  here_of_current (Option.filter_eq_some_iff.mp h).1

/-- A look at what is left to read tells what the cursor tells. -/
theorem looksAt_tape (ok : Tag → Bool) (c : Cursor) :
    looksAt ok c.tape = .ok (c.lexeme?.any fun l => ok l.tagged.tag) c.tape := by
  unfold looksAt Cursor.lexeme?
  cases h : c.token? with
  | none =>
    rw [bind_of_ok (atEnd_of_none h)]
    rfl
  | some t =>
    rw [bind_of_ok (atEnd_of_some h)]
    show (do return ok (← here).content.tag : TapeM Bool) c.tape = _
    rw [bind_of_ok (here_of_some h)]
    rfl

/-- Where nothing is left to read, a look finds nothing. -/
theorem looksAt_of_none (h : c.token? = none) (ok : Tag → Bool) :
    looksAt ok c.tape = .ok false c.tape := by
  rw [looksAt_tape, Cursor.lexeme?, h]
  rfl

/-- Where something is left to read, a look tells its tag. -/
theorem looksAt_of_some (h : c.token? = some t) (ok : Tag → Bool) :
    looksAt ok c.tape = .ok (ok t.tagged.content.tag) c.tape := by
  rw [looksAt_tape, Cursor.lexeme?, h]
  rfl

/-- Where something is left to read, it is passed and given. -/
theorem advance_of_some (h : c.token? = some t) :
    advance c.tape = .ok t.tagged (c.past t).tape := by
  obtain ⟨hcurrent, -⟩ := Option.filter_eq_some_iff.mp h
  unfold advance
  rw [bind_of_ok (atEnd_of_some h), if_neg Bool.false_ne_true]
  show previous { c.tape with index := c.tape.index + 1 } = _
  rw [← Cursor.tape_past hcurrent]
  -- the token in front of the index is the one that was at it
  exact tokenAt_of_some (Cursor.getElem?_tape_past hcurrent)

theorem advance_mirrors : Mirrors Cursor.tape Token.tagged advance CursorM.advance := by
  intro c
  unfold MirrorsAt
  cases h : c.token? with
  | none =>
    rw [CursorM.advance_of_none h]
    unfold advance
    rw [bind_of_ok (atEnd_of_none h)]
    rfl
  | some t =>
    rw [CursorM.advance_of_some h, advance_of_some h]
    rfl

/-- Reading on after a token that was seen before. -/
theorem passed_mirrors {α β : Type} {view : α → β} {r : TaggedToken → TapeM β}
    {m : Token → CursorM α} (h : c.token? = some t)
    (hrest : MirrorsAt Cursor.tape view (r t.tagged) (m t) (c.past t)) :
    MirrorsAt Cursor.tape view (advance >>= r) (CursorM.advance >>= m) c :=
  MirrorsAt.passed (advance_of_some h) (CursorM.advance_of_some h) hrest

end Tape

/-- A tag that tells all about a token: it has no payload. -/
structure Tag.Tells (k : Tag) (l : Lexeme) : Prop where
  tagged : l.tagged = ⟨k, .none⟩
  only : ∀ l' : Lexeme, l'.tagged.tag = k → l' = l

theorem Tag.word_tells (w : Word) : Tells (.word w) (.word w) where
  tagged := rfl
  only l := by
    cases l with
    | literal v => cases v <;> exact fun h => by cases h
    | word w' => exact fun h => congrArg _ (Tag.word.inj h)
    | _ => exact fun h => by cases h

theorem Tag.mark_tells (m : Mark) : Tells (.mark m) (.mark m) where
  tagged := rfl
  only l := by
    cases l with
    | literal v => cases v <;> exact fun h => by cases h
    | mark m' => exact fun h => congrArg _ (Tag.mark.inj h)
    | _ => exact fun h => by cases h

namespace Tape

section
variable {k : Tag} {l : Lexeme} (hk : k.Tells l)
include hk

theorem any_tag_eq (l? : Option Lexeme) :
    (l?.any fun l' => l'.tagged.tag == k) = (l? == some l) := by
  cases l? with
  | none => rfl
  | some l' =>
    rw [Option.any_some, Bool.eq_iff_iff, beq_iff_eq, beq_iff_eq, Option.some.injEq]
    exact ⟨hk.only l', fun h => by rw [h, hk.tagged]⟩

theorem check_mirrors : Mirrors Cursor.tape id (check k) (CursorM.isAt l) := by
  intro c
  show check k c.tape = .ok (c.lexeme? == some l) c.tape
  rw [check, looksAt_tape, any_tag_eq hk]

/-- Going on after a certain token, if it is there. -/
theorem checked_mirrors {α β : Type} {view : α → β} {found : TaggedToken → TapeM β}
    {missing : TapeM β} {found' : Token → CursorM α} {missing' : CursorM α}
    (hfound : ∀ t : Token, t.lexeme = l → Mirrors Cursor.tape view (found t.tagged) (found' t))
    (hmissing : Mirrors Cursor.tape view missing missing') :
    Mirrors Cursor.tape view (do if ← check k then found (← advance) else missing)
      (do if ← CursorM.isAt l then found' (← CursorM.advance) else missing') := by
  intro c
  apply MirrorsAt.looked (check_mirrors hk c)
  apply MirrorsAt.peeked (CursorM.isAt_run l c)
  dsimp only [id]
  cases hthere : c.lexeme? == some l with
  | true =>
    obtain ⟨t, ht, hlexeme⟩ := Option.map_eq_some_iff.mp (beq_iff_eq.mp hthere)
    exact passed_mirrors ht (hfound t hlexeme _)
  | false => exact hmissing c

theorem isNext_mirrors : Mirrors Cursor.tape id (isNext k) (CursorM.isAt l) := by
  intro c
  show isNext k c.tape = .ok (c.lexeme? == some l) c.tape
  unfold isNext Cursor.lexeme?
  cases h : c.token? with
  | none =>
    rw [bind_of_ok (atEnd_of_none h)]
    rfl
  | some t =>
    rw [bind_of_ok (atEnd_of_some h), if_neg Bool.false_ne_true, bind_of_ok (here_of_some h)]
    have hsame : (t.tagged.content == ⟨k, .none⟩) = (some t.lexeme == some l) := by
      rw [Bool.eq_iff_iff, beq_iff_eq, beq_iff_eq, Option.some.injEq]
      constructor
      · exact fun h => hk.only t.lexeme (congrArg Tagged.tag h)
      · rintro rfl
        exact hk.tagged
    exact congrArg (EStateM.Result.ok · c.tape) hsame

theorem accept_mirrors : Mirrors Cursor.tape id (accept k) (CursorM.accept l) := by
  apply (check_mirrors hk).bind
  intro there
  cases there with
  | true => exact advance_mirrors.bind fun _ => mirrors_pure true
  | false => exact mirrors_pure false

end

theorem found_tape (c : Cursor) : found? c.tape = .ok (c.current?.map Token.tagged) c.tape := by
  rw [found?_eq, c.getElem?_tape]

theorem unexpected_mirrors {α β : Type} (view : α → β) (expected : Expected) :
    Mirrors Cursor.tape view (unexpected expected.text) (CursorM.unexpected expected) := by
  intro c
  apply MirrorsAt.looked (found_tape c)
  rw [Report.unexpected_eq]
  rfl

/-- Passing what is at the index goes as passing a token does. -/
theorem eat_mirrors {k : Tag} {l : Lexeme} (hk : k.Tells l) {expected : Expected}
    (htext : expected.text = l.describe) :
    Mirrors Cursor.tape id (eat k) (do
      if ← CursorM.isAt l then let _ ← CursorM.advance
      else CursorM.unexpected expected) := by
  intro c
  apply MirrorsAt.looked (isNext_mirrors hk c)
  apply MirrorsAt.peeked (CursorM.isAt_run l c)
  dsimp only [id]
  cases hthere : c.lexeme? == some l with
  | true =>
    obtain ⟨t, ht, -⟩ := Option.map_eq_some_iff.mp (beq_iff_eq.mp hthere)
    apply MirrorsAt.looked (here_of_some ht)
    show EStateM.Result.ok () { c.tape with index := c.tape.index + 1 }
      = mirrored Cursor.tape id ((CursorM.advance >>= fun _ => pure ()) c)
    rw [bind_of_ok (CursorM.advance_of_some ht),
      ← Cursor.tape_past (Option.filter_eq_some_iff.mp ht).1]
    rfl
  | false =>
    -- the description of the tag alone is the one of the lexeme: it needs no payload
    have htells : Tagged.describe ⟨k, .none⟩ = .ok expected.text := by
      rw [← hk.tagged, Tagged.describe_tagged, htext]
    rw [htells]
    exact unexpected_mirrors id expected c

theorem mark_mirrors (m : Mark) : Mirrors Cursor.tape id (eat (.mark m)) (CursorM.mark m) :=
  eat_mirrors (Tag.mark_tells m) rfl

theorem word_mirrors (w : Word) : Mirrors Cursor.tape id (eat (.word w)) (CursorM.word w) :=
  eat_mirrors (Tag.word_tells w) rfl

/-- A look at what is left to read, and at the same time on the other side. -/
theorem looked_mirrors {α β : Type} {view : α → β} {ok : Tag → Bool} {r : Bool → TapeM β}
    {m : Option Lexeme → CursorM α}
    (hnone : ∀ c : Cursor, c.token? = none → MirrorsAt Cursor.tape view (r false) (m none) c)
    (hsome : ∀ (c : Cursor) t, c.token? = some t →
      MirrorsAt Cursor.tape view (r (ok t.tagged.content.tag)) (m (some t.lexeme)) c) :
    Mirrors Cursor.tape view (looksAt ok >>= r) (CursorM.lexeme? >>= m) := by
  intro c
  apply MirrorsAt.looked (looksAt_tape ok c)
  apply MirrorsAt.peeked (CursorM.lexeme?_run c)
  unfold Cursor.lexeme?
  cases h : c.token? with
  | none => exact hnone c h
  | some t => exact hsome c t h

/-- A look whether anything is left to read, and at it on the other side. -/
theorem seen_mirrors {α β : Type} {view : α → β} {r : Bool → TapeM β}
    {m : Option Lexeme → CursorM α}
    (hnone : ∀ c : Cursor, c.token? = none → MirrorsAt Cursor.tape view (r true) (m none) c)
    (hsome : ∀ (c : Cursor) t, c.token? = some t →
      MirrorsAt Cursor.tape view (r false) (m (some t.lexeme)) c) :
    Mirrors Cursor.tape view (atEnd >>= r) (CursorM.lexeme? >>= m) := by
  intro c
  apply MirrorsAt.peeked (CursorM.lexeme?_run c)
  unfold Cursor.lexeme?
  cases h : c.token? with
  | none => exact MirrorsAt.looked (atEnd_of_none h) (hnone c h)
  | some t => exact MirrorsAt.looked (atEnd_of_some h) (hsome c t h)

theorem identifier_mirrors (expected : Expected) :
    Mirrors Cursor.tape id (identifier expected.text) (CursorM.identifier expected) := by
  apply looked_mirrors
  · intro c h
    exact unexpected_mirrors id expected c
  · intro c t h
    obtain ⟨l, p⟩ := t
    cases l with
    | ident name => exact passed_mirrors h rfl
    | literal v => cases v <;> exact unexpected_mirrors id expected c
    | _ => exact unexpected_mirrors id expected c

/-- One element of a row replaced by two. -/
theorem insertIdx_set {α : Type} (front rest : List α) (x y z : α) :
    ((front ++ x :: rest).set front.length y).insertIdx (front.length + 1) z
      = front ++ y :: z :: rest := by
  induction front with
  | nil => rfl
  | cons a front ih => simpa using ih

theorem splitGe_of_current {c : Cursor} {p : Pos} (h : c.current? = some ⟨.mark .ge, p⟩) :
    c.splitGe.tape = { c.tape with
      tokens := (c.tape.tokens.set c.tape.index ⟨⟨.mark .gt, .none⟩, p⟩).insertIdx
        (c.tape.index + 1) ⟨⟨.mark .equal, .none⟩, p.right⟩ } := by
  obtain ⟨before, ahead⟩ := c
  cases ahead with
  | nil => cases h
  | cons t rest =>
    obtain rfl : t = ⟨.mark .ge, p⟩ := Option.some.inj h
    have hlength : before.length = (before.reverse.map Token.tagged).length := by simp
    simp only [Cursor.splitGe, Cursor.tape, Cursor.tokens, Cursor.position, List.map_append,
      List.map_cons]
    rw [hlength, insertIdx_set]
    rfl

theorem splitGe_mirrors : Mirrors Cursor.tape id splitGe (modify Cursor.splitGe) := by
  intro c
  apply MirrorsAt.looked (check_mirrors (Tag.mark_tells .ge) c)
  dsimp only [id]
  cases hthere : c.lexeme? == some (.mark .ge) with
  | true =>
    obtain ⟨t, ht, hlexeme⟩ := Option.map_eq_some_iff.mp (beq_iff_eq.mp hthere)
    obtain ⟨l, p⟩ := t
    obtain rfl : l = .mark .ge := hlexeme
    apply MirrorsAt.looked (here_of_some ht)
    show EStateM.Result.ok () _ = EStateM.Result.ok () c.splitGe.tape
    rw [splitGe_of_current (Option.filter_eq_some_iff.mp ht).1]
    rfl
  | false =>
    -- a token that is not `>=` is left alone
    have hsame : c.splitGe = c := by
      unfold Cursor.splitGe
      split
      · next h =>
        rw [Cursor.lexeme?, Cursor.token?, Cursor.current?, h] at hthere
        exact absurd hthere Bool.true_eq_false.mp
      · rfl
    show EStateM.Result.ok () c.tape = EStateM.Result.ok () c.splitGe.tape
    rw [hsame]

/-! ## §6. Types -/

/-- Reads a type. -/
def type : (steps : Nat) → TapeM Ty
  | 0 => throw .outOfSteps
  | steps + 1 => do
    if ← atEnd then unexpected (ascii "type")
    else
      match (← here).content.tag.scalarType? with
      | some t =>
        let _ ← advance
        return t
      | none =>
        if ← check (.word .list) then
          let _ ← advance
          eat (.mark .lt)
          let elem ← type steps
          splitGe
          eat (.mark .gt)
          return .list elem
        else unexpected (ascii "type")

theorem type_mirrors (steps : Nat) : Mirrors Cursor.tape id (type steps) (Parse.type steps) := by
  induction steps with
  | zero => exact mirrors_throw .outOfSteps
  | succ steps ih =>
    have hno : Mirrors Cursor.tape id (unexpected (ascii "type") : TapeM Ty)
        (CursorM.unexpected .type) := unexpected_mirrors id .type
    unfold type Parse.type
    apply seen_mirrors
    · exact fun c _ => hno c
    · intro c t h
      apply MirrorsAt.looked (here_of_some h)
      have hlist := looksAt_of_some h (· == .word .list)
      obtain ⟨l, p⟩ := t
      -- the words that name a type are told apart by their tags alone
      cases l with
      | word w =>
        cases w with
        | int | float | string | bool => exact passed_mirrors h (mirrors_pure _ _)
        | list =>
          apply MirrorsAt.looked hlist
          apply passed_mirrors h
          apply (mark_mirrors .lt _).bind
          intro _ c _
          apply (ih c).bind
          intro elem c _
          apply (splitGe_mirrors c).bind
          intro _ c _
          exact (mark_mirrors .gt c).bind fun _ c _ => mirrors_pure (Ty.list elem) c
        | _ => exact MirrorsAt.looked hlist (hno c)
      | literal v => cases v <;> exact MirrorsAt.looked hlist (hno c)
      | _ => exact MirrorsAt.looked hlist (hno c)

end Tape
end Lumen
