/-
  Lumen.Proofs.Reading.Closings — the `>=` that closes a list type.

  In `list<int>=` the last two characters are one token, of which the first closes the
  type.  A run that comes there splits the token, and goes on as if there had been two
  from the start.

  Which tokens are split can be told from the tokens before them.  The tokens at the end
  of a run are those at its start, but for the halves of those that were split; and the
  halves stand in the text where the token did, each at its own place.

  Main statements:
    * `Operation.reaches` — a run comes to the end of some tokens, to close a list type;
    * `resplit` — the tokens after the splits;
    * `Local.tokens_eq` — how the tokens at the end of a run differ from those at its start;
    * `Token.SpelledIn` — a token is written in a text, at its place;
    * `closing_splits` — all of this for everything that can be read.
-/
import Lumen.Proofs.Reading.StmtLocal
import Lumen.Proofs.Lexing.Tiling

namespace Lumen

/-! ## §1. Tokens that are written in a text -/

/-- The two tokens that a `>=` is split into. -/
def Token.halves (t : Token) : List Token := [⟨.mark .gt, t.pos⟩, ⟨.mark .equal, t.pos.right⟩]

/-- A token is written in a text, and its place is the one where it begins.  Of a mark
    only its own characters are asked, whatever comes after them. -/
def Token.SpelledIn (source : Bytes) (t : Token) : Prop :=
  ∃ before run rest, source = before ++ run ++ rest ∧ t.pos = Pos.after before
    ∧ (Denotes run rest t.lexeme ∨ (∃ m, t.lexeme = .mark m ∧ run = m.bytes)
      ∨ t.lexeme = .eof ∧ run = [] ∧ rest = [])

/-- The tokens that cover a text are written in it. -/
theorem Tiled.spelled {before text : Bytes} {ts : List Token} (h : Tiled before text ts) :
    ∀ t ∈ ts, t.SpelledIn (before ++ text) := by
  induction h with
  | @eof before gap hgap =>
    intro t ht
    obtain rfl := List.mem_singleton.mp ht
    exact ⟨before ++ gap, [], [], by simp, rfl, .inr (.inr ⟨rfl, rfl, rfl⟩)⟩
  | @cons before gap run rest l ts hgap hrun h ih =>
    have htext : before ++ (gap ++ run ++ rest) = (before ++ gap ++ run) ++ rest := by
      simp only [List.append_assoc]
    rw [htext]
    intro t ht
    obtain rfl | ht := List.mem_cons.mp ht
    · exact ⟨before ++ gap, run, rest, rfl, rfl, .inl hrun⟩
    · exact ih t ht

theorem tokenize_spelled {source : Bytes} {ts : List Token} (h : tokenize source = .ok ts) :
    ∀ t ∈ ts, t.SpelledIn source := (tokenize_tiles h).1.spelled

/-- Each half of a `>=` is written where the token is. -/
theorem Token.SpelledIn.halves {source : Bytes} {t : Token} (h : t.SpelledIn source)
    (ht : t.lexeme = .mark .ge) : ∀ half ∈ t.halves, half.SpelledIn source := by
  obtain ⟨before, run, rest, hsource, hpos, hspells⟩ := h
  -- a `>=` is spelled in one way only
  have hrun : run = [62, 61] := by
    rw [ht] at hspells
    rcases hspells with hdenotes | ⟨m, hm, rfl⟩ | ⟨heof, -⟩
    · cases hdenotes
      rfl
    · cases hm
      rfl
    · cases heof
  subst hrun
  intro half hhalf
  rw [Token.halves, hpos, Pos.right_after (b := 62) (by decide)] at hhalf
  obtain rfl | hhalf := List.mem_cons.mp hhalf
  · exact ⟨before, [62], 61 :: rest, by simp [hsource], rfl, .inr (.inl ⟨.gt, rfl, rfl⟩)⟩
  · obtain rfl := List.mem_singleton.mp hhalf
    exact ⟨before ++ [62], [61], rest, by simp [hsource], rfl, .inr (.inl ⟨.equal, rfl, rfl⟩)⟩

/-! ## §2. Tokens after splits -/

/-- Some tokens, of which each `>=` is split if `closing` holds of those before it;
    `front` comes before all of them. -/
def resplit (closing : List Token → Bool) (front : List Token) : List Token → List Token
  | [] => []
  | t :: rest =>
    (if t.lexeme = .mark .ge ∧ closing front = true then t.halves else [t])
      ++ resplit closing (front ++ [t]) rest

section
variable {closing : List Token → Bool}

theorem resplit_append (front ts us : List Token) :
    resplit closing front (ts ++ us)
      = resplit closing front ts ++ resplit closing (front ++ ts) us := by
  induction ts generalizing front with
  | nil => simp [resplit]
  | cons t ts ih =>
    rw [List.cons_append, resplit, resplit, ih, List.append_assoc, List.append_assoc]
    rfl

theorem resplit_congr {front front' : List Token}
    (h : ∀ mid, closing (front ++ mid) = closing (front' ++ mid)) (ts : List Token) :
    resplit closing front ts = resplit closing front' ts := by
  induction ts generalizing front front' with
  | nil => rfl
  | cons t ts ih =>
    have hhead : closing front = closing front' := by simpa using h []
    have htail : resplit closing (front ++ [t]) ts = resplit closing (front' ++ [t]) ts := by
      apply ih
      intro mid
      simpa using h (t :: mid)
    rw [resplit, resplit, hhead, htail]

/-- Nothing is split if nothing is to be closed. -/
theorem resplit_eq_self {front ts : List Token}
    (h : ∀ pre p post, ts = pre ++ ⟨.mark .ge, p⟩ :: post → closing (front ++ pre) = false) :
    resplit closing front ts = ts := by
  induction ts generalizing front with
  | nil => rfl
  | cons t ts ih =>
    have hrest : resplit closing (front ++ [t]) ts = ts := by
      apply ih
      intro pre p post hts
      have hclosing := h (t :: pre) p post (by rw [hts]; rfl)
      rwa [List.append_assoc]
    rw [resplit, hrest, if_neg]
    · rfl
    · -- the first token is no `>=`, or nothing is to be closed in front of it
      rintro ⟨hge, hclosing⟩
      obtain ⟨l, p⟩ := t
      obtain rfl : l = .mark .ge := hge
      have hfalse := h [] p ts rfl
      rw [List.append_nil, hclosing] at hfalse
      cases hfalse

/-- A token after splits is one from before them, or half of one. -/
theorem mem_resplit {front ts : List Token} {t : Token} (h : t ∈ resplit closing front ts) :
    t ∈ ts ∨ ∃ whole ∈ ts, whole.lexeme = .mark .ge ∧ t ∈ whole.halves := by
  induction ts generalizing front with
  | nil => cases h
  | cons u ts ih =>
    rw [resplit] at h
    rcases List.mem_append.mp h with hu | hrest
    · split at hu
      · next hge => exact .inr ⟨u, List.mem_cons_self, hge.1, hu⟩
      · exact .inl (List.mem_singleton.mp hu ▸ List.mem_cons_self)
    · rcases ih hrest with ht | ⟨whole, hwhole, hhalf⟩
      · exact .inl (List.mem_cons_of_mem u ht)
      · exact .inr ⟨whole, List.mem_cons_of_mem u hwhole, hhalf⟩

end

/-! ## §3. Runs that split tokens -/

namespace Parse

section
variable {σ α : Type}

/-- The state at the end of a run. -/
def final : EStateM.Result Failure σ α → σ
  | .ok _ t => t
  | .error _ t => t

variable [Facing σ] {m : EStateM Failure σ α} (h : Local m m) {s : σ}
  {closing : List Token → Bool}
  (hclosing : ∀ front, closing front = true ↔ Fails m (facing s front) (lacksClose none))
include h hclosing

/-- Where a list type is to be closed, `>=` is split like `>` and `=`. -/
theorem Local.resplit_eq {pre : List Token} (hpre : closing pre = true) (p : Pos)
    (post : List Token) :
    m (facing s (pre ++ ⟨.mark .ge, p⟩ :: post))
        = m (facing s (pre ++ ⟨.mark .gt, p⟩ :: ⟨.mark .equal, p.right⟩ :: post))
      ∧ resplit closing [] (pre ++ ⟨.mark .ge, p⟩ :: post)
        = resplit closing [] (pre ++ ⟨.mark .gt, p⟩ :: ⟨.mark .equal, p.right⟩ :: post) := by
  have hsame : ∀ post, m (facing s (pre ++ ⟨.mark .ge, p⟩ :: post))
      = m (facing s (pre ++ ⟨.mark .gt, p⟩ :: ⟨.mark .equal, p.right⟩ :: post)) := by
    intro post
    have hrun := h.closes (facing s pre) ((hclosing pre).mp hpre) p post
    rwa [ahead_facing, facing_facing, facing_facing] at hrun
  refine ⟨hsame post, ?_⟩
  -- whatever comes later, both runs come to the same
  have hlater : resplit closing (pre ++ [⟨.mark .ge, p⟩]) post
      = resplit closing (pre ++ [⟨.mark .gt, p⟩] ++ [⟨.mark .equal, p.right⟩]) post := by
    apply resplit_congr
    intro mid
    rw [Bool.eq_iff_iff, hclosing, hclosing]
    simp only [List.append_assoc, List.cons_append, List.nil_append, Fails, hsame mid]
  rw [resplit_append, resplit_append, List.nil_append, resplit, resplit, resplit,
    if_pos ⟨rfl, hpre⟩, if_neg (by simp), if_neg (by simp), hlater]
  rfl

/-- The tokens at the end of a run are those at its start, but that each `>=` which was
    to close a list type is split.  By induction on how many there are: the first run is
    one on the tokens of which one has been split. -/
theorem Local.tokens_eq (ts : List Token) :
    tokens (final (m (facing s ts)))
      = (HasCursor.cursor s).before.reverse ++ resplit closing [] ts := by
  induction hn : ts.countP (fun t => t.lexeme = .mark .ge) using Nat.strongRecOn
    generalizing ts with
  | ind n ih =>
    -- either some `>=` is wanted as a bracket, or none is and the tokens stay
    by_cases hreach : ∃ pre p post, ts = pre ++ ⟨.mark .ge, p⟩ :: post ∧ closing pre = true
    · obtain ⟨pre, p, post, rfl, hpre⟩ := hreach
      obtain ⟨hrun, hsplit⟩ := h.resplit_eq hclosing hpre p post
      rw [hrun, hsplit]
      refine ih _ ?_ _ rfl
      rw [← hn]
      simp [List.countP_append]
    · have hkept : resplit closing [] ts = ts := by
        apply resplit_eq_self
        intro pre p post hts
        rw [List.nil_append, Bool.eq_false_iff]
        exact fun hpre => hreach ⟨pre, p, post, hts, hpre⟩
      have hends : ∀ t, Splits m (facing s ts) t → tokens t = tokens (facing s ts) := by
        rintro t (hsame | ⟨pre, p, post, hts, hfails⟩)
        · exact hsame
        · rw [ahead_facing] at hts
          rw [facing_facing] at hfails
          exact absurd ⟨pre, p, post, hts, (hclosing pre).mpr hfails⟩ hreach
      have hfinal : tokens (final (m (facing s ts))) = tokens (facing s ts) := by
        have hsplits := h.splits (facing s ts)
        unfold Ends at hsplits
        revert hsplits
        cases m (facing s ts) with
        | ok a t => exact hends t
        | error f t => exact hends t
      rw [hfinal, hkept, tokens, Facing.cursor_facing]
      rfl

end

/-! ## §4. Everything that can be read -/

/-- Whether a run has failed at the end of the tokens for want of a `>`. -/
def wantsClose {α : Type} : EStateM.Result Failure State α → Bool
  | .error (.error (.unexpected (.mark .gt) none)) _ => true
  | _ => false

theorem wantsClose_iff {α : Type} {m : ParseM α} {s : State} :
    wantsClose (m s) = true ↔ Fails m s (lacksClose none) := by
  unfold wantsClose Fails
  constructor
  · intro h
    split at h
    · next t hrun => exact ⟨t, hrun⟩
    · cases h
  · rintro ⟨t, hrun⟩
    rw [hrun]
    rfl

/-- Whether an operation comes to the end of `front` with a list type to close: if there
    were no more tokens, it would fail there for want of a `>`, which is asked for only to
    close a list type. -/
def Operation.reaches (o : Options) (op : Operation) (s : State) (front : List Token) : Bool :=
  wantsClose (op.read o (facing s front))

/-- **`>=` closes a list type like `>` and `=`.**  Take any tokens, and anything to be
    read from them, in any state, with checks or without.

    Where a `>=` stands at which a list type is to be closed, the run is the same, in all
    that it gives or fails with and in the state it leaves, as if there stood `>` and `=`,
    each at its own place; any other token in its place would be the one at which the run
    fails, for want of a `>`.  The tokens at the end are those at the start, but that each
    such `>=` is split, and no other.
    If all tokens are written in a text, at their places, as those of a source are, then
    so they are at the end. -/
theorem closing_splits (o : Options) (op : Operation) (s : State) :
    (∀ pre p post, op.reaches o s pre = true →
        op.read o (facing s (pre ++ ⟨.mark .ge, p⟩ :: post))
          = op.read o (facing s (pre ++ ⟨.mark .gt, p⟩ :: ⟨.mark .equal, p.right⟩ :: post)))
      ∧ (∀ pre t post, op.reaches o s pre = true → t.lexeme ≠ .mark .ge → t.lexeme ≠ .mark .gt →
          ∃ c, op.read o (facing s (pre ++ t :: post))
              = .error (.error (.unexpected (.mark .gt) (some t))) c ∧ ahead c = t :: post)
      ∧ (∀ ts, tokens (final (op.read o (facing s ts)))
          = s.cursor.before.reverse ++ resplit (op.reaches o s) [] ts)
      ∧ (∀ source ts, (∀ t ∈ tokens (facing s ts), t.SpelledIn source) →
          ∀ t ∈ tokens (final (op.read o (facing s ts))), t.SpelledIn source)
      ∧ ∀ source ts, tokenize source = .ok ts → ∀ t ∈ ts, t.SpelledIn source := by
  have h := op.read_local o
  have hclosing : ∀ front, op.reaches o s front = true
      ↔ Fails (op.read o) (facing s front) (lacksClose none) := fun front => wantsClose_iff
  refine ⟨fun pre p post hpre => (h.resplit_eq hclosing hpre p post).1, ?_,
    h.tokens_eq hclosing, ?_, fun source ts => tokenize_spelled⟩
  · intro pre t post hpre hge hgt
    have hstops := h.stops (facing s pre) ((hclosing pre).mp hpre) t post hge hgt
    rwa [ahead_facing, facing_facing] at hstops
  · intro source ts hspelled t ht
    rw [h.tokens_eq hclosing] at ht
    have hbefore : tokens (facing s ts) = s.cursor.before.reverse ++ ts := rfl
    rw [hbefore] at hspelled
    rcases List.mem_append.mp ht with hread | hahead
    · exact hspelled t (List.mem_append_left ts hread)
    · -- a token of the rest is one of before, or half of one
      rcases mem_resplit hahead with hsame | ⟨whole, hwhole, hge, hhalf⟩
      · exact hspelled t (List.mem_append_right _ hsame)
      · exact (hspelled whole (List.mem_append_right _ hwhole)).halves hge t hhalf

/-- Of two `>=` the first closes a type, and the second compares. -/
theorem closing_splits_let :
    let source := ascii "let x: list<int>= []; print 1 >= 2"
    let pre : List Token :=
      [⟨.word .let_, ⟨0, 1, 1⟩⟩, ⟨.ident (ascii "x"), ⟨4, 1, 5⟩⟩, ⟨.mark .colon, ⟨5, 1, 6⟩⟩,
        ⟨.word .list, ⟨7, 1, 8⟩⟩, ⟨.mark .lt, ⟨11, 1, 12⟩⟩, ⟨.word .int, ⟨12, 1, 13⟩⟩]
    let post : List Token :=
      [⟨.mark .lbracket, ⟨18, 1, 19⟩⟩, ⟨.mark .rbracket, ⟨19, 1, 20⟩⟩,
        ⟨.mark .semicolon, ⟨20, 1, 21⟩⟩, ⟨.word .print, ⟨22, 1, 23⟩⟩,
        ⟨.literal (.int 1), ⟨28, 1, 29⟩⟩, ⟨.mark .ge, ⟨30, 1, 31⟩⟩,
        ⟨.literal (.int 2), ⟨33, 1, 34⟩⟩, ⟨.eof, ⟨34, 1, 35⟩⟩]
    let halves : List Token := [⟨.mark .gt, ⟨15, 1, 16⟩⟩, ⟨.mark .equal, ⟨16, 1, 17⟩⟩]
    let s : State := { cursor := ⟨[], []⟩ }
    let run := program {} (facing s (pre ++ ⟨.mark .ge, ⟨15, 1, 16⟩⟩ :: post))
    run = program {} (facing s (pre ++ halves ++ post))
      ∧ tokens (final run) = pre ++ halves ++ post
      ∧ ∀ t ∈ tokens (final run), t.SpelledIn source := by
  intro source pre post halves s run
  have hreaches : Operation.reaches {} .program s pre = true := by decide +kernel
  have htokens : tokenize source = .ok (pre ++ ⟨.mark .ge, ⟨15, 1, 16⟩⟩ :: post) := by
    decide +kernel
  have hsplit : resplit (Operation.reaches {} .program s) []
      (pre ++ ⟨.mark .ge, ⟨15, 1, 16⟩⟩ :: post) = pre ++ halves ++ post := by decide +kernel
  obtain ⟨hsame, -, hfinal, hkept, hspelled⟩ := closing_splits {} .program s
  exact ⟨hsame pre ⟨15, 1, 16⟩ post hreaches, (hfinal _).trans hsplit,
    hkept source _ (hspelled source _ htokens)⟩

end Parse
end Lumen
