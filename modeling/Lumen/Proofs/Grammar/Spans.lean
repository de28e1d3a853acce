/-
  Lumen.Proofs.Grammar.Spans — trees over the tokens they were read from.

  A tree spans some tokens if these are what it is written with, token by token, and
  if each node stands at the first token of its own.  The node of a binary operator
  stands where its left operand does, since that comes first; the name before indices
  and arguments comes first as well.  A block stands at the token after its header,
  which is the one that ends it if there is nothing in it.

  The `>` and the `=` of a `>=` that was split are two tokens here.

  Main statements:
    * `Expr.Spans`, `Stmt.Spans`, `Stmt.AllSpan` — the tokens of a tree;
    * `Expr.Spans.first`, `Stmt.Spans.first` — a node stands at its first token;
    * `Piece`, `Stmt.pieces` — nodes and blocks at any depth;
    * `Stmt.AllSpan.standsIn` — each of them spans a part of the tokens.
-/
import Lumen.Proofs.Grammar.Spelling
import Lumen.Proofs.Scoping.Sites

namespace Lumen

/-- Whether some tokens begin at a place. -/
def BeginsAt (tokens : List Token) (p : Pos) : Prop := tokens.head?.map Token.pos = some p

theorem beginsAt_cons (t : Token) (rest : List Token) : BeginsAt (t :: rest) t.pos := rfl

theorem BeginsAt.append {tokens : List Token} {p : Pos} (h : BeginsAt tokens p)
    (rest : List Token) : BeginsAt (tokens ++ rest) p := by
  cases tokens with
  | nil => cases h
  | cons t tokens => exact h

theorem BeginsAt.ne_nil {tokens : List Token} {p : Pos} (h : BeginsAt tokens p) : tokens ≠ [] := by
  rintro rfl
  cases h

/-! ## §1. Expressions -/

namespace Expr

mutual
/-- Whether some tokens are those of an expression, with every node in it at its first
    token. -/
def Spans : Expr → List Token → Prop
  | literal p v, ts => ts = [⟨.literal v, p⟩]
  | access p name indices, ts => ∃ path, ts = ⟨.ident name, p⟩ :: path ∧ IndicesSpan indices path
  | neg p e, ts => ∃ rest, ts = ⟨.mark .minus, p⟩ :: rest ∧ e.Spans rest
  | binary p op lhs rhs, ts => ∃ left q right, ts = left ++ ⟨.mark op.mark, q⟩ :: right
      ∧ BeginsAt left p ∧ lhs.Spans left ∧ rhs.Spans right
  | logical p op lhs rhs, ts => ∃ left q right, ts = left ++ ⟨.word op.word, q⟩ :: right
      ∧ BeginsAt left p ∧ lhs.Spans left ∧ rhs.Spans right
  | group p inner, ts => ∃ mid q,
      ts = ⟨.mark .lparen, p⟩ :: (mid ++ [⟨.mark .rparen, q⟩]) ∧ inner.Spans mid
  | list p elements, ts => ∃ mid q,
      ts = ⟨.mark .lbracket, p⟩ :: (mid ++ [⟨.mark .rbracket, q⟩]) ∧ ListSpans elements mid
  | call p name args, ts => ∃ q mid r,
      ts = ⟨.ident name, p⟩ :: ⟨.mark .lparen, q⟩ :: (mid ++ [⟨.mark .rparen, r⟩])
        ∧ ListSpans args mid
  | method p name indices m args, ts => ∃ path d i q mid r,
      ts = ⟨.ident name, p⟩ :: (path ++ ⟨.mark .dot, d⟩ :: ⟨.ident m, i⟩ :: ⟨.mark .lparen, q⟩
          :: (mid ++ [⟨.mark .rparen, r⟩]))
        ∧ IndicesSpan indices path ∧ ListSpans args mid

/-- Whether some tokens are those of indices, each in brackets. -/
def IndicesSpan : List Expr → List Token → Prop
  | [], ts => ts = []
  | e :: rest, ts => ∃ q mid r more,
      ts = ⟨.mark .lbracket, q⟩ :: (mid ++ ⟨.mark .rbracket, r⟩ :: more)
        ∧ e.Spans mid ∧ IndicesSpan rest more

/-- Whether some tokens are those of expressions with a comma between each two. -/
def ListSpans : List Expr → List Token → Prop
  | [], ts => ts = []
  | [e], ts => e.Spans ts
  | e :: rest, ts => ∃ first q more, ts = first ++ ⟨.mark .comma, q⟩ :: more
      ∧ e.Spans first ∧ ListSpans rest more
end

theorem listSpans_cons {e : Expr} {es : List Expr} (hes : es ≠ []) {first more : List Token}
    (q : Pos) (he : e.Spans first) (hmore : ListSpans es more) :
    ListSpans (e :: es) (first ++ ⟨.mark .comma, q⟩ :: more) := by
  cases es with
  | nil => exact absurd rfl hes
  | cons e' es => exact ⟨first, q, more, rfl, he, hmore⟩

/-- An expression stands at the first of its tokens. -/
theorem Spans.first {e : Expr} {ts : List Token} (h : e.Spans ts) : BeginsAt ts e.pos := by
  cases e with
  | literal => exact h ▸ beginsAt_cons _ _
  | access | neg =>
    obtain ⟨rest, rfl, -⟩ := h
    exact beginsAt_cons _ _
  | binary | logical =>
    obtain ⟨left, q, right, rfl, hleft, -⟩ := h
    exact hleft.append _
  | group | list =>
    obtain ⟨mid, q, rfl, -⟩ := h
    exact beginsAt_cons _ _
  | call =>
    obtain ⟨q, mid, r, rfl, -⟩ := h
    exact beginsAt_cons _ _
  | method =>
    obtain ⟨path, d, i, q, mid, r, rfl, -⟩ := h
    exact beginsAt_cons _ _

/-- An operator with its operands. -/
theorem spans_node (op : Operator) {lhs rhs : Expr} {left right : List Token} (q : Pos)
    (hl : lhs.Spans left) (hr : rhs.Spans right) :
    (op.node lhs.pos lhs rhs).Spans (left ++ ⟨op.lexeme, q⟩ :: right) := by
  cases op with
  | binary op => exact ⟨left, q, right, rfl, hl.first, hl, hr⟩
  | logical op => exact ⟨left, q, right, rfl, hl.first, hl, hr⟩

end Expr

/-! ## §2. Statements -/

/-- Whether some tokens are a block and the word that ends it, and the block stands at the
    first of them. -/
def Encloses (body : List Token → Prop) (p : Pos) (w : Word) (ts : List Token) : Prop :=
  ∃ inner q, ts = inner ++ [⟨.word w, q⟩] ∧ body inner ∧ BeginsAt ts p

/-- Whether some tokens are a statement and perhaps a semicolon. -/
def WithSemicolon (body : List Token → Prop) (ts : List Token) : Prop :=
  body ts ∨ ∃ inner q, ts = inner ++ [⟨.mark .semicolon, q⟩] ∧ body inner

namespace Stmt

mutual
/-- Whether some tokens are those of a statement without a semicolon, with every node in it
    at its first token. -/
def Spans : Stmt → List Token → Prop
  | expr p e, ts => e.isNamed = true ∧ e.pos = p ∧ e.Spans ts
  | assign p name indices value, ts => ∃ path q right,
      ts = ⟨.ident name, p⟩ :: (path ++ ⟨.mark .equal, q⟩ :: right)
        ∧ Expr.IndicesSpan indices path ∧ value.Spans right
  | let_ p name type init, ts => ∃ i c ty q right,
      ts = ⟨.word .let_, p⟩ :: ⟨.ident name, i⟩ :: ⟨.mark .colon, c⟩
          :: (ty ++ ⟨.mark .equal, q⟩ :: right)
        ∧ ty.map Token.lexeme = type.lexemes ∧ init.Spans right
  | print p value, ts => ∃ rest, ts = ⟨.word .print, p⟩ :: rest ∧ value.Spans rest
  | if_ p cond (.mk q ss) none, ts => ∃ head body, ts = ⟨.word .if_, p⟩ :: (head ++ body)
      ∧ cond.Spans head ∧ Encloses (AllSpan ss) q .end_ body
  | if_ p cond (.mk q ss) (some (.mk q' others)), ts => ∃ head body other,
      ts = ⟨.word .if_, p⟩ :: (head ++ (body ++ other))
        ∧ cond.Spans head ∧ Encloses (AllSpan ss) q .else_ body
        ∧ Encloses (AllSpan others) q' .end_ other
  | while_ p cond (.mk q ss), ts => ∃ head body, ts = ⟨.word .while_, p⟩ :: (head ++ body)
      ∧ cond.Spans head ∧ Encloses (AllSpan ss) q .end_ body
  | for_ p var start stop (.mk q ss), ts => ∃ i c n e left d right body,
      ts = ⟨.word .for_, p⟩ :: ⟨.ident var, i⟩ :: ⟨.mark .colon, c⟩ :: ⟨.word .int, n⟩
          :: ⟨.mark .equal, e⟩ :: (left ++ ⟨.mark .dotDot, d⟩ :: (right ++ body))
        ∧ start.Spans left ∧ stop.Spans right ∧ Encloses (AllSpan ss) q .end_ body
  | fn p name params (.mk q ss), ts => ∃ i l list r body,
      ts = ⟨.word .fn, p⟩ :: ⟨.ident name, i⟩ :: ⟨.mark .lparen, l⟩
          :: (list ++ ⟨.mark .rparen, r⟩ :: body)
        ∧ list.map Token.lexeme = paramLexemes params ∧ Encloses (AllSpan ss) q .end_ body
  | return_ p none, ts => ts = [⟨.word .return_, p⟩]
  | return_ p (some e), ts => ∃ rest, ts = ⟨.word .return_, p⟩ :: rest ∧ e.Spans rest

/-- Whether some tokens are those of statements, each with at most one semicolon after
    it. -/
def AllSpan : List Stmt → List Token → Prop
  | [], ts => ts = []
  | s :: ss, ts => ∃ first rest, ts = first ++ rest ∧ WithSemicolon s.Spans first ∧ AllSpan ss rest
end

/-- A statement stands at the first of its tokens. -/
theorem Spans.first {s : Stmt} {ts : List Token} (h : s.Spans ts) : BeginsAt ts s.pos := by
  cases s with
  | expr p e =>
    obtain ⟨-, rfl, he⟩ := h
    exact he.first
  | assign =>
    obtain ⟨path, q, right, rfl, -⟩ := h
    exact beginsAt_cons _ _
  | let_ =>
    obtain ⟨i, c, ty, q, right, rfl, -⟩ := h
    exact beginsAt_cons _ _
  | print =>
    obtain ⟨rest, rfl, -⟩ := h
    exact beginsAt_cons _ _
  | if_ p cond b else_ =>
    obtain ⟨q, ss⟩ := b
    rcases else_ with _ | ⟨q', others⟩
    · obtain ⟨head, body, rfl, -⟩ := h
      exact beginsAt_cons _ _
    · obtain ⟨head, body, other, rfl, -⟩ := h
      exact beginsAt_cons _ _
  | while_ p cond b =>
    obtain ⟨q, ss⟩ := b
    obtain ⟨head, body, rfl, -⟩ := h
    exact beginsAt_cons _ _
  | for_ p var start stop b =>
    obtain ⟨q, ss⟩ := b
    obtain ⟨i, c, n, e, left, d, right, body, rfl, -⟩ := h
    exact beginsAt_cons _ _
  | fn p name params b =>
    obtain ⟨q, ss⟩ := b
    obtain ⟨i, l, list, r, body, rfl, -⟩ := h
    exact beginsAt_cons _ _
  | return_ p value =>
    cases value with
    | none => exact h ▸ beginsAt_cons _ _
    | some e =>
      obtain ⟨rest, rfl, -⟩ := h
      exact beginsAt_cons _ _

theorem first_of_withSemicolon {s : Stmt} {ts : List Token} (h : WithSemicolon s.Spans ts) :
    BeginsAt ts s.pos := by
  rcases h with h | ⟨inner, q, rfl, h⟩
  · exact h.first
  · exact h.first.append _

end Stmt

/-! ## §3. Nodes at any depth -/

/-- What has a place in a tree: a node or a block. -/
inductive Piece where
  | expr (e : Expr)
  | stmt (s : Stmt)
  | block (b : Block)

/-- The place of a piece. -/
def Piece.pos : Piece → Pos
  | expr e => e.pos
  | stmt s => s.pos
  | block b => b.pos

/-- Whether a piece spans a part of some tokens, and stands at the first token there.  A
    block goes up to the word that ends it, and where it is empty that is the first. -/
def Piece.StandsIn (ts : List Token) : Piece → Prop
  | expr e => ∃ span, span <:+: ts ∧ e.Spans span ∧ BeginsAt span e.pos
  | stmt s => ∃ span, span <:+: ts ∧ s.Spans span ∧ BeginsAt span s.pos
  | block b => ∃ span w, span <:+: ts ∧ (w = .end_ ∨ w = .else_)
      ∧ Encloses (Stmt.AllSpan b.stmts) b.pos w span

theorem Piece.StandsIn.mono {ts us : List Token} {piece : Piece} (h : piece.StandsIn ts)
    (hsub : ts <:+: us) : piece.StandsIn us := by
  cases piece with
  | expr | stmt =>
    obtain ⟨span, hspan, hrest⟩ := h
    exact ⟨span, hspan.trans hsub, hrest⟩
  | block =>
    obtain ⟨span, w, hspan, hrest⟩ := h
    exact ⟨span, w, hspan.trans hsub, hrest⟩

namespace Stmt

/-- A statement and the parts of its expressions, without what is in its blocks. -/
def ownPieces (s : Stmt) : List Piece := .stmt s :: (Expr.partsOf s.heads).map .expr

mutual
/-- The pieces of a statement. -/
def pieces : Stmt → List Piece
  | s@(.if_ _ _ (.mk q ss) none) => s.ownPieces ++ .block (.mk q ss) :: piecesOf ss
  | s@(.if_ _ _ (.mk q ss) (some (.mk q' others))) =>
    s.ownPieces ++ (.block (.mk q ss) :: piecesOf ss ++ .block (.mk q' others) :: piecesOf others)
  | s@(.while_ _ _ (.mk q ss)) | s@(.for_ _ _ _ _ (.mk q ss)) | s@(.fn _ _ _ (.mk q ss)) =>
    s.ownPieces ++ .block (.mk q ss) :: piecesOf ss
  | s@(.expr _ _) | s@(.assign _ _ _ _) | s@(.let_ _ _ _ _) | s@(.print _ _)
  | s@(.return_ _ _) => s.ownPieces

/-- The pieces of some statements. -/
def piecesOf : List Stmt → List Piece
  | [] => []
  | s :: rest => s.pieces ++ piecesOf rest
end

end Stmt

section
variable {es : List Expr} {ts : List Token}
  (ih : ∀ e ∈ es, ∀ us, e.Spans us → ∀ d ∈ e.parts, (Piece.expr d).StandsIn us)
include ih

theorem indicesSpan_standsIn (h : Expr.IndicesSpan es ts) :
    ∀ d ∈ Expr.partsOf es, (Piece.expr d).StandsIn ts := by
  induction es generalizing ts with
  | nil => exact List.forall_mem_nil _
  | cons e rest ihrest =>
    obtain ⟨ihe, ihes⟩ := List.forall_mem_cons.mp ih
    obtain ⟨q, mid, r, more, rfl, hmid, hmore⟩ := h
    refine List.forall_mem_append.mpr ⟨fun d hd => ?_, fun d hd => ?_⟩
    · exact (ihe mid hmid d hd).mono ⟨[⟨.mark .lbracket, q⟩], ⟨.mark .rbracket, r⟩ :: more, rfl⟩
    · exact (ihrest ihes hmore d hd).mono
        ⟨⟨.mark .lbracket, q⟩ :: (mid ++ [⟨.mark .rbracket, r⟩]), [], by simp⟩

theorem listSpans_standsIn (h : Expr.ListSpans es ts) :
    ∀ d ∈ Expr.partsOf es, (Piece.expr d).StandsIn ts := by
  induction es generalizing ts with
  | nil => exact List.forall_mem_nil _
  | cons e rest ihrest =>
    obtain ⟨ihe, ihes⟩ := List.forall_mem_cons.mp ih
    cases rest with
    | nil => exact List.forall_mem_append.mpr ⟨ihe ts h, List.forall_mem_nil _⟩
    | cons e' rest =>
      obtain ⟨first, q, more, rfl, hfirst, hmore⟩ := h
      refine List.forall_mem_append.mpr ⟨fun d hd => ?_, fun d hd => ?_⟩
      · exact (ihe first hfirst d hd).mono (List.prefix_append _ _).isInfix
      · exact (ihrest ihes hmore d hd).mono ⟨first ++ [⟨.mark .comma, q⟩], [], by simp⟩

end

/-- Every part of an expression spans a part of its tokens. -/
theorem Expr.Spans.standsIn {e : Expr} {ts : List Token} (h : e.Spans ts) :
    ∀ d ∈ e.parts, (Piece.expr d).StandsIn ts := by
  have hself : ∀ {e : Expr} {ts : List Token}, e.Spans ts → (Piece.expr e).StandsIn ts :=
    fun h => ⟨_, List.infix_refl _, h, h.first⟩
  induction e generalizing ts with
  | literal => exact List.forall_mem_cons.mpr ⟨hself h, List.forall_mem_nil _⟩
  | access p name indices ih =>
    refine List.forall_mem_cons.mpr ⟨hself h, fun d hd => ?_⟩
    obtain ⟨path, rfl, hpath⟩ := h
    exact (indicesSpan_standsIn (fun e he _ h => ih e he h) hpath d hd).mono
      (List.suffix_cons _ _).isInfix
  | neg p e ih =>
    refine List.forall_mem_cons.mpr ⟨hself h, fun d hd => ?_⟩
    obtain ⟨rest, rfl, hrest⟩ := h
    exact (ih hrest d hd).mono (List.suffix_cons _ _).isInfix
  | binary p op lhs rhs ihl ihr | logical p op lhs rhs ihl ihr =>
    refine List.forall_mem_cons.mpr ⟨hself h, ?_⟩
    obtain ⟨left, q, right, rfl, -, hl, hr⟩ := h
    refine List.forall_mem_append.mpr ⟨fun d hd => ?_, fun d hd => ?_⟩
    · exact (ihl hl d hd).mono (List.prefix_append _ _).isInfix
    · exact (ihr hr d hd).mono ((List.suffix_cons _ _).trans (List.suffix_append _ _)).isInfix
  | group p inner ih =>
    refine List.forall_mem_cons.mpr ⟨hself h, fun d hd => ?_⟩
    obtain ⟨mid, q, rfl, hmid⟩ := h
    exact (ih hmid d hd).mono ⟨[⟨.mark .lparen, p⟩], [⟨.mark .rparen, q⟩], rfl⟩
  | list p elements ih =>
    refine List.forall_mem_cons.mpr ⟨hself h, fun d hd => ?_⟩
    obtain ⟨mid, q, rfl, hmid⟩ := h
    exact (listSpans_standsIn (fun e he _ h => ih e he h) hmid d hd).mono
      ⟨[⟨.mark .lbracket, p⟩], [⟨.mark .rbracket, q⟩], rfl⟩
  | call p name args ih =>
    refine List.forall_mem_cons.mpr ⟨hself h, fun d hd => ?_⟩
    obtain ⟨q, mid, r, rfl, hmid⟩ := h
    exact (listSpans_standsIn (fun e he _ h => ih e he h) hmid d hd).mono
      ⟨[⟨.ident name, p⟩, ⟨.mark .lparen, q⟩], [⟨.mark .rparen, r⟩], rfl⟩
  | method p name indices m args ihi iha =>
    refine List.forall_mem_cons.mpr ⟨hself h, ?_⟩
    obtain ⟨path, d, i, q, mid, r, rfl, hpath, hmid⟩ := h
    refine List.forall_mem_append.mpr ⟨fun d' hd => ?_, fun d' hd => ?_⟩
    · exact (indicesSpan_standsIn (fun e he _ h => ihi e he h) hpath d' hd).mono
        ⟨[⟨.ident name, p⟩], _, rfl⟩
    · exact (listSpans_standsIn (fun e he _ h => iha e he h) hmid d' hd).mono
        ⟨⟨.ident name, p⟩ :: (path ++ [⟨.mark .dot, d⟩, ⟨.ident m, i⟩, ⟨.mark .lparen, q⟩]),
          [⟨.mark .rparen, r⟩], by simp⟩

namespace Stmt

/-- The parts of an expression that spans a part of some tokens. -/
theorem standsIn_of_infix {e : Expr} {span ts : List Token} (he : e.Spans span)
    (hspan : span <:+: ts) : ∀ d ∈ Expr.partsOf [e], (Piece.expr d).StandsIn ts := by
  rw [Expr.partsOf_singleton]
  exact fun d hd => (he.standsIn d hd).mono hspan

theorem indices_standsIn {es : List Expr} {span ts : List Token} (h : Expr.IndicesSpan es span)
    (hspan : span <:+: ts) : ∀ d ∈ Expr.partsOf es, (Piece.expr d).StandsIn ts :=
  fun d hd => (indicesSpan_standsIn (fun _ _ _ he => he.standsIn) h d hd).mono hspan

/-- The expressions of a statement span parts of its tokens. -/
theorem Spans.heads {s : Stmt} {ts : List Token} (h : s.Spans ts) :
    ∀ d ∈ Expr.partsOf s.heads, (Piece.expr d).StandsIn ts := by
  cases s with
  | expr p e => exact standsIn_of_infix h.2.2 (List.infix_refl _)
  | assign p name indices value =>
    obtain ⟨path, q, right, rfl, hpath, hvalue⟩ := h
    rw [Stmt.heads, Expr.partsOf_append]
    refine List.forall_mem_append.mpr ⟨?_, ?_⟩
    · exact indices_standsIn hpath ⟨[⟨.ident name, p⟩], _, rfl⟩
    · exact standsIn_of_infix hvalue
        ⟨⟨.ident name, p⟩ :: (path ++ [⟨.mark .equal, q⟩]), [], by simp⟩
  | let_ p name type init =>
    obtain ⟨i, c, ty, q, right, rfl, -, hinit⟩ := h
    exact standsIn_of_infix hinit ⟨⟨.word .let_, p⟩ :: ⟨.ident name, i⟩ :: ⟨.mark .colon, c⟩
      :: (ty ++ [⟨.mark .equal, q⟩]), [], by simp⟩
  | print p value =>
    obtain ⟨rest, rfl, hvalue⟩ := h
    exact standsIn_of_infix hvalue (List.suffix_cons _ _).isInfix
  | if_ p cond b else_ =>
    obtain ⟨q, ss⟩ := b
    rcases else_ with _ | ⟨q', others⟩
    · obtain ⟨head, body, rfl, hcond, -⟩ := h
      exact standsIn_of_infix hcond ⟨[⟨.word .if_, p⟩], body, rfl⟩
    · obtain ⟨head, body, other, rfl, hcond, -⟩ := h
      exact standsIn_of_infix hcond ⟨[⟨.word .if_, p⟩], body ++ other, rfl⟩
  | while_ p cond b =>
    obtain ⟨q, ss⟩ := b
    obtain ⟨head, body, rfl, hcond, -⟩ := h
    exact standsIn_of_infix hcond ⟨[⟨.word .while_, p⟩], body, rfl⟩
  | for_ p var start stop b =>
    obtain ⟨q, ss⟩ := b
    obtain ⟨i, c, n, e, left, d, right, body, rfl, hstart, hstop, -⟩ := h
    have hpair : Expr.partsOf [start, stop] = Expr.partsOf [start] ++ Expr.partsOf [stop] :=
      Expr.partsOf_append [start] [stop]
    rw [Stmt.heads, hpair]
    refine List.forall_mem_append.mpr ⟨?_, ?_⟩
    · exact standsIn_of_infix hstart ⟨[⟨.word .for_, p⟩, ⟨.ident var, i⟩, ⟨.mark .colon, c⟩,
        ⟨.word .int, n⟩, ⟨.mark .equal, e⟩], ⟨.mark .dotDot, d⟩ :: (right ++ body), rfl⟩
    · exact standsIn_of_infix hstop ⟨⟨.word .for_, p⟩ :: ⟨.ident var, i⟩ :: ⟨.mark .colon, c⟩
        :: ⟨.word .int, n⟩ :: ⟨.mark .equal, e⟩ :: (left ++ [⟨.mark .dotDot, d⟩]), body, by simp⟩
  | fn => exact List.forall_mem_nil _
  | return_ p value =>
    cases value with
    | none => exact List.forall_mem_nil _
    | some e =>
      obtain ⟨rest, rfl, he⟩ := h
      exact standsIn_of_infix he (List.suffix_cons _ _).isInfix

/-- A statement and the parts of its expressions span parts of its tokens. -/
theorem Spans.own {s : Stmt} {ts : List Token} (h : s.Spans ts) :
    ∀ piece ∈ s.ownPieces, piece.StandsIn ts :=
  List.forall_mem_cons.mpr ⟨⟨ts, List.infix_refl _, h, h.first⟩, List.forall_mem_map.mpr h.heads⟩

theorem withSemicolon_standsIn {s : Stmt} {ts : List Token}
    (hs : ∀ us, s.Spans us → ∀ piece ∈ s.pieces, piece.StandsIn us)
    (h : WithSemicolon s.Spans ts) : ∀ piece ∈ s.pieces, piece.StandsIn ts := by
  rcases h with h | ⟨inner, q, rfl, h⟩
  · exact hs ts h
  · exact fun piece hp => (hs inner h piece hp).mono (List.prefix_append _ _).isInfix

section
variable {ss : List Stmt}
  (ih : ∀ s ∈ ss, ∀ us, s.Spans us → ∀ piece ∈ s.pieces, piece.StandsIn us)
include ih

theorem allSpan_standsIn {ts : List Token} (h : AllSpan ss ts) :
    ∀ piece ∈ piecesOf ss, piece.StandsIn ts := by
  induction ss generalizing ts with
  | nil => exact List.forall_mem_nil _
  | cons s ss ihrest =>
    obtain ⟨ihs, ihss⟩ := List.forall_mem_cons.mp ih
    obtain ⟨first, rest, rfl, hfirst, hrest⟩ := h
    refine List.forall_mem_append.mpr ⟨fun piece hp => ?_, fun piece hp => ?_⟩
    · exact (withSemicolon_standsIn ihs hfirst piece hp).mono (List.prefix_append _ _).isInfix
    · exact (ihrest ihss hrest piece hp).mono (List.suffix_append _ _).isInfix

/-- A block in some tokens, and what is in it. -/
theorem block_standsIn {q : Pos} {w : Word} {span ts : List Token}
    (h : Encloses (AllSpan ss) q w span) (hw : w = .end_ ∨ w = .else_) (hspan : span <:+: ts) :
    ∀ piece ∈ .block (.mk q ss) :: piecesOf ss, piece.StandsIn ts := by
  refine List.forall_mem_cons.mpr ⟨⟨span, w, hspan, hw, h⟩, fun piece hp => ?_⟩
  obtain ⟨inner, r, rfl, hinner, -⟩ := h
  exact ((allSpan_standsIn ih hinner piece hp).mono (List.prefix_append _ _).isInfix).mono hspan

end

/-- All pieces of a statement span parts of its tokens. -/
theorem Spans.standsIn {s : Stmt} {ts : List Token} (h : s.Spans ts) :
    ∀ piece ∈ s.pieces, piece.StandsIn ts := by
  induction s generalizing ts with
  | if_ p cond q ss else_ ih ih' =>
    rcases else_ with _ | ⟨q', others⟩
    · rw [pieces]
      refine List.forall_mem_append.mpr ⟨h.own, ?_⟩
      obtain ⟨head, body, rfl, -, hbody⟩ := h
      exact block_standsIn (fun s hs _ h => ih s hs h) hbody (.inl rfl)
        ⟨⟨.word .if_, p⟩ :: head, [], by simp⟩
    · rw [pieces]
      refine List.forall_mem_append.mpr ⟨h.own, List.forall_mem_append.mpr ⟨?_, ?_⟩⟩
      · obtain ⟨head, body, other, rfl, -, hbody, -⟩ := h
        exact block_standsIn (fun s hs _ h => ih s hs h) hbody (.inr rfl)
          ⟨⟨.word .if_, p⟩ :: head, other, by simp⟩
      · obtain ⟨head, body, other, rfl, -, -, hother⟩ := h
        exact block_standsIn (fun s hs _ h => ih' _ rfl s hs h) hother (.inl rfl)
          ⟨⟨.word .if_, p⟩ :: (head ++ body), [], by simp⟩
  | while_ p cond q ss ih =>
    rw [pieces]
    refine List.forall_mem_append.mpr ⟨h.own, ?_⟩
    obtain ⟨head, body, rfl, -, hbody⟩ := h
    exact block_standsIn (fun s hs _ h => ih s hs h) hbody (.inl rfl)
      ⟨⟨.word .while_, p⟩ :: head, [], by simp⟩
  | for_ p var start stop q ss ih =>
    rw [pieces]
    refine List.forall_mem_append.mpr ⟨h.own, ?_⟩
    obtain ⟨i, c, n, e, left, d, right, body, rfl, -, -, hbody⟩ := h
    exact block_standsIn (fun s hs _ h => ih s hs h) hbody (.inl rfl)
      ⟨⟨.word .for_, p⟩ :: ⟨.ident var, i⟩ :: ⟨.mark .colon, c⟩ :: ⟨.word .int, n⟩
        :: ⟨.mark .equal, e⟩ :: (left ++ ⟨.mark .dotDot, d⟩ :: right), [], by simp⟩
  | fn p name params q ss ih =>
    rw [pieces]
    refine List.forall_mem_append.mpr ⟨h.own, ?_⟩
    obtain ⟨i, l, list, r, body, rfl, -, hbody⟩ := h
    exact block_standsIn (fun s hs _ h => ih s hs h) hbody (.inl rfl)
      ⟨⟨.word .fn, p⟩ :: ⟨.ident name, i⟩ :: ⟨.mark .lparen, l⟩ :: (list ++ [⟨.mark .rparen, r⟩]),
        [], by simp⟩
  | expr | assign | let_ | print | return_ =>
    rw [pieces]
    exact h.own

/-- All pieces of some statements span parts of their tokens. -/
theorem AllSpan.standsIn {ss : List Stmt} {ts : List Token} (h : AllSpan ss ts) :
    ∀ piece ∈ piecesOf ss, piece.StandsIn ts :=
  allSpan_standsIn (fun _ _ _ hs => hs.standsIn) h

end Stmt

end Lumen
