/-
  Lumen.Proofs.Encoding.Programs — what is shown of a program, and what is wrong with it.

  The strings in the JSON of a program are fixed words, its names and its string
  constants.  An error that a check reports is about a name of the program, or it shows
  a constant of it; types and numbers are all that is said besides.  So if the
  lexemes of a program carry well-formed texts, then everything that is shown of it
  is well-formed, and everything that is said of it.

  Main statements:
    * `Json.repaired_of_encoded` — well-formed strings need no repair;
    * `Expr.encoded_toJson` … `Program.Encoded.toJson` — the nodes of a program;
    * `Expr.Violates.encoded` / `Stmt.Violates.encoded` — what the rules report;
    * `Program.check_encoded` — what a walk over a program reports.
-/
import Lumen.Proofs.Host.Decoding
import Lumen.Proofs.Scoping.Written
import Lumen.Proofs.Scoping.Calls
import Lumen.Proofs.Encoding.Wording

namespace Lumen

open Utf8

/-! ## §1. Strings of JSON values -/

namespace Json

mutual
/-- The strings in a value.  Keys are fixed words and are left out. -/
def strings : Json → List Bytes
  | str s => [s]
  | arr items => stringsOf items
  | obj fields => stringsUnder fields
  | _ => []

/-- The strings in some values. -/
def stringsOf : List Json → List Bytes
  | [] => []
  | j :: rest => j.strings ++ stringsOf rest

/-- The strings under some keys. -/
def stringsUnder : List (String × Json) → List Bytes
  | [] => []
  | (_, j) :: rest => j.strings ++ stringsUnder rest
end

/-- Whether all strings in a value are well-formed. -/
def Encoded (j : Json) : Prop := ∀ s ∈ j.strings, isWellFormed s = true

@[simp] theorem encoded_str {s : Bytes} : (str s).Encoded ↔ isWellFormed s = true :=
  List.forall_mem_singleton

@[simp] theorem encoded_null : null.Encoded := List.forall_mem_nil _

@[simp] theorem encoded_bool (b : Bool) : (bool b).Encoded := List.forall_mem_nil _

@[simp] theorem encoded_int (n : Int) : (int n).Encoded := List.forall_mem_nil _

@[simp] theorem encoded_float (x : Binary64) : (float x).Encoded := List.forall_mem_nil _

@[simp] theorem encoded_arr {items : List Json} :
    (arr items).Encoded ↔ ∀ j ∈ items, j.Encoded := by
  unfold Encoded
  rw [strings]
  induction items with
  | nil => simp [stringsOf]
  | cons j rest ih => rw [stringsOf, List.forall_mem_append, ih, List.forall_mem_cons]

@[simp] theorem encoded_obj {fields : List (String × Json)} :
    (obj fields).Encoded ↔ ∀ field ∈ fields, field.2.Encoded := by
  unfold Encoded
  rw [strings]
  induction fields with
  | nil => simp [stringsUnder]
  | cons field rest ih =>
    obtain ⟨key, j⟩ := field
    rw [stringsUnder, List.forall_mem_append, ih, List.forall_mem_cons]

/-- **Well-formed strings need no repair.** -/
theorem repaired_of_encoded {j : Json} (h : j.Encoded) : j.repaired = j := by
  induction j using ind with
  | str s => exact repaired_str_of_isWellFormed (encoded_str.mp h)
  | arr items ih =>
    have hitems : items.map repaired = items.map id :=
      List.map_congr_left fun j hj => ih j hj (encoded_arr.mp h j hj)
    rw [repaired, repairedItems_eq_map, hitems, List.map_id]
  | obj fields ih =>
    rw [encoded_obj] at h
    rw [repaired]
    -- keys stay as they are, and each value does by the hypothesis about it
    congr 1
    induction fields with
    | nil => rfl
    | cons field rest ihrest =>
      obtain ⟨key, j⟩ := field
      obtain ⟨hhead, htail⟩ := List.forall_mem_cons.mp h
      obtain ⟨ihhead, ihtail⟩ := List.forall_mem_cons.mp ih
      rw [repairedFields, ihhead hhead, ihrest ihtail htail]
  | _ => rfl

/-- A fixed word. -/
theorem encoded_word {s : String} (h : (ascii s).IsAscii) : (word s).Encoded :=
  encoded_str.mpr (isWellFormed_of_isAscii h)

/-- A node, whose kind is a fixed word. -/
theorem encoded_node {kind : String} (hkind : (ascii kind).IsAscii) {pos : Pos}
    {fields : List (String × Json)} :
    (node kind pos fields).Encoded ↔ ∀ field ∈ fields, field.2.Encoded := by
  simp [node, nat, encoded_word hkind]

end Json

/-! ## §2. Expressions -/

/-- Whether the lexemes of an expression carry well-formed texts. -/
def Expr.Encoded (e : Expr) : Prop := ∀ l ∈ e.lexemes, l.Encoded

theorem encoded_ofLiteral {v : Literal} (h : (Lexeme.literal v).Encoded) :
    (Json.ofLiteral v).Encoded := by
  cases v with
  | str s => exact Json.encoded_str.mpr (h s rfl)
  | _ => simp [Json.ofLiteral]

theorem isWellFormed_of_ident {name : Bytes} (h : (Lexeme.ident name).Encoded) :
    isWellFormed name = true := h name rfl

namespace Expr

open Json

section
variable {es : List Expr}

theorem encoded_of_index (h : ∀ l ∈ indexLexemes es, l.Encoded) : ∀ e ∈ es, e.Encoded :=
  fun _ he l hl => h l (lexemes_subset_indexLexemes he hl)

theorem encoded_of_list (h : ∀ l ∈ listLexemes es, l.Encoded) : ∀ e ∈ es, e.Encoded :=
  fun _ he l hl => h l (lexemes_subset_listLexemes he hl)

theorem encoded_toJsonList (h : ∀ e ∈ es, e.toJson.Encoded) : ∀ j ∈ toJsonList es, j.Encoded := by
  rw [toJsonList_eq_map]
  exact List.forall_mem_map.mpr h

end

theorem encoded_variableNode (pos : Pos) {name : Bytes} (h : isWellFormed name = true) :
    (variableNode pos name).Encoded :=
  (encoded_node (by decide)).mpr (List.forall_mem_singleton.mpr (encoded_str.mpr h))

/-- One node around another, for each index. -/
theorem encoded_indexed (pos : Pos) {object : Json} {indices : List Json}
    (hobject : object.Encoded) (hindices : ∀ j ∈ indices, j.Encoded) :
    (indexed pos object indices).Encoded := by
  unfold indexed
  induction indices generalizing object with
  | nil => exact hobject
  | cons index rest ih =>
    obtain ⟨hindex, hrest⟩ := List.forall_mem_cons.mp hindices
    rw [List.foldl_cons]
    refine ih ((encoded_node (by decide)).mpr ?_) hrest
    exact List.forall_mem_cons.mpr ⟨hobject, List.forall_mem_singleton.mpr hindex⟩

/-- **The node of an expression.** -/
theorem encoded_toJson {e : Expr} (h : e.Encoded) : e.toJson.Encoded := by
  unfold Encoded at h
  induction e with
  | literal p v =>
    rw [lexemes, List.forall_mem_singleton] at h
    rw [toJson]
    exact (encoded_node (by decide)).mpr (List.forall_mem_singleton.mpr (encoded_ofLiteral h))
  | access p name indices ih =>
    rw [lexemes, List.forall_mem_cons] at h
    rw [toJson]
    exact encoded_indexed p (encoded_variableNode p (isWellFormed_of_ident h.1))
      (encoded_toJsonList fun e he => ih e he (encoded_of_index h.2 e he))
  | neg p e ih =>
    rw [lexemes, List.forall_mem_cons] at h
    rw [toJson, encoded_node (by decide)]
    simp [ih h.2, isWellFormed_of_isAscii Mark.minus.isAscii_bytes]
  | binary p op lhs rhs ihl ihr =>
    rw [lexemes, List.forall_mem_append, List.forall_mem_cons] at h
    rw [toJson, encoded_node (by decide)]
    simp [ihl h.1, ihr h.2.2, isWellFormed_of_isAscii op.mark.isAscii_bytes]
  | logical p op lhs rhs ihl ihr =>
    rw [lexemes, List.forall_mem_append, List.forall_mem_cons] at h
    rw [toJson, encoded_node (by decide)]
    simp [ihl h.1, ihr h.2.2, encoded_word op.word.isAscii_spelling]
  | group p e ih =>
    rw [lexemes, List.forall_mem_cons, List.forall_mem_append] at h
    rw [toJson, encoded_node (by decide)]
    simp [ih h.2.1]
  | list p elements ih =>
    rw [lexemes, List.forall_mem_cons, List.forall_mem_append] at h
    have helements : ∀ e ∈ elements, e.toJson.Encoded := fun e he =>
      ih e he (encoded_of_list h.2.1 e he)
    rw [toJson, encoded_node (by decide)]
    simpa using encoded_toJsonList helements
  | call p name args ih =>
    rw [lexemes, List.forall_mem_cons, List.forall_mem_cons, List.forall_mem_append] at h
    have hargs : ∀ e ∈ args, e.toJson.Encoded := fun e he =>
      ih e he (encoded_of_list h.2.2.1 e he)
    rw [toJson, encoded_node (by decide)]
    simpa [encoded_variableNode p (isWellFormed_of_ident h.1)] using encoded_toJsonList hargs
  | method p name indices m args ihi iha =>
    rw [lexemes, List.forall_mem_cons, List.forall_mem_append, List.forall_mem_cons,
      List.forall_mem_cons, List.forall_mem_cons, List.forall_mem_append] at h
    obtain ⟨hname, hindices, -, hm, -, hargs, -⟩ := h
    have hreceiver : (indexed p (variableNode p name) (toJsonList indices)).Encoded :=
      encoded_indexed p (encoded_variableNode p (isWellFormed_of_ident hname))
        (encoded_toJsonList fun e he => ihi e he (encoded_of_index hindices e he))
    have hargs' : ∀ j ∈ toJsonList args, j.Encoded :=
      encoded_toJsonList fun e he => iha e he (encoded_of_list hargs e he)
    rw [toJson, encoded_node (by decide)]
    simpa [hreceiver, isWellFormed_of_ident hm] using hargs'

end Expr

/-! ## §3. Statements -/

/-- Whether what a node is written with carries well-formed texts. -/
def Node.Encoded (n : Node) : Prop := ∀ l ∈ n.lexemes, l.Encoded

namespace Stmt

open Json

section
variable {s : Stmt} (h : (Node.stmt s).Encoded)
include h

theorem isWellFormed_of_names : ∀ name ∈ s.names, isWellFormed name = true := by
  intro name hname
  apply isWellFormed_of_ident
  exact h _ (List.mem_append_left _ (List.mem_map_of_mem hname))

theorem encoded_of_heads : ∀ e ∈ s.heads, e.Encoded := by
  intro e he l hl
  exact h l (List.mem_append_right _ (List.mem_flatMap.mpr ⟨e, he, hl⟩))

theorem encoded_toJson_of_heads : ∀ e ∈ s.heads, e.toJson.Encoded :=
  fun e he => Expr.encoded_toJson (encoded_of_heads h e he)

end

theorem encoded_stmtsToJson {ss : List Stmt} (h : ∀ s ∈ ss, s.toJson.Encoded) :
    (arr (stmtsToJson ss)).Encoded := by
  rw [stmtsToJson_eq_map, encoded_arr]
  exact List.forall_mem_map.mpr h

theorem encoded_ofParam {p : Param} (h : isWellFormed p.name = true) : (ofParam p).Encoded := by
  simp [ofParam, h, encoded_word p.type.isAscii_text]

/-- An assignment, with the last index by itself. -/
theorem encoded_assignNode (pos : Pos) {name : Bytes} {indices : List Json} {value : Json}
    (hname : isWellFormed name = true) (hindices : ∀ j ∈ indices, j.Encoded)
    (hvalue : value.Encoded) : (assignNode pos name indices value).Encoded := by
  unfold assignNode
  split
  · rw [encoded_node (by decide)]
    simp [hname, hvalue]
  · next index hlast =>
    have hobject : (Expr.indexed pos (Expr.variableNode pos name) indices.dropLast).Encoded :=
      Expr.encoded_indexed pos (Expr.encoded_variableNode pos hname)
        fun j hj => hindices j (List.dropLast_subset _ hj)
    rw [encoded_node (by decide)]
    simp [hobject, hvalue, hindices index (List.mem_of_getLast? hlast)]

/-- **The node of a statement.** -/
theorem encoded_toJson (s : Stmt) (h : ∀ site ∈ s.sites, site.node.Encoded) :
    s.toJson.Encoded := by
  induction s with
  | expr p e | print p e =>
    have hheads := encoded_toJson_of_heads (h _ List.mem_cons_self)
    rw [toJson, encoded_node (by decide)]
    simpa [heads] using hheads
  | assign p name indices value =>
    have hown : (Node.stmt (assign p name indices value)).Encoded := h _ List.mem_cons_self
    have hheads := encoded_toJson_of_heads hown
    have hname : isWellFormed name = true :=
      isWellFormed_of_names hown name (List.mem_singleton_self name)
    have hnode : (assignNode p name (Expr.toJsonList indices) value.toJson).Encoded := by
      apply encoded_assignNode p hname
      · exact Expr.encoded_toJsonList fun e he => hheads e (List.mem_append_left _ he)
      · exact hheads value (List.mem_append_right _ (List.mem_singleton_self value))
    rw [toJson, encoded_node (by decide)]
    exact List.forall_mem_singleton.mpr hnode
  | let_ p name type init =>
    have hown : (Node.stmt (let_ p name type init)).Encoded := h _ List.mem_cons_self
    have hheads := encoded_toJson_of_heads hown
    have hnames := isWellFormed_of_names hown
    rw [toJson, encoded_node (by decide)]
    simp only [names, List.forall_mem_singleton] at hnames
    simp only [heads, List.forall_mem_singleton] at hheads
    simp [hnames, hheads, encoded_word type.isAscii_text]
  | if_ p cond q ss else_ ih ih' =>
    have hown : (Node.stmt (if_ p cond (.mk q ss) else_)).Encoded :=
      h _ (ownSites_subset _ List.mem_cons_self)
    have hcond : cond.toJson.Encoded :=
      encoded_toJson_of_heads hown cond (List.mem_singleton_self cond)
    rcases else_ with _ | ⟨q', others⟩
    · rw [sites, List.forall_mem_append, forall_sitesIn] at h
      have hss := encoded_stmtsToJson fun s hs => ih s hs (h.2 s hs)
      rw [toJson, encoded_node (by decide)]
      simp [hcond, hss]
    · rw [sites, List.forall_mem_append, List.forall_mem_append, forall_sitesIn,
        forall_sitesIn] at h
      have hss := encoded_stmtsToJson fun s hs => ih s hs (h.2.1 s hs)
      have hothers : (arr (stmtsToJson others)).Encoded :=
        encoded_stmtsToJson fun s hs => ih' _ rfl s hs (h.2.2 s hs)
      rw [toJson, encoded_node (by decide)]
      simp [hcond, hss, hothers]
  | while_ p cond q ss ih =>
    have hown : (Node.stmt (while_ p cond (.mk q ss))).Encoded :=
      h _ (ownSites_subset _ List.mem_cons_self)
    have hcond : cond.toJson.Encoded :=
      encoded_toJson_of_heads hown cond (List.mem_singleton_self cond)
    rw [sites, List.forall_mem_append, forall_sitesIn] at h
    have hss := encoded_stmtsToJson fun s hs => ih s hs (h.2 s hs)
    rw [toJson, encoded_node (by decide)]
    simp [hcond, hss]
  | for_ p var start stop q ss ih =>
    have hown : (Node.stmt (for_ p var start stop (.mk q ss))).Encoded :=
      h _ (ownSites_subset _ List.mem_cons_self)
    have hvar : isWellFormed var = true :=
      isWellFormed_of_names hown var (List.mem_singleton_self var)
    have hheads := encoded_toJson_of_heads hown
    have hstart : start.toJson.Encoded := hheads start List.mem_cons_self
    have hstop : stop.toJson.Encoded :=
      hheads stop (List.mem_cons_of_mem _ (List.mem_singleton_self stop))
    rw [sites, List.forall_mem_append, forall_sitesIn] at h
    have hss := encoded_stmtsToJson fun s hs => ih s hs (h.2 s hs)
    rw [toJson, encoded_node (by decide)]
    simp [hvar, hstart, hstop, hss]
  | fn p name params q ss ih =>
    have hown : (Node.stmt (fn p name params (.mk q ss))).Encoded :=
      h _ (ownSites_subset _ List.mem_cons_self)
    obtain ⟨hname, hparams⟩ := List.forall_mem_cons.mp (isWellFormed_of_names hown)
    rw [sites, List.forall_mem_append, forall_sitesIn] at h
    have hss := encoded_stmtsToJson fun s hs => ih s hs (h.2 s hs)
    have hparams' : (arr (params.map ofParam)).Encoded := by
      rw [encoded_arr, List.forall_mem_map]
      exact fun param hparam => encoded_ofParam (hparams _ (List.mem_map_of_mem hparam))
    rw [toJson, fnNode, encoded_node (by decide)]
    simp [hname, hparams', hss, ofOption]
  | return_ p value =>
    cases value with
    | none =>
      rw [toJson, encoded_node (by decide)]
      exact List.forall_mem_singleton.mpr encoded_null
    | some e =>
      have hheads := encoded_toJson_of_heads (h _ List.mem_cons_self)
      rw [toJson, encoded_node (by decide)]
      simpa [heads] using hheads

end Stmt

/-- Whether all that a program is written with carries well-formed texts. -/
def Program.Encoded (p : Program) : Prop := ∀ site ∈ p.sites, site.node.Encoded

/-- **The JSON of a program.** -/
theorem Program.Encoded.toJson {p : Program} (h : p.Encoded) : p.toJson.Encoded := by
  have hall : ∀ s ∈ p, ∀ site ∈ s.sites, site.node.Encoded := forall_sitesAfter.mp h
  exact Stmt.encoded_stmtsToJson fun s hs => s.encoded_toJson (hall s hs)

/-! ## §4. What rules report -/

/-- Whether a function has a well-formed name, and its parameters have. -/
structure Signature.Encoded (f : Signature) : Prop where
  name : isWellFormed f.name = true
  params : ∀ p ∈ f.params, isWellFormed p.name = true

/-- A mismatch, under no name. -/
theorem encoded_mismatch {got : Got} (h : got.Encoded) (wanted : Wanted) (pos : Pos) :
    (ParseError.mismatch [] wanted got pos).Encoded := ⟨isWellFormed_nil, h⟩

namespace Expr.Encoded

variable {e : Expr} {err : ParseError} (h : e.Encoded)
include h

theorem got (t : Ty) : (e.got t).Encoded := by
  cases e with
  | literal p v => exact h _ (List.mem_singleton_self _)
  | _ => exact trivial

theorem ungrouped : e.ungrouped.Encoded := by
  -- only parentheses are taken off, and they carry no text
  induction e with
  | group p e ih =>
    unfold Encoded at h
    rw [lexemes, List.forall_mem_cons, List.forall_mem_append] at h
    exact ih h.2.1
  | _ => exact h

theorem of_require {t : Option Ty} {ok : Ty → Bool} {wanted : Wanted}
    (herr : e.require t ok wanted = .error err) : err.Encoded := by
  unfold Expr.require at herr
  split at herr
  · cases herr
  · split at herr
    · cases herr
    · cases herr
      exact encoded_mismatch (h.got _) _ _

theorem of_requireOperand {op : BinaryOp} {t : Option Ty}
    (herr : op.requireOperand e t = .error err) : err.Encoded := by
  unfold BinaryOp.requireOperand at herr
  split at herr
  · exact h.of_require herr
  split at herr
  · cases herr
  split at herr <;> exact h.of_require herr

theorem of_requireAgreement {left right : Option Ty}
    (herr : BinaryOp.requireAgreement left right e = .error err) : err.Encoded := by
  unfold BinaryOp.requireAgreement at herr
  split at herr
  · split at herr
    · cases herr
    · cases herr
      exact encoded_mismatch (h.got _) _ _
  · cases herr

end Expr.Encoded

/-- The type of what is indexed is all that is said of it. -/
theorem encoded_of_elementType {pos : Pos} {t : Option Ty} {err : ParseError}
    (h : elementType pos t = .error err) : err.Encoded := by
  unfold elementType at h
  split at h
  · cases h
  · cases h
  · cases h
  · next t _ _ =>
    cases h
    have ht : (Got.type t).Encoded := trivial
    exact encoded_mismatch ht _ _

section
variable {env : Env} {err : ParseError}

theorem Unassignable.encoded {name : Bytes} {declared : Ty} {pos : Pos} {e : Expr}
    (h : Unassignable env name declared pos e err) (hname : isWellFormed name = true)
    (he : e.Encoded) : err.Encoded := by
  induction h with
  | group _ ih =>
    unfold Expr.Encoded at he
    rw [Expr.lexemes, List.forall_mem_cons, List.forall_mem_append] at he
    exact ih he.2.1
  | noList => exact ⟨hname, trivial⟩
  | element hmem _ ih =>
    unfold Expr.Encoded at he
    rw [Expr.lexemes, List.forall_mem_cons, List.forall_mem_append] at he
    exact ih (Expr.encoded_of_list he.2.1 _ hmem)
  | plain => exact ⟨hname, he.got _⟩

theorem IndexViolates.encoded {pos : Pos} {t : Option Ty} {indices : List Expr}
    (h : IndexViolates env pos t indices err) (hindices : ∀ e ∈ indices, e.Encoded) :
    err.Encoded := by
  induction h with
  | index _ herr => exact (List.forall_mem_cons.mp hindices).1.of_require herr
  | indexed herr => exact encoded_of_elementType herr
  | next _ _ ih => exact ih (List.forall_mem_cons.mp hindices).2

theorem PlaceViolates.encoded {pos : Pos} {name : Bytes} {indices : List Expr}
    (h : PlaceViolates env pos name indices err) (hname : isWellFormed name = true)
    (hindices : ∀ e ∈ indices, e.Encoded) : err.Encoded := by
  cases h with
  | unbound => exact hname
  | indices _ h => exact h.encoded hindices

/-- **What the rule of an expression reports.**  A call is measured by the function that
    is known, whose names may come from another place of the text. -/
theorem Expr.Violates.encoded {e : Expr} (h : e.Violates env err) (he : e.Encoded)
    (hfunctions : ∀ f ∈ env.functions, f.Encoded) : err.Encoded := by
  unfold Expr.Encoded at he
  cases h with
  | access h =>
    rw [lexemes, List.forall_mem_cons] at he
    exact h.encoded (isWellFormed_of_ident he.1) (encoded_of_index he.2)
  | receiver h =>
    rw [lexemes, List.forall_mem_cons, List.forall_mem_append] at he
    exact h.encoded (isWellFormed_of_ident he.1) (encoded_of_index he.2.1)
  | @negated p e t err ht herr =>
    rw [lexemes, List.forall_mem_cons] at he
    exact Expr.Encoded.of_require he.2 herr
  | agreement _ _ herr =>
    rw [lexemes, List.forall_mem_append, List.forall_mem_cons] at he
    exact Expr.Encoded.of_requireAgreement he.2.2 herr
  | operand hside _ herr =>
    rw [lexemes, List.forall_mem_append, List.forall_mem_cons] at he
    obtain rfl | rfl := hside
    · exact Expr.Encoded.of_requireOperand he.1 herr
    · exact Expr.Encoded.of_requireOperand he.2.2 herr
  | truth hside _ herr =>
    rw [lexemes, List.forall_mem_append, List.forall_mem_cons] at he
    obtain rfl | rfl := hside
    · exact Expr.Encoded.of_require he.1 herr
    · exact Expr.Encoded.of_require he.2.2 herr
  | element hmem =>
    rw [lexemes, List.forall_mem_cons, List.forall_mem_append] at he
    exact encoded_mismatch (Expr.Encoded.got (encoded_of_list he.2.1 _ hmem) _) _ _
  -- both name what the function names, the second one of its parameters
  | arity hf => exact (hfunctions _ (mem_of_function? hf).1).name
  | argument hf _ hmem herr =>
    rw [lexemes, List.forall_mem_cons, List.forall_mem_cons, List.forall_mem_append] at he
    obtain ⟨hparam, harg⟩ := List.of_mem_zip hmem
    exact herr.encoded ((hfunctions _ (mem_of_function? hf).1).params _ hparam)
      (encoded_of_list he.2.2.1 _ harg)

/-- **What the rule of a statement reports.** -/
theorem Stmt.Violates.encoded {s : Stmt} (h : s.Violates env err) (hs : (Node.stmt s).Encoded) :
    err.Encoded := by
  have hnames := isWellFormed_of_names hs
  have hheads := encoded_of_heads hs
  cases h with
  | ifTruth | whileTruth =>
    exact encoded_mismatch ((hheads _ (List.mem_singleton_self _)).ungrouped.got _) _ _
  | bound hside herr =>
    apply herr.encoded (hnames _ (List.mem_singleton_self _)) (hheads _ _)
    simpa [heads] using hside
  | init herr =>
    exact herr.encoded (hnames _ (List.mem_singleton_self _)) (hheads _ (List.mem_singleton_self _))
  | target herr =>
    exact herr.encoded (hnames _ (List.mem_singleton_self _))
      fun e he => hheads e (List.mem_append_left _ he)
  | value _ _ herr =>
    exact herr.encoded (hnames _ (List.mem_singleton_self _))
      (hheads _ (List.mem_append_right _ (List.mem_singleton_self _)))

theorem Node.Violates.encoded {n : Node} (h : n.Violates env err) (hn : n.Encoded)
    (hfunctions : ∀ f ∈ env.functions, f.Encoded) : err.Encoded := by
  cases n with
  | expr e => exact Expr.Violates.encoded h hn hfunctions
  | stmt s => exact Stmt.Violates.encoded h hn

end

/-! ## §5. Programs -/

/-- A function that a statement defines. -/
theorem Stmt.encoded_of_signature? {s : Stmt} (hs : (Node.stmt s).Encoded) {f : Signature}
    (hf : s.signature? = some f) : f.Encoded := by
  cases s with
  | fn p name params b =>
    obtain rfl := Option.some.inj hf
    obtain ⟨hname, hparams⟩ := List.forall_mem_cons.mp (isWellFormed_of_names hs)
    exact ⟨hname, fun param hparam => hparams _ (List.mem_map_of_mem hparam)⟩
  | _ => cases hf

/-- **What a walk over a program reports.** -/
theorem Program.check_encoded {p : Program} (h : p.Encoded) :
    Gives (Program.check .empty p) (fun _ => True)
      fun f => ∃ err, f = .error err ∧ (err.isRefused = true ∨ err.Encoded) := by
  have hall : ∀ s ∈ p, ∀ site ∈ s.sites, site.node.Encoded := forall_sitesAfter.mp h
  have hsignature : ∀ s ∈ p, ∀ f, s.signature? = some f → f.Encoded := fun s hs f hf =>
    Stmt.encoded_of_signature? (hall s hs _ (s.ownSites_subset List.mem_cons_self)) hf
  have hstart : Env.empty.Matches (.afterTop []) := .refl .empty
  apply (Program.check_walked hstart p ?_ ?_ ?_).weaken fun _ _ => trivial
  · intro site hsite err herr
    refine ⟨err, rfl, .inr (herr.encoded (h site hsite) ?_)⟩
    -- what is known at a site was defined before, in the same program
    intro f hf
    rw [site.functions_env] at hf
    obtain ⟨s, hs, hf⟩ := List.mem_filterMap.mp hf
    have hbefore : site.above <+: p := above_prefix hsite
    exact hsignature s (hbefore.subset hs) f hf
  · exact fun err herr => ⟨err, rfl, .inl herr⟩
  · exact fun s hs f pos hf => ⟨_, rfl, .inr (hsignature s hs f hf).name⟩

end Lumen
