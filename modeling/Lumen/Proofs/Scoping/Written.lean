/-
  Lumen.Proofs.Scoping.Written — what stands in a program is written in its text.

  The parts of an expression are written within it.  A statement is written with the
  names that it takes, with its own expressions, and with what is in its blocks.  So
  whatever there is at a site of a program, its names and its constants are among the
  lexemes of the text.

  Main statements:
    * `Expr.lexemes_subset_of_mem_parts` — parts of an expression;
    * `forall_sitesIn` / `forall_sitesAfter` — what holds of all nodes in a block;
    * `Stmt.written` / `Program.written` — the nodes at the sites of a program.
-/
import Lumen.Proofs.Grammar.Spelling
import Lumen.Proofs.Scoping.Sites

namespace Lumen

/-! ## §1. Expressions -/

namespace Expr

section
variable {e : Expr} {es : List Expr} (he : e ∈ es)
include he

theorem lexemes_subset_indexLexemes : e.lexemes ⊆ indexLexemes es := by
  induction es with
  | nil => cases he
  | cons e' rest ih =>
    rw [indexLexemes]
    apply List.subset_cons_of_subset
    obtain rfl | hrest := List.mem_cons.mp he
    · exact List.subset_append_left _ _
    · exact List.subset_append_of_subset_right _ (List.subset_cons_of_subset _ (ih hrest))

theorem lexemes_subset_listLexemes : e.lexemes ⊆ listLexemes es := by
  induction es with
  | nil => cases he
  | cons e' rest ih =>
    cases rest with
    | nil =>
      obtain rfl := List.mem_singleton.mp he
      exact List.Subset.refl _
    | cons e'' rest =>
      rw [listLexemes_cons e' (List.cons_ne_nil _ _)]
      obtain rfl | hrest := List.mem_cons.mp he
      · exact List.subset_append_left _ _
      · exact List.subset_append_of_subset_right _ (List.subset_cons_of_subset _ (ih hrest))

end

/-- A part of an expression is written within it. -/
theorem lexemes_subset_of_mem_parts {e part : Expr} (h : part ∈ e.parts) :
    part.lexemes ⊆ e.lexemes := by
  -- a part is the expression itself, or a part of an operand, which is written within it
  suffices hall : ∀ part ∈ e.parts, part.lexemes ⊆ e.lexemes from hall part h
  clear h part
  induction e with
  | literal p v => exact List.forall_mem_singleton.mpr (List.Subset.refl _)
  | access p name indices ih =>
    refine List.forall_mem_cons.mpr ⟨List.Subset.refl _, forall_partsOf.mpr ?_⟩
    intro e he part hpart l hl
    exact List.mem_cons_of_mem _ (lexemes_subset_indexLexemes he (ih e he part hpart hl))
  | neg p e ih =>
    refine List.forall_mem_cons.mpr ⟨List.Subset.refl _, ?_⟩
    exact fun part hpart => List.subset_cons_of_subset _ (ih part hpart)
  | binary p op lhs rhs ihl ihr | logical p op lhs rhs ihl ihr =>
    refine List.forall_mem_cons.mpr ⟨List.Subset.refl _, List.forall_mem_append.mpr ⟨?_, ?_⟩⟩
    · exact fun part hpart => List.subset_append_of_subset_left _ (ihl part hpart)
    · exact fun part hpart => List.subset_append_of_subset_right _
        (List.subset_cons_of_subset _ (ihr part hpart))
  | group p e ih =>
    refine List.forall_mem_cons.mpr ⟨List.Subset.refl _, ?_⟩
    exact fun part hpart => List.subset_cons_of_subset _
      (List.subset_append_of_subset_left _ (ih part hpart))
  | list p elements ih =>
    refine List.forall_mem_cons.mpr ⟨List.Subset.refl _, forall_partsOf.mpr ?_⟩
    intro e he part hpart l hl
    have hlist : l ∈ listLexemes elements := lexemes_subset_listLexemes he (ih e he part hpart hl)
    rw [lexemes]
    simp [hlist]
  | call p name args ih =>
    refine List.forall_mem_cons.mpr ⟨List.Subset.refl _, forall_partsOf.mpr ?_⟩
    intro e he part hpart l hl
    have hargs : l ∈ listLexemes args := lexemes_subset_listLexemes he (ih e he part hpart hl)
    rw [lexemes]
    simp [hargs]
  | method p name indices m args ihi iha =>
    refine List.forall_mem_cons.mpr ⟨List.Subset.refl _, List.forall_mem_append.mpr
      ⟨forall_partsOf.mpr ?_, forall_partsOf.mpr ?_⟩⟩
    · intro e he part hpart l hl
      have hindices : l ∈ indexLexemes indices :=
        lexemes_subset_indexLexemes he (ihi e he part hpart hl)
      rw [lexemes]
      simp [hindices]
    · intro e he part hpart l hl
      have hargs : l ∈ listLexemes args := lexemes_subset_listLexemes he (iha e he part hpart hl)
      rw [lexemes]
      simp [hargs]

end Expr

/-! ## §2. Nodes -/

/-- The names that a statement itself takes: those of variables, of a function and of
    its parameters. -/
def Stmt.names : Stmt → List Bytes
  | assign _ name _ _ | let_ _ name _ _ | for_ _ name _ _ _ => [name]
  | fn _ name params _ => name :: params.map Param.name
  | _ => []

/-- What a node is written with, without the blocks of a statement. -/
def Node.lexemes : Node → List Lexeme
  | expr e => e.lexemes
  | stmt s => s.names.map .ident ++ s.heads.flatMap Expr.lexemes

section
variable {P : Node → Prop}

/-- What holds of the nodes of a statement and of the parts of its expressions. -/
theorem Stmt.forall_ownSites {s : Stmt} : (∀ site ∈ s.ownSites, P site.node) ↔
    P (.stmt s) ∧ ∀ e ∈ s.heads, ∀ part ∈ e.parts, P (.expr part) := by
  rw [Stmt.ownSites, List.forall_mem_cons, List.forall_mem_map, Expr.forall_partsOf]

/-- What holds of the nodes in a block. -/
theorem forall_sitesIn {locals : List Param} {before ss : List Stmt} :
    (∀ site ∈ sitesIn locals before ss, P site.node) ↔
      ∀ s ∈ ss, ∀ site ∈ s.sites, P site.node := by
  induction ss generalizing before with
  | nil => simp [sitesIn]
  | cons s rest ih =>
    rw [sitesIn, List.forall_mem_append, List.forall_mem_map, ih, List.forall_mem_cons]
    exact Iff.rfl

/-- What holds of the nodes at top level. -/
theorem forall_sitesAfter {above p : List Stmt} :
    (∀ site ∈ sitesAfter above p, P site.node) ↔ ∀ s ∈ p, ∀ site ∈ s.sites, P site.node := by
  induction p generalizing above with
  | nil => simp [sitesAfter]
  | cons s rest ih =>
    rw [sitesAfter, List.forall_mem_append, List.forall_mem_map, ih, List.forall_mem_cons]
    exact Iff.rfl

end

/-! ## §3. Statements -/

namespace Stmt

/-- If the names of a statement are written in a text and its expressions too, then the
    nodes of its own are. -/
theorem ownSites_written {s : Stmt} {ls : List Lexeme} (hnames : ∀ name ∈ s.names, .ident name ∈ ls)
    (hheads : ∀ e ∈ s.heads, e.lexemes ⊆ ls) : ∀ site ∈ s.ownSites, site.node.lexemes ⊆ ls := by
  apply (forall_ownSites (P := fun n => n.lexemes ⊆ ls)).mpr
  refine ⟨?_, fun e he part hpart l hl => hheads e he (Expr.lexemes_subset_of_mem_parts hpart hl)⟩
  apply List.append_subset.mpr
  refine ⟨?_, fun l hl => ?_⟩
  · exact List.forall_mem_map.mpr hnames
  · obtain ⟨e, he, hl⟩ := List.mem_flatMap.mp hl
    exact hheads e he hl

/-- What is said of statements, said of all that stand in a block. -/
theorem allSpell_written {ss : List Stmt}
    (hss : ∀ s ∈ ss, ∀ ls rest, s.Spells ls rest →
      rest ⊆ ls ∧ ∀ site ∈ s.sites, site.node.lexemes ⊆ ls)
    {ls rest : List Lexeme} (h : AllSpell ss ls rest) :
    rest ⊆ ls ∧ ∀ s ∈ ss, ∀ site ∈ s.sites, site.node.lexemes ⊆ ls := by
  induction ss generalizing ls with
  | nil =>
    rw [AllSpell] at h
    subst h
    exact ⟨List.Subset.refl _, List.forall_mem_nil _⟩
  | cons s ss ih =>
    obtain ⟨hhead, htail⟩ := List.forall_mem_cons.mp hss
    rw [AllSpell] at h
    obtain ⟨mid, next, hs, hnext, hrest⟩ := h
    obtain ⟨hmid, hsites⟩ := hhead ls mid hs
    obtain ⟨hafter, hothers⟩ := ih htail hrest
    -- a semicolon may stand in front of the next statement
    have hsub : next ⊆ ls := by
      obtain rfl | rfl := hnext
      · exact hmid
      · exact (List.cons_subset.mp hmid).2
    refine ⟨List.Subset.trans hafter hsub, List.forall_mem_cons.mpr ⟨hsites, ?_⟩⟩
    exact fun s' hs' site hsite => List.Subset.trans (hothers s' hs' site hsite) hsub

/-- What is written in a block is written in the text around it. -/
theorem sitesIn_written {locals : List Param} {ss : List Stmt} {body ls : List Lexeme}
    (hss : ∀ s ∈ ss, ∀ site ∈ s.sites, site.node.lexemes ⊆ body) (hsub : body ⊆ ls) :
    ∀ site ∈ sitesIn locals [] ss, site.node.lexemes ⊆ ls :=
  (forall_sitesIn (P := fun n => n.lexemes ⊆ ls)).mpr fun s hs site hsite =>
    List.Subset.trans (hss s hs site hsite) hsub

/-- A statement with one block, which is written up to a word that closes it. -/
theorem withBlock_written {s : Stmt} {locals : List Param} {ss : List Stmt}
    {body ls rest : List Lexeme} {close : Lexeme}
    (hsites : s.sites = s.ownSites ++ sitesIn locals [] ss)
    (hblock : close :: rest ⊆ body ∧ ∀ s ∈ ss, ∀ site ∈ s.sites, site.node.lexemes ⊆ body)
    (hsub : body ⊆ ls) (hnames : ∀ name ∈ s.names, .ident name ∈ ls)
    (hheads : ∀ e ∈ s.heads, e.lexemes ⊆ ls) :
    rest ⊆ ls ∧ ∀ site ∈ s.sites, site.node.lexemes ⊆ ls := by
  obtain ⟨hrest, hss⟩ := hblock
  refine ⟨List.Subset.trans (List.cons_subset.mp hrest).2 hsub, ?_⟩
  rw [hsites]
  exact List.forall_mem_append.mpr
    ⟨ownSites_written hnames hheads, sitesIn_written hss hsub⟩

theorem mem_paramLexemes {params : List Param} {p : Param} (h : p ∈ params) :
    .ident p.name ∈ paramLexemes params := by
  induction params with
  | nil => cases h
  | cons p' rest ih =>
    obtain rfl | hrest := List.mem_cons.mp h
    · cases rest <;> exact List.mem_cons_self
    · rw [paramLexemes_cons p' (List.ne_nil_of_mem hrest)]
      simp [ih hrest]

/-- **What stands at the sites of a statement is written in its text**, and so is what
    follows the statement. -/
theorem written (s : Stmt) (ls rest : List Lexeme) (h : s.Spells ls rest) :
    rest ⊆ ls ∧ ∀ site ∈ s.sites, site.node.lexemes ⊆ ls := by
  induction s generalizing ls rest with
  | expr p e =>
    rw [Spells] at h
    obtain ⟨-, rfl⟩ := h
    refine ⟨List.subset_append_right _ _, ownSites_written (List.forall_mem_nil _) ?_⟩
    exact List.forall_mem_singleton.mpr (List.subset_append_left _ _)
  | assign p name indices value =>
    rw [Spells] at h
    subst h
    refine ⟨fun l hl => by simp [hl], ownSites_written ?_ ?_⟩
    · exact List.forall_mem_singleton.mpr List.mem_cons_self
    · intro e he l hl
      rcases List.mem_append.mp he with hindex | hvalue
      · simp [Expr.lexemes_subset_indexLexemes hindex hl]
      · obtain rfl := List.mem_singleton.mp hvalue
        simp [hl]
  | let_ p name type init =>
    rw [Spells] at h
    obtain ⟨-, head, -, rfl⟩ := h
    refine ⟨fun l hl => by simp [hl], ownSites_written ?_ ?_⟩
    · exact List.forall_mem_singleton.mpr (by simp)
    · exact List.forall_mem_singleton.mpr fun l hl => by simp [hl]
  | print p value =>
    rw [Spells] at h
    subst h
    refine ⟨fun l hl => by simp [hl], ownSites_written (List.forall_mem_nil _) ?_⟩
    exact List.forall_mem_singleton.mpr fun l hl => by simp [hl]
  | if_ p cond q ss else_ ih ih' =>
    rcases else_ with _ | ⟨q', others⟩
    · rw [Spells] at h
      obtain ⟨body, rfl, hbody⟩ := h
      apply withBlock_written (by rw [Stmt.sites]) (allSpell_written ih hbody)
      · exact fun l hl => by simp [hl]
      · exact List.forall_mem_nil _
      · exact List.forall_mem_singleton.mpr fun l hl => by simp [hl]
    · rw [Spells] at h
      obtain ⟨body, other, rfl, hbody, hother⟩ := h
      obtain ⟨hmid, hss⟩ := allSpell_written ih hbody
      obtain ⟨hrest, hothers⟩ := allSpell_written (ih' _ rfl) hother
      -- the second block is written where the first has ended
      have hsub : body ⊆ .word .if_ :: (cond.lexemes ++ body) := fun l hl => by simp [hl]
      have hsub' : other ⊆ .word .if_ :: (cond.lexemes ++ body) :=
        List.Subset.trans (List.cons_subset.mp hmid).2 hsub
      refine ⟨List.Subset.trans (List.cons_subset.mp hrest).2 hsub', ?_⟩
      rw [Stmt.sites]
      refine List.forall_mem_append.mpr ⟨ownSites_written (List.forall_mem_nil _) ?_,
        List.forall_mem_append.mpr ⟨sitesIn_written hss hsub, sitesIn_written hothers hsub'⟩⟩
      exact List.forall_mem_singleton.mpr fun l hl => by simp [hl]
  | while_ p cond q ss ih =>
    rw [Spells] at h
    obtain ⟨body, rfl, hbody⟩ := h
    apply withBlock_written (by rw [Stmt.sites]) (allSpell_written ih hbody)
    · exact fun l hl => by simp [hl]
    · exact List.forall_mem_nil _
    · exact List.forall_mem_singleton.mpr fun l hl => by simp [hl]
  | for_ p var start stop q ss ih =>
    rw [Spells] at h
    obtain ⟨body, rfl, hbody⟩ := h
    apply withBlock_written (by rw [Stmt.sites]) (allSpell_written ih hbody)
    · exact fun l hl => by simp [hl]
    · exact List.forall_mem_singleton.mpr (by simp)
    · intro e he l hl
      simp only [heads, List.mem_cons, List.not_mem_nil, or_false] at he
      obtain rfl | rfl := he <;> simp [hl]
  | fn p name params q ss ih =>
    rw [Spells] at h
    obtain ⟨-, body, rfl, hbody⟩ := h
    apply withBlock_written (by rw [Stmt.sites]) (allSpell_written ih hbody)
    · exact fun l hl => by simp [hl]
    · refine List.forall_mem_cons.mpr ⟨by simp, List.forall_mem_map.mpr ?_⟩
      exact fun param hparam => by simp [mem_paramLexemes hparam]
    · exact List.forall_mem_nil _
  | return_ p value =>
    cases value with
    | none =>
      rw [Spells] at h
      obtain ⟨-, rfl⟩ := h
      exact ⟨List.subset_cons_self _ _,
        ownSites_written (List.forall_mem_nil _) (List.forall_mem_nil _)⟩
    | some e =>
      rw [Spells] at h
      subst h
      refine ⟨fun l hl => by simp [hl], ownSites_written (List.forall_mem_nil _) ?_⟩
      exact List.forall_mem_singleton.mpr fun l hl => by simp [hl]

end Stmt

/-- **What stands at the sites of a program is written in its text.** -/
theorem Program.written {p : Program} {ls : List Lexeme} (h : p.Spells ls) :
    ∀ site ∈ p.sites, site.node.lexemes ⊆ ls := by
  obtain ⟨-, hall⟩ := Stmt.allSpell_written (fun s _ => s.written) h
  exact (forall_sitesAfter (P := fun n => n.lexemes ⊆ ls)).mpr hall

end Lumen
