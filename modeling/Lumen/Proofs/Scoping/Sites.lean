/-
  Lumen.Proofs.Scoping.Sites — what is known at each place of a program.

  A site is an expression or a statement at any depth of a program, with what stands
  around it: the open blocks from the inside outwards, and the statements at top level
  before the one it belongs to.  From the text alone it can be told what the types of
  names are there, and which functions can be called: those that were completed at top
  level before.  A function is not known in its own body, and none that is defined in
  a block is ever known.

  A walk over a program comes to every site in an environment that agrees with this.
  So if the walk succeeds, then all calls are right at their sites; and if it reports
  an error, then some site violates a rule there, unless a function is defined twice
  or a binding refuses a value.

  Main statements:
    * `Site`, `Stmt.sites`, `Program.sites` — what there is at any depth;
    * `Site.env`, `Site.functions` — what is known there;
    * `Env.Matches.opened` … `Env.Matches.enact` — what a block is like, step by step;
    * `Stmt.check_walked` / `checkBlock_walked` — walks over statements and blocks;
    * `Program.check_sites` — a walk over a program.
-/
import Lumen.Proofs.Checking.Culprits
import Lumen.Proofs.Scoping.TopLevel

namespace Lumen

/-! ## §1. Sites -/

/-- What can violate a rule: an expression, or a statement by itself. -/
inductive Node where
  | expr (e : Expr)
  | stmt (s : Stmt)

/-- A node with the blocks that are open around it, and with the statements at top
    level before. -/
structure Site where
  node : Node
  around : List OpenBlock := []
  above : List Stmt := []

namespace Site

/-- A site, seen from outside a block that it stands in. -/
def inside (b : OpenBlock) (s : Site) : Site := { s with around := s.around ++ [b] }

/-- A site in a statement that comes after others at top level. -/
def after (above : List Stmt) (s : Site) : Site := { s with above }

end Site

/-- The expressions of a statement that stand outside of its blocks. -/
def Stmt.heads : Stmt → List Expr
  | expr _ e | print _ e | let_ _ _ _ e | if_ _ e _ _ | while_ _ e _ | return_ _ (some e) => [e]
  | assign _ _ indices value => indices ++ [value]
  | for_ _ _ start stop _ => [start, stop]
  | fn _ _ _ _ | return_ _ none => []

theorem Expr.partsOf_singleton (e : Expr) : Expr.partsOf [e] = e.parts := List.append_nil _

theorem Expr.partsOf_append (es es' : List Expr) :
    Expr.partsOf (es ++ es') = Expr.partsOf es ++ Expr.partsOf es' := by
  rw [partsOf_eq_flatMap, partsOf_eq_flatMap, partsOf_eq_flatMap, List.flatMap_append]

/-- A statement and the parts of its expressions, without what is in its blocks. -/
def Stmt.ownSites (s : Stmt) : List Site :=
  { node := .stmt s } :: (Expr.partsOf s.heads).map fun e => { node := .expr e }

mutual
/-- The sites in a statement, each with the blocks of the statement around it. -/
def Stmt.sites : Stmt → List Site
  | s@(.if_ _ _ (.mk _ ss) none) => s.ownSites ++ sitesIn [] [] ss
  | s@(.if_ _ _ (.mk _ ss) (some (.mk _ others))) =>
    s.ownSites ++ (sitesIn [] [] ss ++ sitesIn [] [] others)
  | s@(.while_ _ _ (.mk _ ss)) => s.ownSites ++ sitesIn [] [] ss
  | s@(.for_ _ var _ _ (.mk _ ss)) => s.ownSites ++ sitesIn [⟨var, .int⟩] [] ss
  | s@(.fn _ _ params (.mk _ ss)) => s.ownSites ++ sitesIn params [] ss
  | s@(.expr _ _) | s@(.assign _ _ _ _) | s@(.let_ _ _ _ _) | s@(.print _ _)
  | s@(.return_ _ _) => s.ownSites

/-- The sites in the statements that come after `before` in a block. -/
def sitesIn (locals : List Param) (before : List Stmt) : List Stmt → List Site
  | [] => []
  | s :: rest => s.sites.map (Site.inside ⟨locals, before⟩) ++ sitesIn locals (before ++ [s]) rest
end

/-- The sites in the statements that come after others at top level. -/
def sitesAfter (above : List Stmt) : List Stmt → List Site
  | [] => []
  | s :: rest => s.sites.map (Site.after above) ++ sitesAfter (above ++ [s]) rest

theorem Stmt.ownSites_subset (s : Stmt) : s.ownSites ⊆ s.sites := by
  cases s with
  | if_ p cond b else_ =>
    obtain ⟨q, ss⟩ := b
    cases else_ with
    | none => exact List.subset_append_left _ _
    | some b =>
      obtain ⟨q', others⟩ := b
      exact List.subset_append_left _ _
  | while_ _ _ b | for_ _ _ _ _ b | fn _ _ _ b =>
    obtain ⟨q, ss⟩ := b
    exact List.subset_append_left _ _
  | _ => exact List.Subset.refl _

/-- The sites in a program. -/
def Program.sites (p : Program) : List Site := sitesAfter [] p

/-! ## §2. What is known at a site -/

/-- The variable that a statement declares when it is complete. -/
def Stmt.introduced? : Stmt → Option Param
  | let_ _ name type _ => some ⟨name, type⟩
  | _ => none

/-- The variables of an open block. -/
def OpenBlock.variables (b : OpenBlock) : List Param :=
  b.locals ++ b.before.filterMap Stmt.introduced?

namespace Env

/-- Declares a variable of which nothing but the type is known. -/
def introduce (env : Env) (p : Param) : Env :=
  { env with scopes := env.scopes.define p.name ⟨p.type, .unknown⟩ }

/-- What is known in a block that is opened. -/
def opened (env : Env) (b : OpenBlock) : Env := b.variables.foldl introduce env.push

/-- What is known after some statements at top level. -/
def afterTop (above : List Stmt) : Env where
  scopes := ((above.filterMap Stmt.introduced?).foldl introduce .empty).scopes
  functions := above.filterMap Stmt.signature?

end Env

namespace Site

/-- The functions that were completed at top level before a site. -/
def functions (s : Site) : List Signature := s.above.filterMap Stmt.signature?

/-- What is known at a site if `env` is known outside of the blocks around it. -/
def envIn (s : Site) (env : Env) : Env := s.around.foldr (fun b env => env.opened b) env

/-- What is known at a site of a program. -/
def env (s : Site) : Env := s.envIn (.afterTop s.above)

theorem envIn_inside (b : OpenBlock) (s : Site) (env : Env) :
    (s.inside b).envIn env = s.envIn (env.opened b) := by
  unfold envIn inside
  rw [List.foldr_append]
  rfl

end Site

/-- What the rule of a node reports. -/
def Node.Violates (env : Env) : Node → ParseError → Prop
  | expr e, err => e.Violates env err
  | stmt s, err => s.Violates env err

/-- A node that is an expression is right as a call. -/
def Node.CallsRight (env : Env) : Node → Prop
  | expr e => e.CallsRight env
  | stmt _ => True

theorem Node.Violates.congr {a b : Env} (h : a.Agrees b) {n : Node} {err : ParseError}
    (hviolates : n.Violates a err) : n.Violates b err := by
  cases n with
  | expr e => exact Expr.Violates.congr h hviolates
  | stmt s => exact Stmt.Violates.congr h hviolates

theorem Node.CallsRight.congr {a b : Env} (h : a.Agrees b) {n : Node} (hright : n.CallsRight a) :
    n.CallsRight b := by
  cases n with
  | expr e => exact Expr.CallsRight.congr h hright
  | stmt s => exact trivial

/-! ## §3. Environments that match -/

namespace Env

theorem layers_introduce (env : Env) (p : Param) : (env.introduce p).layers
    = env.layers.modifyHead fun layer => Function.update layer p.name (some p.type) :=
  env.scopes.layers_define p.name ⟨p.type, .unknown⟩

@[simp] theorem functions_introduceAll (env : Env) (ps : List Param) :
    (ps.foldl introduce env).functions = env.functions := by
  induction ps generalizing env with
  | nil => rfl
  | cons p rest ih => exact ih (env.introduce p)

/-- Variables of which nothing is known are never refused. -/
theorem declareAll_eq (env : Env) (ps : List Param) :
    env.declareAll ps = .ok (ps.foldl introduce env) := by
  unfold declareAll
  induction ps generalizing env with
  | nil => rfl
  | cons p rest ih =>
    -- a variable of which nothing is known fits every type
    have hfirst : env.declare p.name p.type .unknown = .ok (env.introduce p) := by
      unfold declare
      rw [Value.misfit?_unknown]
      rfl
    rw [List.foldlM_cons, hfirst]
    exact ih (env.introduce p)

/-- A block that is opened adds one layer. -/
theorem tail_layers_opened (env : Env) (b : OpenBlock) :
    (env.opened b).layers.tail = env.layers := by
  -- its variables go to the innermost layer, which is the one left out
  have hall : ∀ (ps : List Param) (env : Env),
      (ps.foldl introduce env).layers.tail = env.layers.tail := by
    intro ps
    induction ps with
    | nil => exact fun _ => rfl
    | cons p rest ih =>
      intro env
      rw [List.foldl_cons, ih, layers_introduce, List.tail_modifyHead]
  exact hall b.variables env.push

namespace Matches

variable {a b : Env}

theorem introduce (h : a.Matches b) (p : Param) : (a.introduce p).Matches (b.introduce p) where
  functions_eq := h.functions_eq
  layers_eq := by rw [layers_introduce, layers_introduce, h.layers_eq]

theorem introduceAll (h : a.Matches b) (ps : List Param) :
    (ps.foldl Env.introduce a).Matches (ps.foldl Env.introduce b) := by
  induction ps generalizing a b with
  | nil => exact h
  | cons p rest ih => exact ih (h.introduce p)

theorem push (h : a.Matches b) : a.push.Matches b.push where
  functions_eq := h.functions_eq
  layers_eq := congrArg ((fun _ => none) :: ·) h.layers_eq

theorem opened (h : a.Matches b) (block : OpenBlock) :
    (a.opened block).Matches (b.opened block) := h.push.introduceAll block.variables

theorem envIn (h : a.Matches b) (s : Site) : (s.envIn a).Matches (s.envIn b) := by
  unfold Site.envIn
  induction s.around with
  | nil => exact h
  | cons block rest ih => exact ih.opened block

theorem declare (h : a.Matches b) {a' : Env} {name : Bytes} {type : Ty} {value : Value}
    (ha' : a.declare name type value = .ok a') : a'.Matches (b.introduce ⟨name, type⟩) where
  functions_eq := by
    obtain ⟨-, rfl⟩ := declare_eq_ok ha'
    exact h.functions_eq
  layers_eq := by rw [layers_declare ha', layers_introduce, h.layers_eq]

/-- A block is left for what was there before it. -/
theorem pop_opened {block : OpenBlock} (h : a.Matches (b.opened block)) :
    ∃ outer, a.pop = .ok outer ∧ outer.Matches b := by
  have htail : a.layers.tail = b.layers := by rw [h.layers_eq, tail_layers_opened]
  obtain ⟨outer, hpop⟩ := exists_pop (htail.symm ▸ b.layers_ne_nil)
  refine ⟨outer, hpop, ?_, ?_⟩
  · rw [← (pop_eq_ok_iff.mp hpop).2, h.functions_eq]
    exact functions_introduceAll b.push block.variables
  · rw [← layers_pop hpop, htail]

/-- What a completed statement introduces is known after it. -/
theorem enact (h : a.Matches b) (s : Stmt) :
    Gives (a.enact s) (fun a' => a'.Matches (s.introduced?.toList.foldl Env.introduce b))
      fun e => e.isRefused = true := by
  cases s with
  | let_ p name type init =>
    show Gives (a.declare name type init.constant) _ _
    apply (gives_self ?_).weaken
    · exact fun a' ha' => h.declare ha'
    · intro e he
      unfold Env.declare at he
      split at he
      · cases he
        rfl
      · cases he
  | _ => exact h

end Matches

/-- A block with one more statement. -/
theorem opened_snoc (env : Env) (locals : List Param) (before : List Stmt) (s : Stmt) :
    env.opened ⟨locals, before ++ [s]⟩
      = s.introduced?.toList.foldl introduce (env.opened ⟨locals, before⟩) := by
  unfold opened OpenBlock.variables
  rw [List.filterMap_append, ← List.append_assoc, List.foldl_append]
  rfl

/-- A block in which no statement has been completed. -/
theorem opened_nil (env : Env) (locals : List Param) :
    env.opened ⟨locals, []⟩ = locals.foldl introduce env.push := by
  unfold opened OpenBlock.variables
  rw [List.filterMap_nil, List.append_nil]

end Env

/-! ## §4. Walks -/

/-- Whether a class of failures has whatever some sites report, and all refusals. -/
structure Reports (E : Failure → Prop) (env : Env) (sites : List Site) : Prop where
  violations : ∀ s ∈ sites, ∀ err, s.node.Violates (s.envIn env) err → E (.error err)
  refusals : ∀ err : ParseError, err.isRefused = true → E (.error err)

/-- A walk finds all calls at some sites right and leaves what was known, or it gives
    a failure in `E`. -/
def Walked (E : Failure → Prop) (env : Env) (sites : List Site) (r : Except Failure Env) : Prop :=
  Gives r (fun env' => env'.Matches env ∧ ∀ s ∈ sites, s.node.CallsRight (s.envIn env)) E

section
variable {E : Failure → Prop} {env ref : Env} {us vs : List Site}

theorem Reports.mono (h : Reports E env vs) (hsub : us ⊆ vs) : Reports E env us where
  violations s hs := h.violations s (hsub hs)
  refusals := h.refusals

/-- Where the same is known, the same is reported. -/
theorem Reports.congr (h : Reports E ref us) (hmatches : env.Matches ref) : Reports E env us where
  violations s hs err herr := h.violations s hs err (herr.congr (hmatches.envIn s).agrees)
  refusals := h.refusals

/-- The sites of a statement, seen from within the block and from outside. -/
theorem Reports.inside {b : OpenBlock} (h : Reports E ref (us.map (Site.inside b))) :
    Reports E (ref.opened b) us where
  violations s hs err herr := by
    apply h.violations (s.inside b) (List.mem_map_of_mem hs) err
    rw [Site.envIn_inside]
    exact herr
  refusals := h.refusals

theorem walked_ok (env : Env) : Walked E env [] (.ok env) := ⟨.refl env, List.forall_mem_nil _⟩

/-- One walk after another. -/
theorem Walked.bind {r : Except Failure Env} {k : Env → Except Failure Env}
    (h : Walked E env us r) (hk : ∀ env', env'.Matches env → Walked E env' vs (k env')) :
    Walked E env (us ++ vs) (r >>= k) := by
  apply Gives.bind h
  rintro env₁ ⟨hmatches, hright⟩
  apply (hk env₁ hmatches).weaken
  rintro env₂ ⟨hmatches', hright'⟩
  refine ⟨hmatches'.trans hmatches, List.forall_mem_append.mpr ⟨hright, ?_⟩⟩
  exact fun s hs => (hright' s hs).congr (hmatches.envIn s).agrees

/-- A walk after a check, which is made at the head of a statement. -/
theorem Walked.check_bind {α : Type} {r : Except ParseError α} {k : Except Failure Env} {s : Stmt}
    (hr : Gives r (fun _ => ∀ part ∈ Expr.partsOf s.heads, part.CallsRight env)
      fun err => E (.error err))
    (hk : Walked E env us k) : Walked E env (s.ownSites ++ us) (orFail r >>= fun _ => k) := by
  apply (gives_orFail.mpr hr).bind
  intro _ hheads
  apply hk.weaken
  rintro env' ⟨hmatches, hright⟩
  refine ⟨hmatches, List.forall_mem_append.mpr ⟨List.forall_mem_cons.mpr ⟨trivial, ?_⟩, hright⟩⟩
  exact List.forall_mem_map.mpr hheads

/-- A statement that is nothing but a check. -/
theorem Walked.of_check {α : Type} {r : Except ParseError α} {s : Stmt}
    (hr : Gives r (fun _ => ∀ part ∈ Expr.partsOf s.heads, part.CallsRight env)
      fun err => E (.error err)) : Walked E env s.ownSites (orFail r >>= fun _ => .ok env) := by
  have hcheck := Walked.check_bind hr (walked_ok (E := E) env)
  rwa [List.append_nil] at hcheck

/-- The expressions at the head of a statement are examined. -/
theorem Reports.head {s : Stmt} (h : Reports E env s.sites) {e : Expr} (he : e ∈ s.heads) :
    Examined env (fun err => E (.error err)) e := by
  apply examined
  intro part hpart err herr
  refine h.violations { node := .expr part } (s.ownSites_subset ?_) err herr
  apply List.mem_cons_of_mem
  apply List.mem_map_of_mem
  rw [Expr.partsOf_eq_flatMap]
  exact List.mem_flatMap.mpr ⟨e, he, hpart⟩

/-- What the rule of a statement reports is reported. -/
theorem Reports.own {s : Stmt} (h : Reports E env s.sites) {err : ParseError}
    (herr : s.Violates env err) : E (.error err) :=
  h.violations { node := .stmt s } (s.ownSites_subset List.mem_cons_self) err herr

/-- The condition of a statement is examined, and the statement's own rule says that it
    is a truth value. -/
theorem Reports.condition {s : Stmt} {cond : Expr} (h : Reports E env s.sites)
    (hheads : s.heads = [cond])
    (hown : ∀ t, infer env cond = .ok (some t) → t ≠ .bool →
      s.Violates env (.mismatch [] (.type .bool) (cond.ungrouped.got t) cond.pos)) :
    Gives (env.checkTruth cond) (fun _ => ∀ part ∈ Expr.partsOf s.heads, part.CallsRight env)
      fun err => E (.error err) := by
  have hcond : cond ∈ s.heads := hheads ▸ List.mem_singleton_self cond
  rw [hheads, Expr.partsOf_singleton]
  exact checkTruth_examined (h.head hcond) fun t ht hne => h.own (hown t ht hne)

/-! ## §5. Blocks and statements -/

/-- The statements of a block, each of which takes effect before the next. -/
theorem checkStmts_walked {ss : List Stmt}
    (hss : ∀ s ∈ ss, ∀ env, Reports E env s.sites → Walked E env s.sites (s.check env))
    {locals : List Param} {before : List Stmt} (h : env.Matches (ref.opened ⟨locals, before⟩))
    (hreports : Reports E ref (sitesIn locals before ss)) :
    Walked E ref (sitesIn locals before ss) (checkStmts env ss >>= Env.pop) := by
  induction ss generalizing env before with
  | nil =>
    obtain ⟨outer, hpop, hmatches⟩ := h.pop_opened
    show Walked E ref [] env.pop
    rw [hpop]
    exact ⟨hmatches, List.forall_mem_nil _⟩
  | cons s rest ih =>
    obtain ⟨hhead, htail⟩ := List.forall_mem_cons.mp hss
    rw [sitesIn] at hreports ⊢
    -- the sites of a statement see what stands around the block
    have hfirst : Reports E env s.sites :=
      (hreports.mono (List.subset_append_left _ _)).inside.congr h
    rw [checkStmts, bind_assoc]
    apply Gives.bind (hhead env hfirst)
    rintro env₁ ⟨hmatches, hright⟩
    rw [bind_assoc]
    -- what the statement introduces is known to those after it
    have henacts := ((hmatches.trans h).enact s).mono (fun _ h => h) hreports.refusals
    apply (gives_orFail.mpr henacts).bind
    intro env₂ henact
    rw [← Env.opened_snoc] at henact
    apply (ih htail henact (hreports.mono (List.subset_append_right _ _))).weaken
    rintro outer ⟨hmatches', hrest⟩
    refine ⟨hmatches', List.forall_mem_append.mpr ⟨List.forall_mem_map.mpr ?_, hrest⟩⟩
    intro site hsite
    rw [Site.envIn_inside]
    exact (hright site hsite).congr (h.envIn site).agrees

/-- A block in a scope of its own. -/
theorem checkBlock_walked {ss : List Stmt}
    (hss : ∀ s ∈ ss, ∀ env, Reports E env s.sites → Walked E env s.sites (s.check env))
    {locals : List Param} (hreports : Reports E env (sitesIn locals [] ss)) :
    Walked E env (sitesIn locals [] ss)
      (orFail (env.push.declareAll locals) >>= fun inside => checkStmts inside ss >>= Env.pop) := by
  rw [Env.declareAll_eq, ← Env.opened_nil]
  exact checkStmts_walked hss (.refl _) hreports

/-- A statement leaves what was known before it, and all calls in it are right; or what
    is reported is a rule that some site violates. -/
theorem Stmt.check_walked (s : Stmt) (env : Env) (h : Reports E env s.sites) :
    Walked E env s.sites (s.check env) := by
  induction s generalizing env with
  | expr p e | print p e =>
    rw [Stmt.sites, Stmt.check]
    apply Walked.of_check
    rw [Stmt.heads, Expr.partsOf_singleton]
    exact (h.head (List.mem_singleton_self e)).infers
  | assign p name indices value =>
    have hindices : ∀ e ∈ indices, Examined env (fun err => E (.error err)) e := fun e he =>
      h.head (List.mem_append_left _ he)
    have hvalue : Examined env (fun err => E (.error err)) value :=
      h.head (List.mem_append_right _ (List.mem_singleton_self value))
    rw [Stmt.sites, Stmt.check]
    apply (gives_orFail.mpr (store_examined hindices hvalue (fun err => h.own) h.refusals)).weaken
    rintro env' ⟨hmatches, hright⟩
    refine ⟨hmatches, List.forall_mem_cons.mpr ⟨trivial, List.forall_mem_map.mpr ?_⟩⟩
    rw [Stmt.heads, Expr.partsOf_append, Expr.partsOf_singleton]
    exact hright
  | let_ p name type init =>
    rw [Stmt.sites, Stmt.check]
    apply Walked.of_check
    rw [Stmt.heads, Expr.partsOf_singleton]
    exact checkType_examined (h.head (List.mem_singleton_self init)) fun err herr =>
      h.own (.init herr)
  | if_ p cond q ss else_ ihs ihelse =>
    have hcond := h.condition rfl fun t ht hne => .ifTruth ht hne
    cases else_ with
    | none =>
      rw [Stmt.sites] at h ⊢
      rw [Stmt.check]
      exact .check_bind hcond (checkBlock_walked ihs (h.mono (List.subset_append_right _ _)))
    | some b =>
      obtain ⟨q', others⟩ := b
      rw [Stmt.sites] at h ⊢
      rw [Stmt.check]
      have hblocks := h.mono (List.subset_append_right _ _)
      -- the second block starts from what the first one leaves
      have hboth := (checkBlock_walked ihs (hblocks.mono (List.subset_append_left _ _))).bind
        fun env' hmatches => checkBlock_walked (ihelse _ rfl)
          ((hblocks.mono (List.subset_append_right _ _)).congr hmatches)
      simp only [bind_assoc] at hboth
      exact .check_bind hcond hboth
  | while_ p cond q ss ih =>
    have hcond := h.condition rfl fun t ht hne => .whileTruth ht hne
    rw [Stmt.sites] at h ⊢
    rw [Stmt.check]
    exact .check_bind hcond (checkBlock_walked ih (h.mono (List.subset_append_right _ _)))
  | for_ p var start stop q ss ih =>
    have hbounds : Gives (env.checkBounds var start stop)
        (fun _ => ∀ part ∈ Expr.partsOf (Stmt.for_ p var start stop (.mk q ss)).heads,
          part.CallsRight env) fun err => E (.error err) := by
      rw [Stmt.heads, Expr.partsOf, Expr.partsOf_singleton]
      exact checkBounds_examined (h.head List.mem_cons_self)
        (h.head (List.mem_cons_of_mem _ List.mem_cons_self)) fun e err he herr =>
          h.own (.bound he herr)
    rw [Stmt.sites] at h ⊢
    rw [Stmt.check]
    exact .check_bind hbounds (checkBlock_walked ih (h.mono (List.subset_append_right _ _)))
  | fn p name params q ss ih =>
    rw [Stmt.sites] at h ⊢
    rw [Stmt.check]
    apply (checkBlock_walked ih (h.mono (List.subset_append_right _ _))).weaken
    rintro env' ⟨hmatches, hright⟩
    exact ⟨hmatches, List.forall_mem_append.mpr ⟨List.forall_mem_singleton.mpr trivial, hright⟩⟩
  | return_ p value =>
    rw [Stmt.sites]
    cases value with
    | none =>
      rw [Stmt.check]
      exact ⟨.refl env, List.forall_mem_singleton.mpr trivial⟩
    | some e =>
      rw [Stmt.check]
      apply Walked.of_check
      rw [Stmt.heads, Expr.partsOf_singleton]
      exact (h.head (List.mem_singleton_self e)).infers

/-! ## §6. Programs -/

/-- After one more statement at top level. -/
theorem Env.afterTop_snoc (above : List Stmt) (s : Stmt) :
    Env.afterTop (above ++ [s]) =
      { s.introduced?.toList.foldl introduce (.afterTop above) with
        functions := above.filterMap Stmt.signature? ++ s.signature?.toList } := by
  unfold afterTop
  rw [List.filterMap_append, List.filterMap_append, List.foldl_append]
  cases s <;> rfl

/-- What a completed statement at top level adds is known after it; or its name is taken,
    or the binding refuses the value. -/
theorem Env.Matches.enactTop {above : List Stmt} (h : env.Matches (.afterTop above)) (s : Stmt) :
    Gives (env.enactTop s) (fun env' => env'.Matches (.afterTop (above ++ [s])))
      fun e => e.isRefused = true
        ∨ ∃ f pos, s.signature? = some f ∧ e = .duplicateFunction f.name pos := by
  -- only a function adds more at top level than it would in a block
  have hnofn : s.signature? = none → Gives (env.enact s)
      (fun env' => env'.Matches (.afterTop (above ++ [s])))
      fun e => e.isRefused = true
        ∨ ∃ f pos, s.signature? = some f ∧ e = .duplicateFunction f.name pos := by
    intro hs
    apply (h.enact s).mono
    · intro env' hmatches
      refine ⟨?_, ?_⟩
      · rw [hmatches.functions_eq, functions_introduceAll, afterTop_snoc, hs]
        exact (List.append_nil _).symm
      · rw [hmatches.layers_eq, afterTop_snoc]
        rfl
    · exact fun e he => .inl he
  cases s with
  | fn p name params body =>
    show Gives (env.register ⟨name, params, some body⟩ p) _ _
    unfold Env.register
    split
    · exact .inr ⟨_, _, rfl, rfl⟩
    · refine ⟨?_, ?_⟩
      · rw [afterTop_snoc]
        exact congrArg (· ++ [⟨name, params, some body⟩]) h.functions_eq
      · rw [afterTop_snoc]
        exact h.layers_eq
  | _ => exact hnofn rfl

/-- A walk over the statements that come after others at top level. -/
theorem Program.check_walked {above : List Stmt} (h : env.Matches (.afterTop above)) (p : Program)
    (hreports : ∀ s ∈ sitesAfter above p, ∀ err, s.node.Violates s.env err → E (.error err))
    (hrefused : ∀ err : ParseError, err.isRefused = true → E (.error err))
    (htaken : ∀ s ∈ p, ∀ f pos, s.signature? = some f →
      E (.error (.duplicateFunction f.name pos))) :
    Gives (Program.check env p) (fun _ => ∀ s ∈ sitesAfter above p, s.node.CallsRight s.env) E := by
  induction p generalizing env above with
  | nil => exact List.forall_mem_nil _
  | cons s rest ih =>
    rw [sitesAfter, List.forall_mem_append, List.forall_mem_map] at hreports
    obtain ⟨hown, htail⟩ := List.forall_mem_cons.mp htaken
    have hsites : Reports E (.afterTop above) s.sites := ⟨hreports.1, hrefused⟩
    unfold Program.check
    rw [List.foldlM_cons, bind_assoc]
    apply Gives.bind (s.check_walked env (hsites.congr h))
    rintro env₁ ⟨hmatches, hright⟩
    -- its name may be taken, or its binding refuse the value
    have henact : Gives (env₁.enactTop s) (fun env' => env'.Matches (.afterTop (above ++ [s])))
        fun e => E (.error e) := by
      apply ((hmatches.trans h).enactTop s).mono (fun _ h => h)
      rintro e (he | ⟨f, pos, hf, rfl⟩)
      · exact hrefused e he
      · exact hown f pos hf
    apply (gives_orFail.mpr henact).bind
    intro env₂ hmatches₂
    apply (ih hmatches₂ hreports.2 htail).weaken
    intro _ hrest
    rw [sitesAfter, List.forall_mem_append, List.forall_mem_map]
    exact ⟨fun site hsite => (hright site hsite).congr (h.envIn site).agrees, hrest⟩

end

/-- If a walk over a program succeeds, then all calls in it are right; if it fails, then
    some site violates a rule, unless a function is defined twice or a binding refuses a
    value. -/
theorem Program.check_sites (p : Program) :
    Gives (Program.check .empty p) (fun _ => ∀ s ∈ p.sites, s.node.CallsRight s.env)
      fun f => ∃ err, f = .error err ∧ (err.isRefused = true
        ∨ (∃ name pos, err = .duplicateFunction name pos)
        ∨ ∃ s ∈ p.sites, s.node.Violates s.env err) :=
  Program.check_walked (.refl .empty) p
    (fun s hs err herr => ⟨err, rfl, .inr (.inr ⟨s, hs, herr⟩)⟩)
    (fun err herr => ⟨err, rfl, .inl herr⟩)
    fun _ _ f pos _ => ⟨_, rfl, .inr (.inl ⟨f.name, pos, rfl⟩)⟩

end Lumen
