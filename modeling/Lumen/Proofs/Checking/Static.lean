/-
  Lumen.Proofs.Checking.Static — what the checks of a program report.

  The two judgements compare types, and look up names and functions; whatever
  they object to is found in the text, so it is a static error.  A refusal of a
  binding is not one of them.

  Main statements:
    * `judged_static` — the law of the judgements, with nothing asked of uses;
    * `infer_static` / `checkAgainst_static` — both judgements report static errors
      only;
    * `Env.checkTruth_static` / `Env.checkBounds_static` — so do conditions and
      bounds.
-/
import Lumen.Proofs.Checking.Judged

namespace Lumen

/-! ## §1. Static errors -/

/-- Whether an error is one that the checks of names and types report. -/
def ParseError.isStatic : ParseError → Bool
  | undeclared _ _ | mismatch _ _ _ _ | duplicateFunction _ _ | arity _ _ _ _ => true
  | _ => false

/-- Whether an error is a binding's refusal of a value. -/
def ParseError.isRefused : ParseError → Bool
  | refused _ _ _ => true
  | _ => false

/-- A run that ended with a static error. -/
def Failure.isStatic : Failure → Bool
  | error e => e.isStatic
  | _ => false

/-- A check gives a value in `Q` or a static error. -/
abbrev GivesStatic {α : Type} (r : Except ParseError α) (Q : α → Prop) : Prop :=
  Gives r Q fun e => e.isStatic = true

/-! ## §2. The two judgements -/

theorem blames_static (pos : Pos) : Blames (fun e => e.isStatic = true) pos :=
  ⟨fun _ _ _ => rfl, fun _ _ _ => rfl⟩

theorem Env.typeOf_static (env : Env) (name : Bytes) (pos : Pos) :
    GivesStatic (env.typeOf name pos) fun t => ∃ b, env.lookup? name = some b ∧ b.type = t :=
  env.typeOf_gives name pos fun _ => rfl

/-- Nothing is asked of the uses in an expression. -/
theorem judged_static (env : Env) (e : Expr) :
    Judged env (fun _ => True) (fun e => e.isStatic = true) e :=
  judged (fun part _ => blames_static part.pos) fun u _ =>
    (env.typeOf_static u.name u.pos).weaken fun _ _ => trivial

theorem infer_static (env : Env) (e : Expr) : GivesStatic (infer env e) fun _ => True :=
  (judged_static env e).infers.weaken fun _ _ => trivial

theorem inferIndices_static (env : Env) (pos : Pos) (t : Option Ty) (es : List Expr) :
    GivesStatic (inferIndices env pos t es) fun _ => True :=
  (inferIndices_judged (blames_static pos) fun e _ => judged_static env e).weaken
    fun _ _ => trivial

theorem checkAgainst_static (env : Env) (declared : Ty) (name : Bytes) (pos : Pos) (e : Expr) :
    GivesStatic (checkAgainst env declared name pos e) fun _ => True :=
  ((judged_static env e).checks declared name pos (blames_static pos)).weaken fun _ _ => trivial

/-! ## §3. The checks of single statements -/

theorem Env.checkTruth_static (env : Env) (cond : Expr) :
    GivesStatic (env.checkTruth cond) fun _ => True :=
  (checkTruth_judged (judged_static env cond)).weaken fun _ _ => trivial

theorem Env.checkBounds_static (env : Env) (var : Bytes) (start stop : Expr) :
    GivesStatic (env.checkBounds var start stop) fun _ => True :=
  (checkBounds_judged (judged_static env start) (judged_static env stop) var).weaken
    fun _ _ => trivial

end Lumen
