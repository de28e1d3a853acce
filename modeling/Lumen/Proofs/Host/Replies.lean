/-
  Lumen.Proofs.Host.Replies — a host is told the same, whatever it asks for.

  A run on a source text can end in two ways only.  It finds a program, or it finds
  an error in the text, and that error has a place there.  Nothing else goes
  wrong: scopes are closed as often as they are opened, tokens are there when they
  are read, and steps do not run out.

  So the three queries agree on the code, and on the diagnostic if there is one.
  What they give for a program is the program itself, and its functions are those
  nodes of it that are functions.

  Main statements:
    * `read_placed` — a text has a program or an error with a place;
    * `repaired_symbols` — the functions of a program are nodes of it;
    * `queries_agree` — the three queries, on any text in any environment.
-/
import Mathlib.Data.List.Basic
import Lumen.Host
import Lumen.Proofs.Checking.Located
import Lumen.Proofs.Encoding.Wording
import Lumen.Proofs.Scoping.TopLevel

namespace Lumen

namespace Host

/-! ## §1. Errors have places -/

/-- The place of a problem, if it is one of the text and has a place. -/
def Problem.place? : Problem → Option Pos
  | lexical e => some e.pos
  | failed (.error e) => e.pos?
  | failed _ => none

/-- With checking or without, a source text has a program or an error with a place. -/
theorem read_placed (o : Options) (source : Bytes) :
    Gives (read o source).1 (fun _ => True) fun problem =>
      ∃ p, problem.place? = some p ∧ p.IsProper := by
  have hplaced := tokenize_placed source
  unfold read tokenizeTraced
  cases htokens : tokenize source with
  | error e => exact ⟨e.pos, rfl, hplaced.of_error htokens⟩
  | ok tokens =>
    have hstart : Placed Pos.IsProper tokens := hplaced.of_ok htokens
    dsimp only [Except.map]
    split
    · exact trivial
    · next f s hrun =>
      have hcases := (Parse.program_error_cases o tokens _).of_error hrun
      obtain ⟨hplaced, hmeets⟩ :=
        (Parse.program_blamed Parse.supplies_placed o _ hstart).of_error hrun
      cases f with
      | error e =>
        obtain ⟨t, hpos, ht⟩ :=
          Parse.exists_token_of_meets hplaced.1 hmeets (Parse.not_refused_of_cases hcases)
        refine ⟨t.pos, hpos, ?_⟩
        -- the token at the cursor, or one that was taken from the source earlier
        rcases ht with hcurrent | ⟨hproper, -⟩
        · exact hplaced.2 t (List.mem_of_mem_head? hcurrent)
        · exact hproper
      | _ => rcases hcases with h | h <;> cases h

/-! ## §2. Functions of a program -/

/-- The value of a field of an object. -/
def field? (key : String) : Json → Option Json
  | .obj fields => fields.lookup key
  | _ => none

/-- The name and the number of parameters of a node, if its kind is that of
    functions. -/
def functionOf? (node : Json) : Option Json :=
  match field? "kind" node, field? "name" node, field? "params" node with
  | some (.str kind), some name, some (.arr params) =>
    if kind == ascii "Fn" then some (.obj [("name", name), ("arity", .nat params.length)])
    else none
  | _, _, _ => none

theorem field?_repaired (key : String) (j : Json) :
    field? key j.repaired = (field? key j).map Json.repaired := by
  cases j with
  | obj fields =>
    show (Json.repairedFields fields).lookup key = (fields.lookup key).map Json.repaired
    induction fields with
    | nil => rfl
    | cons field rest ih =>
      obtain ⟨key', j⟩ := field
      rw [Json.repairedFields, List.lookup_cons, List.lookup_cons, ih]
      split <;> rfl
  | _ => rfl

/-- What has no parameters is no function. -/
theorem functionOf?_repaired_of_none {j : Json} (h : field? "params" j = none) :
    functionOf? j.repaired = none := by
  have hnone : field? "params" j.repaired = none := by rw [field?_repaired, h]; rfl
  unfold functionOf?
  rw [hnone]
  split
  · next heq => cases heq
  · rfl

/-- A statement's node is one of a function just if the statement defines one. -/
theorem functionOf?_repaired_toJson (s : Stmt) :
    functionOf? s.toJson.repaired = s.signature?.map fun f =>
      .obj [("name", .str (Utf8.repair f.name)), ("arity", .nat f.params.length)] := by
  cases s with
  | fn p name params b =>
    obtain ⟨q, ss⟩ := b
    have hkind : field? "kind" (Stmt.fn p name params (.mk q ss)).toJson
        = some (.str (ascii "Fn")) := rfl
    have hname : field? "name" (Stmt.fn p name params (.mk q ss)).toJson
        = some (.str name) := rfl
    have hparams : field? "params" (Stmt.fn p name params (.mk q ss)).toJson
        = some (.arr (params.map Json.ofParam)) := rfl
    -- the kind is told by a key that is plain text, and repair leaves it
    have hword : Utf8.repair (ascii "Fn") = ascii "Fn" := by decide +kernel
    unfold functionOf?
    rw [field?_repaired, field?_repaired, field?_repaired, hkind, hname, hparams]
    simp [Json.repaired, hword, Json.repairedItems_eq_map, Stmt.signature?]
  | if_ p cond b else_ =>
    obtain ⟨q, ss⟩ := b
    rcases else_ with _ | ⟨q', others⟩
    · exact functionOf?_repaired_of_none rfl
    · exact functionOf?_repaired_of_none rfl
  | while_ p cond b =>
    obtain ⟨q, ss⟩ := b
    exact functionOf?_repaired_of_none rfl
  | for_ p var start stop b =>
    obtain ⟨q, ss⟩ := b
    exact functionOf?_repaired_of_none rfl
  | return_ p value => cases value <;> exact functionOf?_repaired_of_none rfl
  | _ => exact functionOf?_repaired_of_none rfl

/-- The functions of a program are those nodes of it that are functions. -/
theorem repaired_symbols (p : Program) :
    ∃ nodes, p.toJson.repaired = .arr nodes
      ∧ (symbols p).repaired = .obj [("functions", .arr (nodes.filterMap functionOf?))] := by
  refine ⟨(p.map Stmt.toJson).map Json.repaired, ?_, ?_⟩
  · rw [Program.toJson, Json.repaired, Json.repairedItems_eq_map, stmtsToJson_eq_map]
  · unfold symbols
    rw [Json.repaired, Json.repairedFields, Json.repaired, Json.repairedItems_eq_map,
      List.map_filterMap, List.filterMap_map, List.filterMap_map, Json.repairedFields]
    refine congrArg (fun items => Json.obj [("functions", .arr items)]) ?_
    apply List.filterMap_congr
    intro s _
    show _ = functionOf? s.toJson.repaired
    rw [functionOf?_repaired_toJson]
    cases s <;> simp [Stmt.signature?, Json.repaired, Json.repairedFields, Json.nat]

/-! ## §3. The three queries -/

theorem repaired_diagnostics (kind : String) (message : Bytes) (pos : Pos)
    (hkind : (ascii kind).IsAscii) :
    (diagnostics [diagnostic kind message (some pos)]).repaired
      = diagnostics [diagnostic kind (Utf8.repair message) (some pos)] := by
  have hword : Utf8.repair (ascii kind) = ascii kind :=
    Utf8.repair_of_isWellFormed (Utf8.isWellFormed_of_isAscii hkind)
  simp [diagnostics, diagnostic, Json.repaired, Json.repairedFields, Json.repairedItems, Json.word,
    Json.nat, hword]

/-- On any text and in any environment the three queries agree.  Either there is a
    program, and a host takes back no diagnostics, or the nodes of the program, or
    the functions among these.  Or there is one diagnostic, with a line and a
    column, and it is the same for all three.  With checking or without, no run
    breaks off for a reason that does not lie in the text. -/
theorem queries_agree :
    (∀ (settings : List (Bytes × Bytes)) (source : Bytes),
      (∃ p nodes, (read (.ofEnvironment settings) (untilNul source)).1 = .ok p
          ∧ p.toJson.repaired = .arr nodes
          ∧ (∀ q, (answer settings q (some source) true true).code = codeOk
            ∧ (answer settings q (some source) true true).error = none)
          ∧ (answer settings .check (some source) true true).json = some (diagnostics [])
          ∧ (answer settings .program (some source) true true).json = some (.arr nodes)
          ∧ (answer settings .symbols (some source) true true).json
            = some (.obj [("functions", .arr (nodes.filterMap functionOf?))]))
        ∨ ∃ kind message pos, pos.IsProper
          ∧ ∀ q, (answer settings q (some source) true true).code = codeDiagnostics
            ∧ (answer settings q (some source) true true).error = none
            ∧ (answer settings q (some source) true true).json
              = some (diagnostics [diagnostic kind message (some pos)]))
      ∧ ∀ (o : Options) (text : Bytes), Gives (read o text).1 (fun _ => True) fun problem =>
          ∃ pos, problem.place? = some pos ∧ pos.IsProper := by
  refine ⟨?_, read_placed⟩
  intro settings source
  -- all three read the same text in the same way; only the reply differs
  have hanswer : ∀ q, answer settings q (some source) true true
      = reply q (read (.ofEnvironment settings) (untilNul source)) := fun _ => rfl
  have hplaced := read_placed (.ofEnvironment settings) (untilNul source)
  simp only [hanswer]
  revert hplaced
  generalize read (.ofEnvironment settings) (untilNul source) = outcome
  obtain ⟨result, trace⟩ := outcome
  intro hplaced
  cases result with
  | ok p =>
    obtain ⟨nodes, hnodes, hsymbols⟩ := repaired_symbols p
    refine .inl ⟨p, nodes, rfl, hnodes, fun q => ⟨rfl, rfl⟩, ?_, ?_, ?_⟩
    · show some (diagnostics []).repaired = _
      simp [diagnostics, Json.repaired, Json.repairedFields, Json.repairedItems]
    · exact congrArg some hnodes
    · exact congrArg some hsymbols
  | error problem =>
    obtain ⟨pos, hpos, hproper⟩ := hplaced
    cases problem with
    | lexical e =>
      obtain rfl : e.pos = pos := Option.some.inj hpos
      refine .inr ⟨e.kind.name, Utf8.repair e.message, e.pos, hproper, ?_⟩
      intro q
      exact ⟨rfl, rfl, congrArg some (repaired_diagnostics _ _ _ (LexErrorKind.isAscii_name _))⟩
    | failed f =>
      cases f with
      | error e =>
        have he : e.pos? = some pos := hpos
        refine .inr ⟨e.kindName, Utf8.repair e.message, pos, hproper, ?_⟩
        intro q
        refine ⟨rfl, rfl, congrArg some ?_⟩
        rw [he]
        exact repaired_diagnostics _ _ _ (ParseError.isAscii_kindName _)
      | _ => cases hpos

end Host
end Lumen
