/-
  Lumen.Proofs.Lexing.Placed — the places of tokens.

  A text is cut byte by byte, and each piece stands at the place that the bytes
  before it lead to.  So whatever holds of the start and is kept by every byte
  holds of the places of all tokens, and of the place of an error; and the last
  token, and no other before it, is the end.

  Main statements:
    * `tokensFrom_placed` — any property of places that bytes keep;
    * `tokenize_placed` — lines and columns count from 1.
-/
import Lumen.Token.Scan
import Lumen.Proofs.Checking.Judged

namespace Lumen

/-- Whether a place is one of a text: lines and columns count from 1. -/
def Pos.IsProper (p : Pos) : Prop := 1 ≤ p.line ∧ 1 ≤ p.col

theorem Pos.isProper_start : Pos.start.IsProper := ⟨Nat.le_refl 1, Nat.le_refl 1⟩

theorem Pos.IsProper.step {p : Pos} (h : p.IsProper) (b : UInt8) : (p.step b).IsProper := by
  unfold Pos.step
  split
  · exact ⟨Nat.le_succ_of_le h.1, Nat.le_refl 1⟩
  · exact ⟨h.1, Nat.le_succ_of_le h.2⟩

theorem Pos.IsProper.right {p : Pos} (h : p.IsProper) : p.right.IsProper :=
  ⟨h.1, Nat.le_succ_of_le h.2⟩

/-- Some tokens end with the end token, and each stands at a place in `P`. -/
def Placed (P : Pos → Prop) (tokens : List Token) : Prop :=
  (∃ t ∈ tokens, t.isEof = true) ∧ ∀ t ∈ tokens, P t.pos

theorem Placed.cons {P : Pos → Prop} {tokens : List Token} (h : Placed P tokens) {t : Token}
    (ht : P t.pos) : Placed P (t :: tokens) := by
  obtain ⟨⟨e, he, heof⟩, hall⟩ := h
  exact ⟨⟨e, List.mem_cons_of_mem t he, heof⟩, List.forall_mem_cons.mpr ⟨ht, hall⟩⟩

theorem tokensFrom_placed {P : Pos → Prop} (hstep : ∀ p b, P p → P (p.step b)) {taken : Nat}
    {p : Pos} (hp : P p) (s : Bytes) :
    Gives (tokensFrom taken p s) (Placed P) fun e => P e.pos := by
  induction s generalizing taken p with
  | nil =>
    rw [tokensFrom_nil]
    exact ⟨⟨_, List.mem_singleton.mpr rfl, rfl⟩, List.forall_mem_singleton.mpr hp⟩
  | cons b rest ih =>
    have hnext := hstep p b hp
    cases taken with
    | succ taken =>
      rw [tokensFrom_cons_taken]
      exact ih hnext
    | zero =>
      cases hscan : scanAt b rest with
      | gap more =>
        rw [tokensFrom_cons_gap p hscan]
        exact ih hnext
      | lexeme l more =>
        rw [tokensFrom_cons_lexeme p hscan]
        have hrest : Gives (tokensFrom more (p.step b) rest) (Placed P) fun e => P e.pos :=
          ih hnext
        cases hrun : tokensFrom more (p.step b) rest with
        | error e => exact hrest.of_error hrun
        | ok tokens => exact (hrest.of_ok hrun).cons hp
      | bad kind text =>
        rw [tokensFrom_cons_bad p hscan]
        exact hp

/-- Every token of a text, and every error in it, stands on a line and in a
    column. -/
theorem tokenize_placed (source : Bytes) :
    Gives (tokenize source) (Placed Pos.IsProper) fun e => e.pos.IsProper :=
  tokensFrom_placed (fun _ b hp => hp.step b) Pos.isProper_start source

end Lumen
