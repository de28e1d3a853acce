/-
  Lumen.Utf8 — well-formed and ill-formed UTF-8.

  Text that leaves the front end as JSON has to be well-formed, while source
  text need not be.  A byte string falls into pieces: each is one encoded
  code point or a maximal ill-formed piece, that is a single byte that starts
  nothing, or as much of a sequence as is there when it breaks off.  `repair`
  puts U+FFFD in the place of each ill-formed piece.

  Main statements:
    * `flatten_pieces` — the pieces make up the text;
    * `repair_of_isWellFormed` — well-formed text is left as it is.
-/
import Lumen.Bytes

namespace Lumen.Utf8

/-! ## §1. Sequences -/

/-- An inclusive range of bytes. -/
structure ByteRange where
  low : UInt8
  high : UInt8

def ByteRange.contains (r : ByteRange) (b : UInt8) : Bool := r.low ≤ b && b ≤ r.high

/-- The bytes that may follow a lead byte without a rule of its own. -/
def trailing : ByteRange := ⟨0x80, 0xBF⟩

/-- The ranges of the bytes that must follow `lead`; `none` if `lead` starts
    no sequence.  The narrower second ranges keep out overlong forms,
    surrogates and what lies beyond U+10FFFF. -/
def following? (lead : UInt8) : Option (List ByteRange) :=
  if lead < 0x80 then some []
  else if lead < 0xC2 then none
  else if lead < 0xE0 then some [trailing]
  else if lead == 0xE0 then some [⟨0xA0, 0xBF⟩, trailing]
  else if lead == 0xED then some [⟨0x80, 0x9F⟩, trailing]
  else if lead < 0xF0 then some [trailing, trailing]
  else if lead == 0xF0 then some [⟨0x90, 0xBF⟩, trailing, trailing]
  else if lead < 0xF4 then some [trailing, trailing, trailing]
  else if lead == 0xF4 then some [⟨0x80, 0x8F⟩, trailing, trailing]
  else none

/-- How many bytes of a text lie in the ranges wanted of them, up to the
    first that does not. -/
def matching : List ByteRange → Bytes → Nat
  | r :: rs, b :: s => if r.contains b then matching rs s + 1 else 0
  | _, _ => 0

/-! ## §2. Pieces -/

/-- A piece of a text: one encoded code point, or a maximal ill-formed piece. -/
structure Piece where
  bytes : Bytes
  wellFormed : Bool

/-- The piece that starts with `lead`, before `rest`. -/
def Piece.at (lead : UInt8) (rest : Bytes) : Piece :=
  match following? lead with
  | none => ⟨[lead], false⟩
  | some ranges =>
    let n := matching ranges rest
    ⟨lead :: rest.take n, n == ranges.length⟩

theorem Piece.bytes_at (lead : UInt8) (rest : Bytes) :
    (Piece.at lead rest).bytes = lead :: rest.take ((Piece.at lead rest).bytes.length - 1) := by
  unfold Piece.at
  split <;> simp [List.take_eq_take_min]

/-- The pieces of a text, in order. -/
def pieces : Bytes → List Piece
  | [] => []
  | lead :: rest =>
    let piece := Piece.at lead rest
    piece :: pieces (rest.drop (piece.bytes.length - 1))
termination_by s => s.length
decreasing_by simp only [List.length_drop, List.length_cons]; omega

theorem flatten_pieces (s : Bytes) : (pieces s).flatMap Piece.bytes = s := by
  fun_induction pieces s with
  | case1 => rfl
  | case2 lead rest piece ih =>
    rw [List.flatMap_cons, ih]
    conv => lhs; arg 1; rw [show piece = Piece.at lead rest from rfl, Piece.bytes_at]
    simp [piece]

/-- Whether a text is well-formed UTF-8. -/
def isWellFormed (s : Bytes) : Bool := (pieces s).all Piece.wellFormed

/-! ## §3. Repair -/

/-- U+FFFD, the sign for what could not be decoded. -/
def replacement : Bytes := [0xEF, 0xBF, 0xBD]

/-- A text with U+FFFD for each maximal ill-formed piece. -/
def repair (s : Bytes) : Bytes :=
  (pieces s).flatMap fun piece => if piece.wellFormed then piece.bytes else replacement

theorem repair_of_isWellFormed {s : Bytes} (h : isWellFormed s = true) : repair s = s := by
  have hall : ∀ piece ∈ pieces s, piece.wellFormed = true := by
    simpa [isWellFormed] using h
  have hmap : (pieces s).map (fun piece => if piece.wellFormed then piece.bytes else replacement)
      = (pieces s).map Piece.bytes :=
    List.map_congr_left fun piece hp => if_pos (hall piece hp)
  rw [repair, List.flatMap_def, hmap, ← List.flatMap_def, flatten_pieces]

end Lumen.Utf8
