/-
  Lumen.Json — JSON values.

  Integers and doubles are kept apart, doubles by their bits, and strings are
  byte strings.  What is handed to a host has to be well-formed UTF-8;
  `Json.repaired` sees to that.

  Main statements:
    * `repaired_str_of_isWellFormed` — a well-formed string is left as it is.
-/
import Lumen.Utf8
import Lumen.Binary64

namespace Lumen

/-- A JSON value.  The keys of an object are fixed ASCII words. -/
inductive Json where
  | null
  | bool (b : Bool)
  | int (n : Int)
  | float (x : Binary64)
  | str (s : Bytes)
  | arr (items : List Json)
  | obj (fields : List (String × Json))

namespace Json

/-- A natural number. -/
def nat (n : Nat) : Json := int n

/-- A fixed ASCII wording. -/
def word (s : String) : Json := str (ascii s)

mutual
/-- The value with U+FFFD for every ill-formed piece of a string. -/
def repaired : Json → Json
  | str s => str (Utf8.repair s)
  | arr items => arr (repairedItems items)
  | obj fields => obj (repairedFields fields)
  | j => j

def repairedItems : List Json → List Json
  | [] => []
  | j :: rest => j.repaired :: repairedItems rest

def repairedFields : List (String × Json) → List (String × Json)
  | [] => []
  | (key, j) :: rest => (key, j.repaired) :: repairedFields rest
end

theorem repairedItems_eq_map (items : List Json) : repairedItems items = items.map repaired := by
  induction items with
  | nil => rfl
  | cons j rest ih => rw [repairedItems, ih, List.map_cons]

theorem repaired_str_of_isWellFormed {s : Bytes} (h : Utf8.isWellFormed s = true) :
    (str s).repaired = str s := by
  simp [repaired, Utf8.repair_of_isWellFormed h]

end Json
end Lumen
