/-
  Lumen.Options — how a run is set up.

  Two switches: whether names and types are checked at all, and whether the
  run is traced.  The environment can change both: a setting counts only if its
  value is `1` or `true`.
-/
import Lumen.Bytes

namespace Lumen

/-- The switches of a run. -/
structure Options where
  checked : Bool := true
  trace : Bool := false
deriving DecidableEq, Repr

namespace Options

/-- Whether a setting has the value `1` or `true`. -/
def isSet (settings : List (Bytes × Bytes)) (name : String) : Bool :=
  match settings.lookup (ascii name) with
  | some value => value == ascii "1" || value == ascii "true"
  | none => false

/-- The switches that the environment asks for. -/
def ofEnvironment (settings : List (Bytes × Bytes)) : Options :=
  { checked := !isSet settings "LUMEN_NO_SCOPES"
    trace := isSet settings "LUMEN_TRACE" }

end Options
end Lumen
