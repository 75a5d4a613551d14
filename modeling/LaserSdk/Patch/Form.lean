import Mathlib.Algebra.Order.BigOperators.Group.List
import LaserSdk.Patch.Rfc
/-!
# The form of a patch

What an operation in RFC 6902's form holds, and what is left of it when the
crate writes it again: the members it read, so nothing that the text of the
patch did not hold.
-/

namespace LaserSdk.Patch

open Lib

/-! ## Reading -/

/-- The value of an operation is canonical. -/
def Operation.Canonical : Operation → Prop
  | .add _ value | .replace _ value | .test _ value => value.Canonical
  | _ => True

end LaserSdk.Patch
