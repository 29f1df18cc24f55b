import Generics.Erasure
import Generics.Registry

/-!
What questions about types are asked against: the declared classes, and the bounds of the
variables.
-/

namespace Generics

structure Env where
  classes : Registry
  bounds : BoundTable

namespace Env

/-- No class declared by hand, and no variable. -/
def core : Env := ⟨.core, .empty⟩

instance : Inhabited Env := ⟨core⟩

/-- The raw class of a type. -/
def erase (env : Env) (t : Ty) : ClassRef := env.bounds.erase t

/-- The raw classes of the edges of a class, the superclass first. -/
def rawSupertypes (env : Env) (c : ClassRef) : List ClassRef :=
  (env.classes.directSupertypes c).map env.erase

/-- The bounds that stand for an open type, a variable or a wildcard. Other types stand for
themselves. -/
def upperBounds? (env : Env) : Ty → Option (List Ty)
  | .var v => some (env.bounds.effective v)
  | .wild upper _ => some upper
  | _ => none

/-- The nodes of a type and of all bounds together. A walk that goes from a type to its parts
and from variables to their bounds, and does not meet a node twice, is not longer. -/
def reach (env : Env) (t : Ty) : Nat := t.size + env.bounds.size

end Env

end Generics
