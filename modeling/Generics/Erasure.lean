import Generics.BoundTable
import Generics.Limits

/-!
The raw class of a type. A variable or a wildcard stands for its first upper bound, and an
array of a type for the array class over the raw class of its component. Bounds may lead in a
circle, so the hops are counted; after the last one the raw class is the root class.
-/

namespace Generics

/-- The raw class of a type, seen through at most `hops - 1` bounds and components. -/
def BoundTable.eraseWithin (table : BoundTable) : Nat → Ty → ClassRef
  | 0, _ => .object
  | hops + 1, t =>
    match t with
    | .cls c => c
    | .param _ raw _ => raw
    | .array component => .arrayOf (table.eraseWithin hops component)
    | .wild upper _ =>
      match upper with
      | [] => .object
      | bound :: _ => table.eraseWithin hops bound
    | .var v =>
      match table.declared v with
      | [] => .object
      | bound :: _ => table.eraseWithin hops bound

def BoundTable.erase (table : BoundTable) (t : Ty) : ClassRef :=
  table.eraseWithin (Limits.erasureHops + 1) t

end Generics
