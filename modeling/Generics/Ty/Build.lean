import Generics.Ty.Equality

/-!
Building types so that one type has one form. A wildcard keeps each bound once, and has the
root class above when no upper bound is given; an array of a class is an array class, and an
array of a wildcard is the wildcard of the arrays of its bounds.
-/

namespace Generics.Ty

/-- The wildcard with given bounds. Of equal bounds the first is kept. -/
def wildcard (upper lower : List Ty) : Ty :=
  wild (match upper.eraseDups with
    | [] => [object]
    | bounds => bounds) lower.eraseDups

/-- The wildcard that admits every type. -/
def unbounded : Ty := wildcard [] []

mutual

/-- The array type over a component. -/
def arrayOf : Ty → Ty
  | cls c => cls (.arrayOf c)
  | param owner raw args => array (param owner raw args)
  | array component => array (array component)
  | wild upper lower => wildcard (arraysOf upper) (arraysOf lower)
  | var v => array (var v)
termination_by structural t => t

def arraysOf : List Ty → List Ty
  | [] => []
  | t :: ts => arrayOf t :: arraysOf ts
termination_by structural ts => ts

end

@[simp] theorem arraysOf_eq_map (ts : List Ty) : arraysOf ts = ts.map arrayOf := by
  induction ts with
  | nil => rfl
  | cons t ts ih => simp [arraysOf, ih]

end Generics.Ty
