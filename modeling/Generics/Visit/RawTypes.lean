import Generics.Ancestry
import Generics.Visit.Basic

/-!
The raw classes that a value of a type is an instance of: the class itself, the raw class of a
parameterized type, the arrays over those of a component, and for a variable or a wildcard
those of every upper bound, each class once and in the order in which it is found.
-/

namespace Generics.Env

/-- Adds a class behind those already there, unless it is among them. -/
def addRaw (raws : List ClassRef) (c : ClassRef) : List ClassRef :=
  if raws.contains c then raws else raws ++ [c]

/-- Collects raw classes. The component of an array is a matter of its own, so that a type
may occur both as an array's component and around the array. -/
def rawTypeHandler (env : Env) (componentRaws : Ty → List ClassRef) : Handler (List ClassRef) :=
  fun visit t s =>
    match t with
    | .cls c => s.modify (addRaw · c)
    | .param _ raw _ => s.modify (addRaw · raw)
    | .array component =>
      s.modify fun raws => ((componentRaws component).map ClassRef.arrayOf).foldl addRaw raws
    | .wild upper _ => Visit.all visit upper s
    | .var v => Visit.all visit (env.bounds.effective v) s

/-- One visit for the raw classes of a type. -/
def rawTypeVisit (env : Env) (componentRaws : Ty → List ClassRef) (t : Ty) :
    Visit (List ClassRef) :=
  Visit.run (env.rawTypeHandler componentRaws) .visit [t] []

/-- The raw classes of a type, seen through at most `arrays` nested array types. -/
def rawTypesWithin (env : Env) : Nat → Ty → List ClassRef
  | 0, _ => []
  | arrays + 1, t => (env.rawTypeVisit (env.rawTypesWithin arrays) t).acc

/-- The raw classes of a type. -/
def rawTypes (env : Env) (t : Ty) : List ClassRef := env.rawTypesWithin (env.reach t + 1) t

/-- Whether some raw class of a type is another class or below it. -/
def someRawBelow (env : Env) (t : Ty) (target : ClassRef) : Bool :=
  (env.rawTypes t).any fun raw => env.isSubclass raw target

end Generics.Env
