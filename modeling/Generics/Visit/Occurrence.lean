import Generics.Visit.Basic

/-!
Whether a type spells out a variable: in an owner, an argument, an array component, or a bound
of a wildcard. The bounds of variables are not followed: `T` does not occur in a `U` that is
bounded by `T`.
-/

namespace Generics.Ty

/-- Visits the arguments as long as the variable was not found. -/
def occurrenceInArgs (visit : Ty → Visit Bool → Visit Bool) :
    List Ty → Visit Bool → Visit Bool
  | [], s => s
  | t :: ts, s => if s.acc then s else occurrenceInArgs visit ts (visit t s)

/-- What is collected is whether the variable was found. -/
def occurrenceHandler (v : TyVar) : Handler Bool :=
  fun visit t s =>
    match t with
    | .cls _ => s
    | .param owner _ args =>
      occurrenceInArgs visit args (Visit.all visit owner.toList s)
    | .array component => visit component s
    | .wild upper lower => Visit.all visit lower (Visit.all visit upper s)
    | .var w => if w == v then s.modify fun _ => true else s

def occurrenceVisit (t : Ty) (v : TyVar) : Visit Bool :=
  Visit.run (occurrenceHandler v) .visit [t] false

/-- Whether a type spells out a variable, as far as a visit goes. -/
def mentions (t : Ty) (v : TyVar) : Bool := (t.occurrenceVisit v).acc

end Generics.Ty
