import Generics.Ancestry
import Generics.GenericForm
import Generics.Substitution.Basic

/-!
A type seen as one of its raw ancestors, with the type arguments that come along:
`ArrayList<String>` seen as `Iterable` is `Iterable<String>`.

A class starts from its generic form. A raw use of a generic class on the way stays raw above
it: where `Legacy` extends the raw `ArrayList`, it is seen as the raw `List`. Variables and
wildcards have no view of their own; their bounds do.
-/

namespace Generics.Env

/-- Adds the bindings that a type carries: its own arguments, then those of its owner. The
first binding of a variable stays. -/
def addCarried (env : Env) (σ : Substitution) : Ty → Substitution
  | .param (some owner) raw args =>
    env.addCarried (σ.insertAllNew ((env.classes.parameters raw).zip args)) owner
  | .param none raw args => σ.insertAllNew ((env.classes.parameters raw).zip args)
  | _ => σ
termination_by structural t => t

/-- The bindings that a type carries: `Outer<String>.Inner<Integer>` binds the parameters of
`Inner` and of `Outer`. -/
def carried (env : Env) (t : Ty) : Substitution := env.addCarried .empty t

/-- Whether a type is the raw use of a generic class. -/
def isRawUse (env : Env) : Ty → Bool
  | .cls c => !(env.classes.parameters c).isEmpty
  | _ => false

/-- The direct supertypes of a type, each with its raw class. -/
def instantiatedEdges (env : Env) (t : Ty) : List (ClassRef × Ty) :=
  let rawUse := env.isRawUse t
  let bindings := env.carried t
  (env.classes.directSupertypes (env.erase t)).map fun edge =>
    let raw := env.erase edge
    (raw, if rawUse then .cls raw else edge.subst bindings)

/-- Where the walk from a type starts. -/
def viewStart (env : Env) : Ty → Option Ty
  | .cls c => some (if c.isArray then .cls c else env.classes.genericForm c)
  | .param owner raw args => some (.param owner raw args)
  | .array component => some (.cls (env.erase (.array component)))
  | .wild .. => none
  | .var _ => none

/-- One step of the walk: only edges below the target are followed, and the first that reaches
it ends the walk. -/
def viewStep (env : Env) (target : ClassRef) (t : Ty) : Expansion Ty Ty :=
  let edges := (env.instantiatedEdges t).filter fun edge => env.isSubclass edge.1 target
  match edges.find? fun edge => edge.1 == target with
  | some (_, supertype) => .goal supertype
  | none => .next (edges.map Prod.snd)

/-- A type seen as one of its raw ancestors, over a path that is as short as possible. -/
def viewAs (env : Env) (t : Ty) (target : ClassRef) : Outcome Ty :=
  if target.isObject && !t.isPrimitive then .found .object
  else
    match env.viewStart t with
    | none => .missing
    | some start =>
      if env.erase start == target then .found start
      else search (env.viewStep target) Limits.walkSteps start

end Generics.Env
