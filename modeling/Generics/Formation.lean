import Generics.Env
import Generics.Fault
import Generics.GenericForm

/-!
Building types from their parts, with the checks that make them sensible: a parameterized type
has as many arguments as its class has parameters, none of them primitive, and an owner exactly
where its class is nested; a bound is neither primitive nor a wildcard.
-/

namespace Generics

namespace Ty

def boundFault? (bound : Ty) : Option ShapeFault :=
  if bound.isPrimitive then some (.primitiveBound bound)
  else if bound.isWildcard then some (.wildcardBound bound)
  else none

/-- The wildcard `? extends bound`. -/
def subtypeOf (bound : Ty) : Except ShapeFault Ty :=
  match bound.boundFault? with
  | some fault => .error fault
  | none => .ok (wildcard [bound] [])

/-- The wildcard `? super bound`. -/
def supertypeOf (bound : Ty) : Except ShapeFault Ty :=
  match bound.boundFault? with
  | some fault => .error fault
  | none => .ok (wildcard [] [bound])

end Ty

namespace Env

/-- A class with its owner and arguments. A class without arguments and without a
parameterized owner is itself. -/
def applied (env : Env) (owner : Option Ty) (raw : ClassRef) (args : List Ty) :
    Except ShapeFault Ty :=
  let declared := (env.classes.parameters raw).length
  if raw.isPrimitive || raw.isArray then .error (.notGeneric raw)
  else if declared ≠ args.length then .error (.arity raw declared args.length)
  else
    match args.find? Ty.isPrimitive with
    | some argument => .error (.primitiveArgument raw argument)
    | none =>
      if args.isEmpty && !(owner.any Ty.isParameterized) then .ok (.cls raw)
      else .ok (.param owner raw args)

/-- The type `raw<args>`, owned by the enclosing class if there is one. An inner class of a
generic class has no owner that goes without saying. -/
def parameterized (env : Env) (raw : ClassRef) (args : List Ty) : Except ShapeFault Ty :=
  match env.classes.enclosing? raw with
  | none => env.applied none raw args
  | some outer =>
    if !env.classes.isStatic raw && (env.classes.genericForm outer).isParameterized then
      .error (.ownerNeeded raw outer)
    else
      env.applied (some (.cls outer)) raw args

/-- The type `owner.raw<args>`. -/
def parameterizedIn (env : Env) (owner : Ty) (raw : ClassRef) (args : List Ty) :
    Except ShapeFault Ty :=
  match env.classes.enclosing? raw with
  | none => .error (.notNested raw owner)
  | some enclosing =>
    if owner.class?.isNone && !owner.isParameterized then .error (.ownerForm raw owner)
    else if env.erase owner != enclosing then .error (.ownerMismatch raw owner enclosing)
    else env.applied (some owner) raw args

/-- A variable that no class declares. -/
def artificialVariable (env : Env) (declaration : Declaration) (name : String)
    (bounds : List Ty) : Except ShapeFault (TyVar × Env) :=
  match bounds.findSome? Ty.boundFault? with
  | some fault => .error fault
  | none =>
    let (v, table) := env.bounds.declareBounded declaration name bounds
    .ok (v, { env with bounds := table })

end Env

end Generics
