import Generics.Ty.Text

/-!
Why a question about types has no answer. Each fault names the types that it is about; its
message is put together from them.
-/

namespace Generics

/-- A type that may not be built, or that cannot be captured. -/
inductive ShapeFault where
  /-- An inner class of a generic class, named without its owner. -/
  | ownerNeeded (raw outer : ClassRef)
  | notNested (raw : ClassRef) (owner : Ty)
  /-- An owner that is neither a class nor a parameterized type. -/
  | ownerForm (raw : ClassRef) (owner : Ty)
  | ownerMismatch (raw : ClassRef) (owner : Ty) (enclosing : ClassRef)
  /-- Arguments for a primitive or an array class. -/
  | notGeneric (raw : ClassRef)
  | arity (raw : ClassRef) (declared given : Nat)
  | primitiveArgument (raw : ClassRef) (argument : Ty)
  | primitiveBound (bound : Ty)
  | wildcardBound (bound : Ty)
  | notParameterizing (sub base : ClassRef)
  /-- A captured variable, and nothing that says what it stands for. -/
  | captureWithoutContext (v : TyVar)
  | captureUnbound (v : TyVar) (declaring : Ty)

/-- Two types that do not go together while variables are bound. -/
inductive MatchFault where
  | conflict (v : TyVar) (existing requested : Ty)
  | mismatch (shape actual : Ty)

/-- A type that has no subtype of a given class. -/
inductive SubtypeFault where
  /-- The subtypes of a variable or a wildcard are not known. -/
  | indeterminate (form : TyForm)
  | arraysOnly
  | notSubclass (target raw : ClassRef)
  | noPath
  | unmatched (fault : MatchFault)
  | notAssignable (candidate : Ty)

inductive TypeFault where
  | shape (fault : ShapeFault)
  | unmatched (fault : MatchFault)
  /-- A variable would stand for a type that contains it. -/
  | cyclic (v : TyVar) (value : Ty)
  | notASupertype (subject : Ty) (target : ClassRef)
  | notASubtype (subject : Ty) (target : ClassRef) (reason : SubtypeFault)

def ShapeFault.text : ShapeFault → String
  | ownerNeeded raw outer =>
    s!"inner class {raw} of generic class {outer} needs an explicit owner type"
  | notNested raw owner => s!"{raw} is not a nested class and cannot have owner type {owner}"
  | ownerForm raw owner =>
    s!"owner type {owner} of {raw} must be a class or parameterized type"
  | ownerMismatch raw owner enclosing =>
    s!"owner type {owner} of {raw} must be an instantiation of {enclosing}"
  | notGeneric raw => s!"{raw} cannot be parameterized"
  | arity raw declared given =>
    s!"{raw} declares {declared} type parameter(s) but {given} argument(s) were given"
  | primitiveArgument raw argument =>
    s!"primitive type {argument} cannot be a type argument of {raw}"
  | primitiveBound bound => s!"primitive type {bound} cannot be used as a bound"
  | wildcardBound bound => s!"wildcard {bound} cannot be used as a bound"
  | notParameterizing sub base => s!"{sub} does not parameterize {base}"
  | captureWithoutContext v =>
    s!"cannot capture type variable {v.name} without its declaring context"
  | captureUnbound v declaring => s!"type variable {v.name} is not bound by {declaring}"

def MatchFault.message : MatchFault → String
  | conflict v existing requested =>
    s!"type variable {v.name} is already bound to {existing}; cannot rebind it to {requested}"
  | mismatch shape actual => s!"no type mapping from {shape} to {actual}"

def SubtypeFault.text : SubtypeFault → String
  | indeterminate form => s!"the subtypes of {form.describe} are indeterminate"
  | arraysOnly => "an array type only has array subtypes"
  | notSubclass target raw => s!"{target} is not a subclass of {raw}"
  | noPath => "no supertype path to the raw type"
  | unmatched fault => fault.message
  | notAssignable candidate => s!"{candidate} does not appear to be a subtype"

def TypeFault.message : TypeFault → String
  | shape fault => s!"invalid type shape: {fault.text}"
  | unmatched fault => fault.message
  | cyclic v value => s!"type variable {v.name} cannot be bound to {value}, which contains it"
  | notASupertype subject target => s!"{target} is not a supertype of {subject}"
  | notASubtype subject target reason =>
    s!"{target} is not a subtype of {subject}: {reason.text}"

end Generics
