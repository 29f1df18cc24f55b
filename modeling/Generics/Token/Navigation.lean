import Generics.Formation
import Generics.Substitution.Matching
import Generics.Subtyping
import Generics.Token.Basic
import Generics.Visit.RawTypes

/-!
Moving along the class graph with the type arguments kept: from `ArrayList<String>` up to
`List<String>`, and down again.
-/

namespace Generics

/-- The number of array levels of a class. -/
def ClassRef.dimensions : ClassRef → Nat
  | .named _ _ => 0
  | .array _ component => component.dimensions + 1

namespace Env

/-- A type seen as a raw ancestor. An open type goes to the first of its upper bounds that is
below the target, and an array target asks for the components; each of these is one step. -/
def supertypeWithin (env : Env) : Nat → Ty → ClassRef → Except TypeFault Ty
  | 0, t, target => .error (.notASupertype t target)
  | steps + 1, t, target =>
    if !env.someRawBelow t target then .error (.notASupertype t target)
    else
      match env.upperBounds? t with
      | some bounds =>
        match bounds.find? fun bound => env.someRawBelow bound target with
        | some bound => env.supertypeWithin steps bound target
        | none => .error (.notASupertype t target)
      | none =>
        match target.component? with
        | some targetComponent =>
          match t.component? with
          | some component =>
            (env.supertypeWithin steps component targetComponent).map Ty.arrayOf
          | none => .error (.notASupertype t target)
        | none =>
          match (env.viewAs t target).get? with
          | some view => .ok view
          | none => .error (.notASupertype t target)

/-- The instantiation of a raw ancestor that a type implies. Between two array levels no node
of the type or of a bound comes twice, which bounds the steps. -/
def supertype (env : Env) (t : Ty) (target : ClassRef) : Except TypeFault Ty :=
  env.supertypeWithin ((target.dimensions + 1) * (env.reach t + 1)) t target

/-- The instantiation of a raw descendant that is inferred from a type, before it is checked.
Below a bare class a descendant is bare too, unless it has parameters and the class has none;
otherwise the view of the descendant's generic form is matched with the type. -/
def inferSubtype (env : Env) (t : Ty) (target : ClassRef) : Except SubtypeFault Ty :=
  let raw := env.erase t
  if t.class?.isSome &&
      ((env.classes.parameters target).isEmpty || !(env.classes.parameters raw).isEmpty) then
    .ok (.cls target)
  else
    let form := env.classes.genericForm target
    match (env.viewAs form raw).get? with
    | none => .error .noPath
    | some shape =>
      match Substitution.unify shape t .empty with
      | .error fault => .error (.unmatched fault)
      | .ok bindings => .ok (bindings.resolve form)

/-- The instantiation of a raw descendant of a type that is neither an array nor open. -/
def plainSubtype (env : Env) (t : Ty) (target : ClassRef) : Except SubtypeFault Ty := do
  if !env.isSubclass target (env.erase t) then
    throw (.notSubclass target (env.erase t))
  let candidate ← env.inferSubtype t target
  if env.isAssignable t candidate then return candidate
  else throw (.notAssignable candidate)

/-- The instantiation of a raw descendant whose view as the raw class of a type is that type.
Arrays ask for their components. -/
def subtype (env : Env) (t : Ty) (target : ClassRef) : Except TypeFault Ty :=
  match t with
  | .var _ => .error (.notASubtype t target (.indeterminate t.form))
  | .wild .. => .error (.notASubtype t target (.indeterminate t.form))
  | _ =>
    if t.isArray then
      match target, t.component? with
      | .array _ targetComponent, some component =>
        (env.subtype component targetComponent).map Ty.arrayOf
      | _, _ => .error (.notASubtype t target .arraysOnly)
    else
      match env.plainSubtype t target with
      | .ok candidate => .ok candidate
      | .error reason => .error (.notASubtype t target reason)
termination_by structural target

/-! ## Capture -/

/-- The first argument that a class passes to a generic base class. -/
def capturedArgument (env : Env) (sub base : ClassRef) : Except ShapeFault Ty :=
  match (env.viewAs (.cls sub) base).get? with
  | some (.param _ _ (arg :: _)) => .ok arg
  | _ => .error (.notParameterizing sub base)

end Env

namespace Token

def supertype (env : Env) (token : Token) (target : ClassRef) : Except TypeFault Token :=
  (env.supertype token.type target).map token.derive

def subtype (env : Env) (token : Token) (target : ClassRef) : Except TypeFault Token :=
  (env.subtype token.type target).map token.derive

theorem supertype_iff {env : Env} {token found : Token} {target : ClassRef} :
    token.supertype env target = .ok found ↔
      ∃ u, env.supertype token.type target = .ok u ∧ found = token.derive u := by
  rw [supertype]
  cases env.supertype token.type target with
  | error _ => simp [Except.map]
  | ok u => simp [Except.map, eq_comm]

theorem subtype_iff {env : Env} {token found : Token} {target : ClassRef} :
    token.subtype env target = .ok found ↔
      ∃ u, env.subtype token.type target = .ok u ∧ found = token.derive u := by
  rw [subtype]
  cases env.subtype token.type target with
  | error _ => simp [Except.map]
  | ok u => simp [Except.map, eq_comm]

/-- The argument that a class passes to a generic base class, as an anonymous subclass records
the type that it is written with. -/
def capture (env : Env) (sub base : ClassRef) : Except ShapeFault Token := do
  match ← env.capturedArgument sub base with
  | .var v => throw (.captureWithoutContext v)
  | captured => return .ofType captured

/-- The captured argument, resolved with the bindings of the type around it. They become the
scope of the token. -/
def captureIn (env : Env) (sub base : ClassRef) (declaring : Ty) : Except ShapeFault Token := do
  let captured ← env.capturedArgument sub base
  let scope := env.covariantly declaring
  match scope.resolve captured with
  | .var v => throw (.captureUnbound v declaring)
  | t => return ⟨t, scope⟩

end Token

end Generics
