import Generics.Substitution.Basic

/-!
Matching: the bindings that turn a shape with variables into a given type.
-/

namespace Generics.Substitution

mutual

/-- Adds the bindings that turn a shape into a type. A wildcard in the place of a class, a
parameterized type or an array asks for nothing, and a wildcard shape fits every type; two
wildcards are matched bound by bound. -/
def unify (shape actual : Ty) (σ : Substitution) : Except MatchFault Substitution :=
  if shape == actual then .ok σ
  else
    match shape with
    | .var v => σ.bind v actual
    | .wild upper lower =>
      match actual with
      | .wild upper' lower' =>
        if upper.length ≠ upper'.length || lower.length ≠ lower'.length then
          .error (.mismatch (.wild upper lower) actual)
        else
          unifyAll upper upper' σ >>= unifyAll lower lower'
      | _ => .ok σ
    | .param owner raw args =>
      match actual with
      | .wild .. => .ok σ
      | .param owner' raw' args' =>
        if raw != raw' || args.length ≠ args'.length then
          .error (.mismatch (.param owner raw args) actual)
        else
          unifyAll args args' σ >>= unifyOwner owner owner'
      | _ => .error (.mismatch (.param owner raw args) actual)
    | .array component =>
      match actual with
      | .wild .. => .ok σ
      | _ =>
        match actual.component? with
        | some component' => unify component component' σ
        | none => .error (.mismatch (.array component) actual)
    | .cls c =>
      match actual with
      | .wild .. => .ok σ
      | _ => .error (.mismatch (.cls c) actual)
termination_by structural shape

/-- Matches lists place by place, as far as both go. -/
def unifyAll (shapes actuals : List Ty) (σ : Substitution) :
    Except MatchFault Substitution :=
  match shapes, actuals with
  | shape :: shapes, actual :: actuals => unify shape actual σ >>= unifyAll shapes actuals
  | _, _ => .ok σ
termination_by structural shapes

/-- Matches owners where both types have one. -/
def unifyOwner (shape actual : Option Ty) (σ : Substitution) :
    Except MatchFault Substitution :=
  match shape, actual with
  | some shape, some actual => unify shape actual σ
  | _, _ => .ok σ
termination_by structural shape

end

end Generics.Substitution
