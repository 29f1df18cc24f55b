import Generics.BoundTable
import Generics.Ty.Text
import Generics.Visit.Basic

/-!
A visit that records what it passes. It handles the forms of types that it is told to handle;
the first type of another form ends it with a fault. A parameterized type is followed by its
owner and its arguments, an array by its component, a wildcard by its upper and its lower
bounds, and a variable by as much of its bounds as is asked for.
-/

namespace Generics

/-- Which bounds of a variable a visit goes on to. -/
inductive BoundsFollowed where
  | none
  | declared
  | effective

/-- One type passed: the number of types being visited, itself included, its form, and its
text. An array shows the text of its component. -/
structure TraceEvent where
  depth : Nat
  form : TyForm
  text : String

/-- A type of a form that the visit does not handle. -/
structure Unhandled where
  form : TyForm
  text : String

/-- What is handled in place of a type of each form. -/
def Unhandled.subject : TyForm → String
  | .array => "generic array component"
  | form => form.describe

def Unhandled.message (u : Unhandled) : String :=
  "not implemented: " ++ subject u.form ++ " `" ++ u.text ++ "` is not handled by this visitor"

/-- What a tracing visit is asked to do. -/
structure TraceRequest where
  handled : List TyForm
  profile : Profile
  follow : BoundsFollowed

/-- The events, the last one first, or the fault that ended the visit. -/
abbrev TraceLog : Type := Except Unhandled (List TraceEvent)

namespace TraceRequest

/-- The text under which a type is recorded. -/
def textOf : Ty → String
  | .array component => component.text
  | t => t.text

/-- The types that are visited after a given one. -/
def children (request : TraceRequest) (bounds : BoundTable) : Ty → List Ty
  | .cls _ => []
  | .param owner _ args => owner.toList ++ args
  | .array component => [component]
  | .wild upper lower => upper ++ lower
  | .var v =>
    match request.follow with
    | .none => []
    | .declared => bounds.declared v
    | .effective => bounds.effective v

/-- After a fault nothing more is recorded. -/
def handler (request : TraceRequest) (bounds : BoundTable) : Handler TraceLog :=
  fun visit t s =>
    match s.acc with
    | .error _ => s
    | .ok events =>
      if request.handled.contains t.form then
        Visit.all visit (request.children bounds t)
          { s with acc := .ok (⟨s.guard.depth, t.form, textOf t⟩ :: events) }
      else
        { s with acc := .error ⟨t.form, textOf t⟩ }

/-- The events of a visit of several types, in order. -/
def run (request : TraceRequest) (bounds : BoundTable) (ts : List Ty) : TraceLog :=
  (Visit.run (request.handler bounds) request.profile ts (.ok [])).acc.map List.reverse

end TraceRequest

end Generics
