import Generics.Guard
import Generics.SupertypeView

/-!
Subtyping. A class on the right asks for raw ancestry; a parameterized type asks for the view
of the left side as its raw class, with every argument contained in the one asked for; arrays
follow their components. Variables and wildcards on the left are judged by their upper bounds,
wildcards on the right by their lower bounds.

Bounds lead back to the question that is being asked. A question that is asked again while it
is open is taken to hold.
-/

namespace Generics

inductive Verdict where
  | holds
  | fails
  /-- The question is open further up, and is taken to hold. -/
  | assumed
  deriving DecidableEq

def Verdict.accepts : Verdict → Bool
  | holds => true
  | fails => false
  | assumed => true

def Verdict.ofBool (b : Bool) : Verdict := if b then holds else fails

/-- What a series of questions shares: the questions that are open, with the budget of
attempts, and the number of supertype walks that ran out of steps. -/
structure Checker where
  guard : Guard (Ty × Ty)
  cutWalks : Nat

namespace Checker

def fresh : Checker := ⟨.ofProfile .subtyping, 0⟩

instance : Inhabited Checker := ⟨fresh⟩

end Checker

/-- A computation that asks subtype questions. -/
abbrev CheckM : Type → Type := StateM Checker

namespace CheckM

def enter (question : Ty × Ty) : CheckM Entry :=
  modifyGet fun c =>
    let (entry, guard) := c.guard.enter question
    (entry, { c with guard })

def leave (question : Ty × Ty) : CheckM Unit :=
  modify fun c => { c with guard := c.guard.leave question }

/-- What a walk found; a walk that ran out of steps found nothing, and is counted. -/
def ofOutcome {β : Type} : Outcome β → CheckM (Option β)
  | .found b => pure (some b)
  | .missing => pure none
  | .outOfSteps => do
    modify fun c => { c with cutWalks := c.cutWalks + 1 }
    return none

/-- Runs a question with a checker of its own. -/
def ask {β : Type} (question : CheckM β) : β := (question.run .fresh).1

end CheckM

namespace Subtyping

/-- How a rule asks a further subtype question. -/
abbrev Asking : Type := Ty → Ty → CheckM Bool

/-- Whether a type argument is contained in the one asked for: equal to it, or within all the
bounds of a wildcard. -/
def contains (below : Asking) (actual formal : Ty) : CheckM Bool :=
  if actual == formal then pure true
  else
    match formal with
    | .wild upper lower => do
      if ← upper.allM fun bound => below actual bound then
        lower.allM fun bound => below bound actual
      else
        return false
    | _ => pure false

/-- The rule for an array on the left, given its component. -/
def arrayRule (env : Env) (below : Asking) (component target : Ty) : CheckM Bool :=
  match target with
  | .cls c =>
    match c.component? with
    | some component' => below component (.cls component')
    | none => pure (env.isSubclass (.arrayOf .object) c)
  | .array component' => below component component'
  | _ => pure false

/-- The arguments to compare with those of a target. A raw view leaves the declared parameters
in their places. -/
def viewArgs (env : Env) (raw : ClassRef) : Ty → List Ty
  | .param _ _ args => args
  | _ => (env.classes.parameters raw).map Ty.var

/-- The rule for the owner of a target: it matters for inner classes only, and there the view
has an owner below it. -/
def ownerRule (env : Env) (below : Asking) (view : Ty) (owner : Option Ty) (raw : ClassRef) :
    CheckM Bool :=
  match owner with
  | none => pure true
  | some owner =>
    if env.classes.isStatic raw then pure true
    else
      match view with
      | .param (some viewOwner) _ _ => below viewOwner owner
      | _ => pure false

/-- The rule for a parameterized target. -/
def parameterizedRule (env : Env) (below : Asking) (source : Ty) (owner : Option Ty)
    (raw : ClassRef) (args : List Ty) : CheckM Bool := do
  if !env.isSubclass (env.erase source) raw then
    return false
  match ← CheckM.ofOutcome (env.viewAs source raw) with
  | none => return false
  | some view =>
    let actuals := viewArgs env raw view
    if actuals.length ≠ args.length then
      return false
    if ← (actuals.zip args).allM fun (actual, formal) => contains below actual formal then
      ownerRule env below view owner raw
    else
      return false

/-- One step of a subtype question between different types. -/
def rule (env : Env) (below : Asking) (source target : Ty) : CheckM Bool :=
  match target with
  | .wild _ lower => lower.anyM fun bound => below source bound
  | _ =>
    match source with
    | .wild upper _ => upper.anyM fun bound => below bound target
    | .var v => (env.bounds.effective v).anyM fun bound => below bound target
    | .array component => arrayRule env below component target
    | _ =>
      match target with
      | .cls c => pure (env.isSubclass (env.erase source) c)
      | .param owner raw args => parameterizedRule env below source owner raw args
      | .array component =>
        match source.component? with
        | some component' => below component' component
        | none => pure false
      | _ => pure false

/-- Asks whether `source` is a subtype of `target`, with a bound on the nesting. -/
def checkWithin (env : Env) : Nat → Ty → Ty → CheckM Verdict
  | 0, _, _ => pure .fails
  | levels + 1, source, target =>
    if source == target then pure .holds
    else do
      match ← CheckM.enter (source, target) with
      | .entered =>
        let holds ← rule env
          (fun s t => Verdict.accepts <$> checkWithin env levels s t) source target
        CheckM.leave (source, target)
        return .ofBool holds
      | .cycle => return .assumed
      | _ => return .fails

end Subtyping

namespace Env

/-- Asks whether `source` is a subtype of `target`. The guard admits no nesting deeper than
the one allowed for here. -/
def checkSubtype (env : Env) (source target : Ty) : CheckM Verdict :=
  Subtyping.checkWithin env (Limits.subtypeDepth + 1) source target

def isSubtype (env : Env) (source target : Ty) : CheckM Bool :=
  Verdict.accepts <$> env.checkSubtype source target

/-- Asks whether a type argument is contained in another one. -/
def checkContains (env : Env) (actual formal : Ty) : CheckM Bool :=
  Subtyping.contains env.isSubtype actual formal

/-- Asks whether a value of type `source` may be assigned to `target`. A wildcard takes what is
below all its bounds, and no other type takes a wildcard. -/
def checkAssignable (env : Env) (target source : Ty) : CheckM Bool :=
  match target with
  | .wild upper lower => do
    if target.isUnbounded then
      return true
    if ← upper.allM fun bound => env.isSubtype source bound then
      lower.allM fun bound => env.isSubtype source bound
    else
      return false
  | _ => if source.isWildcard then pure false else env.isSubtype source target

def isAssignable (env : Env) (target source : Ty) : Bool :=
  (env.checkAssignable target source).ask

end Env

end Generics
