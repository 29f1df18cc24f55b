import Generics.Env
import Generics.Search

/-!
Raw ancestry: whether a class is another one or inherits from it, type arguments left aside.
-/

namespace Generics.Env

/-- Enough steps for a search through all ancestors of a class. Each edge of the registry is
queued at most once; an array class among the ancestors, itself on an edge, brings three more. -/
def ancestrySteps (env : Env) : Nat := 1 + 4 * env.classes.edgeBound

/-- Whether `target` is on a path of one or more edges from `c`. -/
def inherits (env : Env) (c target : ClassRef) : Bool :=
  (search (β := Unit) (fun c =>
    let above := env.rawSupertypes c
    if above.contains target then .goal () else .next above) env.ancestrySteps c).isFound

/-- Whether `sub` is `sup` or below it. Arrays of reference types follow their components, and
every array is below the root class and the two array interfaces; a primitive, and an array of
primitives beside those three, is below itself alone. -/
def isSubclass (env : Env) (sub sup : ClassRef) : Bool :=
  if sub == sup then true
  else if sub.isPrimitive || sup.isPrimitive then false
  else if sup.isObject then true
  else
    match sub, sup with
    | .array _ c, .array _ d => !c.isPrimitive && !d.isPrimitive && env.isSubclass c d
    | .array _ _, .named name _ =>
      name == ClassRef.cloneableName || name == ClassRef.serializableName
    | .named _ _, .array _ _ => false
    | .named name kind, .named _ _ => env.inherits (.named name kind) sup
termination_by structural sub

end Generics.Env
