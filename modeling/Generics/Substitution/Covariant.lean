import Generics.Env
import Generics.Substitution.Basic
import Generics.Visit.Basic

/-!
The bindings that a type implies for the parameters of all its supertypes: `ArrayList<String>`
maps the parameter of `ArrayList`, of `AbstractList`, of `List` and so on to `String`. Each
edge is resolved with the bindings found before it, so no binding has to be looked up twice.
-/

namespace Generics.Env

/-- Maps parameters to arguments, place by place. The first binding of a variable stays, and a
variable is not mapped to itself. -/
def recordArgs (σ : Substitution) (parameters : List TyVar) (args : List Ty) : Substitution :=
  (parameters.zip args).foldl
    (fun σ (v, t) => if Substitution.isVariable v t then σ else σ.insertIfNew v t) σ

/-- Visits the edges of a class, each resolved with what was found until then. -/
def visitEdges (env : Env) (visit : Ty → Visit Substitution → Visit Substitution)
    (c : ClassRef) (s : Visit Substitution) : Visit Substitution :=
  (env.classes.directSupertypes c).foldl (fun s edge => visit (edge.subst s.acc) s) s

def covariantHandler (env : Env) : Handler Substitution :=
  fun visit t s =>
    match t with
    | .cls c => env.visitEdges visit c s
    | .param owner raw args =>
      let s := s.modify fun σ => recordArgs σ (env.classes.parameters raw) args
      Visit.all visit owner.toList (env.visitEdges visit raw s)
    | .array _ => s
    | .wild upper _ => Visit.all visit upper s
    | .var v => Visit.all visit (env.bounds.effective v) s

def covariantVisit (env : Env) (t : Ty) : Visit Substitution :=
  Visit.run env.covariantHandler .visit [t] .empty

/-- What a type and all its supertypes say about their parameters. -/
def covariantly (env : Env) (t : Ty) : Substitution := (env.covariantVisit t).acc

end Generics.Env
