import Generics.Token.Navigation

/-!
All supertypes of a token, subtypes first. An open type contributes its bounds; any other type
contributes its view as each of its raw ancestors, so that a raw use of a generic class stays
raw above it.

Each member has a level, one more than the highest level among its direct supertypes. The root
class is at level 1 and an interface at least at level 2, so that interfaces come before the
root class. The members are ordered by level, the highest first, and within a level in the
order in which they were completed.
-/

namespace Generics

/-- The members of a closure found so far, each with its level, and the types whose supertypes
are being collected. -/
structure Collection where
  guard : Guard Ty
  members : List (Token × Nat)

namespace Collection

def start : Collection := ⟨.ofProfile .closure, []⟩

/-- The level of a member. -/
def level? (s : Collection) (t : Ty) : Option Nat :=
  (s.members.find? fun member => member.1.type == t).map Prod.snd

end Collection

abbrev CollectM : Type → Type := StateM Collection

namespace CollectM

/-- Makes a token a member, one level above the highest level that collecting its supertypes
gives. A member keeps its level; a token that is being collected, or that a limit turns down,
counts as level 0. -/
def record (token : Token) (collectAbove : CollectM Nat) : CollectM Nat := do
  match (← get).level? token.type with
  | some level => return level
  | none =>
    match ← modifyGet fun s =>
        let (entry, guard) := s.guard.enter token.type
        (entry, { s with guard }) with
    | .entered =>
      let above ← collectAbove
      modify fun s =>
        { guard := s.guard.leave token.type, members := s.members ++ [(token, above + 1)] }
      return above + 1
    | _ => return 0

/-- The highest level among several, collected in order, and at least `base`. -/
def highest {α : Type} (collect : α → CollectM Nat) (base : Nat) (items : List α) :
    CollectM Nat :=
  items.foldlM (fun above item => max above <$> collect item) base

end CollectM

namespace Token

/-- A token seen as one of its raw ancestors. -/
def elementAt? (env : Env) (origin : Token) (raw : ClassRef) : Option Token :=
  if origin.rawType env == raw then some origin else (origin.supertype env raw).toOption

/-- An interface is above nothing but counts as if it were above the root class. -/
def baseLevel (raw : ClassRef) : Nat := if raw.isInterface then 1 else 0

/-- Collects a token seen as one of its raw ancestors, and the ancestors of that: first the
interfaces, then the superclass. -/
def collectAncestor (env : Env) : Nat → Token → ClassRef → CollectM Nat
  | 0, _, _ => pure 0
  | depth + 1, origin, raw =>
    match origin.elementAt? env raw with
    | none => pure 0
    | some element =>
      CollectM.record element <|
        CollectM.highest (fun edge => collectAncestor env depth origin (env.erase edge))
          (baseLevel raw)
          (env.classes.interfaces raw ++ (env.classes.superclass? raw).toList)

/-- Collects a token and its supertypes. -/
def collect (env : Env) : Nat → Token → CollectM Nat
  | 0, _ => pure 0
  | depth + 1, token =>
    match env.upperBounds? token.type with
    | some _ =>
      CollectM.record token <|
        CollectM.highest (fun above => collect env depth (token.resolveDirect .empty above))
          (baseLevel (token.rawType env))
          (token.directInterfaces env ++ (token.directSuperclass? env).toList)
    | none => collectAncestor env (depth + 1) token (token.rawType env)

/-- The state after everything is collected; the guard admits no nesting deeper than the one
allowed for here. -/
def collection (env : Env) (token : Token) : Collection :=
  ((collect env (Limits.closureDepth + 1) token).run .start).2

end Token

/-- The supertypes of a token, subtypes first. -/
structure Closure where
  types : List Token

namespace Closure

def empty : Closure := ⟨[]⟩

instance : Inhabited Closure := ⟨empty⟩

/-- The members with the highest level first, each level in the given order. -/
def byLevel (members : List (Token × Nat)) : List Token :=
  let top := (members.map Prod.snd).foldl max 0
  (List.range (top + 1)).reverse.flatMap fun level =>
    (members.filter fun member => member.2 == level).map Prod.fst

/-- The members that are not interfaces, the root class among them. -/
def classes (env : Env) (set : Closure) : List Token :=
  set.types.filter fun token => !(token.rawType env).isInterface

def interfaces (env : Env) (set : Closure) : List Token :=
  set.types.filter fun token => (token.rawType env).isInterface

/-- The raw classes of the members, each once. -/
def rawTypes (env : Env) (set : Closure) : List ClassRef :=
  (set.types.map (Token.rawType env)).eraseDups

def contains (set : Closure) (t : Ty) : Bool := set.types.any fun token => token.type == t

end Closure

/-- All supertypes of a token, itself included. -/
def Token.closure (env : Env) (token : Token) : Closure :=
  ⟨Closure.byLevel (token.collection env).members⟩

end Generics
