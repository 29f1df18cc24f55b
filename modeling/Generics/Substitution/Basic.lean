import Generics.Fault
import Generics.Ty.Build

/-!
Substitutions: finite maps from type variables to types. A variable is mapped at most once, and
what it is mapped to is not resolved again.
-/

namespace Generics

/-- A list of bindings, no two of them for equal variables. -/
structure Substitution where
  bindings : List (TyVar × Ty)

namespace Substitution

def empty : Substitution := ⟨[]⟩

instance : Inhabited Substitution := ⟨empty⟩

def size (σ : Substitution) : Nat := σ.bindings.length

def isEmpty (σ : Substitution) : Bool := σ.bindings.isEmpty

/-- What a variable is mapped to. -/
def get? (σ : Substitution) (v : TyVar) : Option Ty :=
  (σ.bindings.find? fun binding => binding.1 == v).map Prod.snd

/-- Maps a variable that is not mapped yet; an earlier binding stays. -/
def insertIfNew (σ : Substitution) (v : TyVar) (t : Ty) : Substitution :=
  match σ.get? v with
  | some _ => σ
  | none => ⟨σ.bindings ++ [(v, t)]⟩

@[simp] theorem get?_empty (v : TyVar) : empty.get? v = none := rfl

theorem insertIfNew_of_mapped {σ : Substitution} {v : TyVar} {s : Ty} (t : Ty)
    (h : σ.get? v = some s) : σ.insertIfNew v t = σ := by
  rw [insertIfNew, h]

theorem insertIfNew_of_unmapped {σ : Substitution} {v : TyVar} (t : Ty)
    (h : σ.get? v = none) : σ.insertIfNew v t = ⟨σ.bindings ++ [(v, t)]⟩ := by
  rw [insertIfNew, h]

theorem get?_insertIfNew {σ : Substitution} {v : TyVar} (t : Ty) (h : σ.get? v = none)
    (w : TyVar) :
    (σ.insertIfNew v t).get? w = if v == w then some t else σ.get? w := by
  rw [insertIfNew_of_unmapped t h, get?, List.find?_append]
  rw [get?, Option.map_eq_none_iff, List.find?_eq_none] at h
  by_cases hw : (v == w) = true
  · have unmapped : σ.bindings.find? (fun binding => binding.1 == w) = none := by
      rw [List.find?_eq_none]
      intro binding member found
      exact h binding member (BEq.trans found (BEq.symm hw))
    simp [unmapped, hw]
  · simp [hw, get?]

/-- Whether a type is just a given variable. -/
def isVariable (v : TyVar) : Ty → Bool
  | .var w => w == v
  | _ => false

/-- Maps a variable to a type. To map it to itself, or to the type that it is mapped to
already, changes nothing; to map it to another type is a conflict. -/
def bind (σ : Substitution) (v : TyVar) (t : Ty) : Except MatchFault Substitution :=
  if isVariable v t then .ok σ
  else
    match σ.get? v with
    | some existing => if existing == t then .ok σ else .error (.conflict v existing t)
    | none => .ok ⟨σ.bindings ++ [(v, t)]⟩

/-- Maps several variables, one after the other. -/
def bindAll (σ : Substitution) (pairs : List (TyVar × Ty)) : Except MatchFault Substitution :=
  pairs.foldlM (fun σ (v, t) => σ.bind v t) σ

/-- Maps the variables that are not mapped yet, in order. -/
def insertAllNew (σ : Substitution) (pairs : List (TyVar × Ty)) : Substitution :=
  pairs.foldl (fun σ (v, t) => σ.insertIfNew v t) σ

/-- The bindings of both; where both map a variable, those of the first. -/
def absorb (σ τ : Substitution) : Substitution := σ.insertAllNew τ.bindings

end Substitution

namespace Ty

mutual

/-- Replaces every mapped variable. Wildcards and arrays are built anew, since a replacement
may make two bounds equal, or put a class or a wildcard into an array. -/
def subst (σ : Substitution) : Ty → Ty
  | cls c => cls c
  | param owner raw args => param (substOwner σ owner) raw (substList σ args)
  | array component => arrayOf (component.subst σ)
  | wild upper lower => wildcard (substList σ upper) (substList σ lower)
  | var v => (σ.get? v).getD (var v)
termination_by structural t => t

def substOwner (σ : Substitution) : Option Ty → Option Ty
  | none => none
  | some owner => some (owner.subst σ)
termination_by structural owner => owner

def substList (σ : Substitution) : List Ty → List Ty
  | [] => []
  | t :: ts => t.subst σ :: substList σ ts
termination_by structural ts => ts

end

@[simp] theorem substOwner_eq_map (σ : Substitution) (owner : Option Ty) :
    substOwner σ owner = owner.map (subst σ) := by
  cases owner <;> rfl

@[simp] theorem substList_eq_map (σ : Substitution) (ts : List Ty) :
    substList σ ts = ts.map (subst σ) := by
  induction ts with
  | nil => rfl
  | cons t ts ih => simp [substList, ih]

end Ty

/-- A type with every mapped variable replaced. The empty substitution gives the type back as
it is. -/
def Substitution.resolve (σ : Substitution) (t : Ty) : Ty :=
  if σ.isEmpty then t else t.subst σ

end Generics
