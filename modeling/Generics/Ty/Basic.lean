import Generics.ClassRef

/-!
Reified generic types. A type is a class, a parameterized class with an owner when the class
is an inner one, an array of a type that no class stands for, a wildcard with bounds on either
side, or a type variable.

A variable is known by its declaration and its name. Its bounds are not part of it: they may
mention the variable itself, and they may be given after the variable is in use, so the
variable only says in which cell of a `BoundTable` they are kept.
-/

namespace Generics

/-- What introduces a type variable. -/
inductive Declaration where
  | ofClass (declaring : ClassRef)
  | ofMethod (owner : ClassRef) (method : String)
  /-- A declaration that no class or method makes. -/
  | synthetic (label : String)

namespace Declaration

def beq : Declaration → Declaration → Bool
  | ofClass c, ofClass d => c == d
  | ofMethod c m, ofMethod d n => c == d && m == n
  | synthetic a, synthetic b => a == b
  | _, _ => false

instance : BEq Declaration := ⟨beq⟩

theorem beq_def (d e : Declaration) : (d == e) = beq d e := rfl

instance : EquivBEq Declaration where
  rfl {d} := by
    cases d <;> simp [beq_def, beq]
  symm {d e} h := by
    cases d <;> cases e <;> simp_all [beq_def, beq]
  trans {d e f} h k := by
    cases d <;> cases e <;> cases f <;> simp_all [beq_def, beq]

def text : Declaration → String
  | ofClass declaring => declaring.name
  | ofMethod owner method => owner.name ++ "." ++ method ++ "()"
  | synthetic label => label

end Declaration

structure TyVar where
  /-- Where the bounds are kept; two variables with one declaration and name are equal, and
  may still have bounds of their own. -/
  cell : Nat
  declaration : Declaration
  name : String

instance : BEq TyVar := ⟨fun v w => v.name == w.name && v.declaration == w.declaration⟩

theorem TyVar.beq_iff {v w : TyVar} :
    (v == w) = true ↔ v.name = w.name ∧ (v.declaration == w.declaration) = true := by
  change (v.name == w.name && v.declaration == w.declaration) = true ↔ _
  rw [Bool.and_eq_true, beq_iff_eq]

instance : EquivBEq TyVar where
  rfl := by simp [TyVar.beq_iff]
  symm h := by
    obtain ⟨hname, hdecl⟩ := TyVar.beq_iff.mp h
    exact TyVar.beq_iff.mpr ⟨hname.symm, BEq.symm hdecl⟩
  trans h k := by
    obtain ⟨hname, hdecl⟩ := TyVar.beq_iff.mp h
    obtain ⟨kname, kdecl⟩ := TyVar.beq_iff.mp k
    exact TyVar.beq_iff.mpr ⟨hname.trans kname, BEq.trans hdecl kdecl⟩

inductive Ty where
  | cls (c : ClassRef)
  | param (owner : Option Ty) (raw : ClassRef) (args : List Ty)
  | array (component : Ty)
  | wild (upper lower : List Ty)
  | var (v : TyVar)

namespace Ty

def object : Ty := cls .object

instance : Inhabited Ty := ⟨object⟩

def isObject : Ty → Bool
  | cls c => c.isObject
  | _ => false

def isPrimitive : Ty → Bool
  | cls c => c.isPrimitive
  | _ => false

def isArray : Ty → Bool
  | cls c => c.isArray
  | array _ => true
  | _ => false

def isParameterized : Ty → Bool
  | param .. => true
  | _ => false

def isWildcard : Ty → Bool
  | wild .. => true
  | _ => false

def class? : Ty → Option ClassRef
  | cls c => some c
  | _ => none

/-- The component of an array, whichever of its two forms it has. -/
def component? : Ty → Option Ty
  | cls c => c.component?.map cls
  | array component => some component
  | _ => none

/-- A wildcard that admits every type: no lower bound, and the root class above. -/
def isUnbounded : Ty → Bool
  | wild upper lower => lower.isEmpty && upper.all isObject
  | _ => false

mutual

/-- The number of nodes of a type, each class, variable and constructor counting as one. -/
def size : Ty → Nat
  | cls _ => 1
  | param owner _ args => 1 + sizeOwner owner + sizeList args
  | array component => 1 + component.size
  | wild upper lower => 1 + sizeList upper + sizeList lower
  | var _ => 1
termination_by structural t => t

def sizeOwner : Option Ty → Nat
  | none => 0
  | some owner => owner.size
termination_by structural owner => owner

def sizeList : List Ty → Nat
  | [] => 0
  | t :: ts => t.size + sizeList ts
termination_by structural ts => ts

end

end Ty

/-- The five forms of a type. -/
inductive TyForm where
  | cls
  | param
  | array
  | wild
  | var
  deriving DecidableEq

def Ty.form : Ty → TyForm
  | .cls _ => .cls
  | .param .. => .param
  | .array _ => .array
  | .wild .. => .wild
  | .var _ => .var

/-- What a message calls a type of this form. -/
def TyForm.describe : TyForm → String
  | .cls => "class"
  | .param => "parameterized type"
  | .array => "generic array type"
  | .wild => "wildcard type"
  | .var => "type variable"

end Generics
