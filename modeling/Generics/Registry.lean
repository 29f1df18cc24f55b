import Generics.Primitive
import Generics.Ty.Build
import Std.Data.TreeMap.Lemmas

/-!
Declarations of classes, and the registry that answers for a class by its name. An edge is a
declared supertype: the superclass, or one of the interfaces.

The registry starts with the root class, the two array interfaces and the primitives. It
answers for every array class without a declaration.
-/

namespace Generics

structure ClassDecl where
  ref : ClassRef
  superclass? : Option Ty
  interfaces : List Ty
  parameters : List TyVar
  enclosing? : Option ClassRef
  isStatic : Bool

namespace ClassDecl

/-- The declaration of a class that says nothing. An ordinary class other than the root class
extends the root class, as long as it is not given another superclass. -/
def of (ref : ClassRef) : ClassDecl where
  ref
  superclass? :=
    match ref with
    | .named _ .ordinary => if ref.isObject then none else some .object
    | _ => none
  interfaces := []
  parameters := []
  enclosing? := none
  isStatic := false

def withParameters (d : ClassDecl) (parameters : List TyVar) : ClassDecl :=
  { d with parameters }

def extending (d : ClassDecl) (superclass : Ty) : ClassDecl :=
  { d with superclass? := some superclass }

/-- Adds an interface behind those already there. -/
def implementing (d : ClassDecl) (interface : Ty) : ClassDecl :=
  { d with interfaces := d.interfaces ++ [interface] }

/-- An inner class, whose instances belong to an instance of the outer class. -/
def nestedIn (d : ClassDecl) (outer : ClassRef) : ClassDecl :=
  { d with enclosing? := some outer, isStatic := false }

def staticNestedIn (d : ClassDecl) (outer : ClassRef) : ClassDecl :=
  { d with enclosing? := some outer, isStatic := true }

/-- The edges of a declaration, the superclass first. -/
def supertypes (d : ClassDecl) : List Ty := d.superclass?.toList ++ d.interfaces

end ClassDecl

structure Registry where
  decls : Std.TreeMap String ClassDecl
  /-- At least the number of edges in the registry; it counts replaced declarations too. -/
  edgeBound : Nat
  edges_le : (decls.toList.flatMap fun entry => entry.2.supertypes).length ≤ edgeBound

namespace Registry

def empty : Registry where
  decls := ∅
  edgeBound := 0
  edges_le := by decide

private theorem flatMap_filter_le {α β : Type} (f : α → List β) (keep : α → Bool) (xs : List α) :
    ((xs.filter keep).flatMap f).length ≤ (xs.flatMap f).length := by
  induction xs with
  | nil => exact Nat.le_refl _
  | cons x xs ih =>
    by_cases h : keep x <;> simp only [List.filter_cons, h, List.flatMap_cons, List.length_append,
      if_true, if_false, Bool.false_eq_true] <;> omega

/-- Adds a declaration, in place of an earlier one of that name. -/
def register (registry : Registry) (d : ClassDecl) : Registry where
  decls := registry.decls.insert d.ref.name d
  edgeBound := d.supertypes.length + registry.edgeBound
  edges_le := by
    rw [(Std.TreeMap.toList_insert_perm.flatMap_right _).length_eq, List.flatMap_cons,
      List.length_append]
    exact Nat.add_le_add_left (Nat.le_trans (flatMap_filter_le _ _ _) registry.edges_le) _

/-- The registry before anything is declared by hand. -/
def core : Registry :=
  ([ClassRef.object, .cloneable, .serializable] ++ Primitive.all.map Primitive.toClass).foldl
    (fun registry c => registry.register (.of c)) empty

instance : Inhabited Registry := ⟨core⟩

def get? (registry : Registry) (name : String) : Option ClassRef :=
  registry.decls[name]?.map ClassDecl.ref

def contains (registry : Registry) (name : String) : Bool := registry.decls.contains name

def size (registry : Registry) : Nat := registry.decls.size

def decl? (registry : Registry) (c : ClassRef) : Option ClassDecl := registry.decls[c.name]?

/-- The superclass edge. Every array class has the root class above it. -/
def superclass? (registry : Registry) : ClassRef → Option Ty
  | .array _ _ => some .object
  | .named name _ => registry.decls[name]?.bind ClassDecl.superclass?

/-- The interface edges in the order of declaration. -/
def interfaces (registry : Registry) : ClassRef → List Ty
  | .array _ _ => [.cls .cloneable, .cls .serializable]
  | .named name _ => (registry.decls[name]?.map ClassDecl.interfaces).getD []

/-- All edges, the superclass first. -/
def directSupertypes (registry : Registry) (c : ClassRef) : List Ty :=
  (registry.superclass? c).toList ++ registry.interfaces c

def parameters (registry : Registry) (c : ClassRef) : List TyVar :=
  ((registry.decl? c).map ClassDecl.parameters).getD []

def enclosing? (registry : Registry) (c : ClassRef) : Option ClassRef :=
  (registry.decl? c).bind ClassDecl.enclosing?

/-- Whether a class is a static nested class, whose instances belong to no instance of the
enclosing class. -/
def isStatic (registry : Registry) (c : ClassRef) : Bool :=
  ((registry.decl? c).map ClassDecl.isStatic).getD false

end Registry

end Generics
