/-!
Raw classes. A class is known by its fully qualified name: two references with one name are
equal, whatever kind each of them carries. The kind travels with the reference, so that "is it
an interface, a primitive, an array" needs no table of classes.
-/

namespace Generics

inductive ClassKind where
  | ordinary
  | interface
  | primitive
  deriving DecidableEq

inductive ClassRef where
  | named (name : String) (kind : ClassKind)
  /-- An array class; its name is kept beside its component. -/
  | array (name : String) (component : ClassRef)

namespace ClassRef

def name : ClassRef → String
  | named name _ => name
  | array name _ => name

instance : BEq ClassRef := ⟨fun c d => c.name == d.name⟩

@[simp] theorem beq_iff_name {c d : ClassRef} : (c == d) = true ↔ c.name = d.name :=
  beq_iff_eq (a := c.name)

instance : EquivBEq ClassRef where
  rfl := by simp
  symm h := by simp_all
  trans h k := by simp_all

def rootName : String := "java.lang.Object"

def cloneableName : String := "java.lang.Cloneable"

def serializableName : String := "java.io.Serializable"

/-- The class above all reference types. -/
def object : ClassRef := named rootName .ordinary

instance : Inhabited ClassRef := ⟨object⟩

/-- The first of the two interfaces that every array has. -/
def cloneable : ClassRef := named cloneableName .interface

/-- The second of the two interfaces that every array has. -/
def serializable : ClassRef := named serializableName .interface

/-- The array class over a component: the component's name followed by a pair of brackets. -/
def arrayOf (component : ClassRef) : ClassRef :=
  array (component.name ++ "[]") component

@[simp] theorem name_arrayOf (c : ClassRef) : (arrayOf c).name = c.name ++ "[]" := rfl

def component? : ClassRef → Option ClassRef
  | named _ _ => none
  | array _ component => some component

def isArray : ClassRef → Bool
  | named _ _ => false
  | array _ _ => true

def isInterface : ClassRef → Bool
  | named _ kind => kind == .interface
  | array _ _ => false

def isPrimitive : ClassRef → Bool
  | named _ kind => kind == .primitive
  | array _ _ => false

/-- The root class is known by its name, like every class. -/
def isObject (c : ClassRef) : Bool := c.name == rootName

/-- Whether two references carry the same kind; the kind of an array class includes which
component it has. -/
def sameKind : ClassRef → ClassRef → Bool
  | named _ k, named _ l => k == l
  | array _ c, array _ d => c == d
  | _, _ => false

/-- Where a name has one kind among classes that include their components, it has one class. -/
theorem eq_of_name {known : ClassRef → Prop}
    (hcomponent : ∀ c, known c → ∀ d ∈ c.component?, known d)
    (hkind : ∀ c d, known c → known d → (c == d) = true → c.sameKind d = true) {c d : ClassRef}
    (hc : known c) (hd : known d) (hname : c.name = d.name) : c = d := by
  induction c generalizing d with
  | named name kind =>
      have hkinds := hkind _ _ hc hd (beq_iff_name.mpr hname)
      cases d with
      | named name' kind' =>
          obtain rfl : name = name' := hname
          obtain rfl : kind = kind' := by simpa [sameKind] using hkinds
          rfl
      | array _ _ => cases hkinds
  | array name component ih =>
      have hkinds := hkind _ _ hc hd (beq_iff_name.mpr hname)
      cases d with
      | named _ _ => cases hkinds
      | array name' component' =>
          obtain rfl : name = name' := hname
          obtain rfl := ih (hcomponent _ hc _ rfl) (hcomponent _ hd _ rfl)
            (beq_iff_name.mp hkinds)
          rfl

/-- The name without the packages and enclosing classes in front of it: what follows the last
point or dollar sign. -/
def simpleName (c : ClassRef) : String :=
  String.ofList ((c.name.toList.reverse.takeWhile fun x => x != '.' && x != '$').reverse)

instance : ToString ClassRef := ⟨name⟩

end ClassRef

end Generics
