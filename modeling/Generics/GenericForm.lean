import Generics.Registry

/-!
A class as it is seen from inside its own declaration: `List<E>` for `List`,
`Outer<T>.Inner<U>` for an inner class of a generic class, and the class itself where nothing
is generic.
-/

namespace Generics.Registry

/-- The generic form of a class, given that of the class around it. An inner class belongs to
the generic form of the outer class, a static one to the raw outer class; an array follows its
component. -/
def formWithin (registry : Registry) (outerForm : ClassRef → Ty) : ClassRef → Ty
  | .array name component =>
    match registry.formWithin outerForm component with
    | .cls _ => .cls (.array name component)
    | form => .array form
  | .named name kind =>
    let c := .named name kind
    let owner := (registry.enclosing? c).map fun outer =>
      if registry.isStatic c then .cls outer else outerForm outer
    let args := (registry.parameters c).map Ty.var
    if args.isEmpty && !(owner.any Ty.isParameterized) then .cls c else .param owner c args

/-- The generic form of a class, with at most `hops - 1` steps to an enclosing class. -/
def formSteps (registry : Registry) : Nat → ClassRef → Ty
  | 0, c => .cls c
  | hops + 1, c => registry.formWithin (registry.formSteps hops) c

/-- The generic form of a class. Each step outwards uses a declaration, so classes that are not
nested in themselves need no more steps than there are declarations. -/
def genericForm (registry : Registry) (c : ClassRef) : Ty :=
  registry.formSteps (registry.size + 1) c

end Generics.Registry
