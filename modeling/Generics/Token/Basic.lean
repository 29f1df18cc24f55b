import Generics.Primitive
import Generics.Substitution.Covariant
import Generics.Visit.Occurrence

/-!
Tokens: a type together with the bindings of the scope in which it was written. Two tokens are
equal when their types are; the scope goes along with everything that is derived from a token.
-/

namespace Generics

structure Token where
  type : Ty
  scope : Substitution

namespace Token

instance : BEq Token := ⟨fun a b => a.type == b.type⟩

def ofType (t : Ty) : Token := ⟨t, .empty⟩

/-- A token of another type, written in the same scope. -/
def derive (token : Token) (t : Ty) : Token := { token with type := t }

def text (token : Token) : String := "TypeToken(" ++ token.type.text ++ ")"

def rawType (env : Env) (token : Token) : ClassRef := env.erase token.type

def component? (token : Token) : Option Token := token.type.component?.map token.derive

/-- The token of the class that boxes a primitive. -/
def wrapper? (token : Token) : Option Token :=
  token.type.class?.bind fun c => c.wrapper?.map fun d => token.derive (.cls d)

/-- The token of the primitive that a class boxes. -/
def boxed? (token : Token) : Option Token :=
  token.type.class?.bind fun c => c.boxed?.map fun d => token.derive (.cls d)

/-! ## Direct supertypes -/

/-- A direct supertype as it is found: an edge of the raw class, which is resolved with the
covariant bindings of the type, or a bound of an open type, which stands as it is. -/
inductive DirectSupertype where
  | edge (t : Ty)
  | bound (t : Ty)

def DirectSupertype.isEdge : DirectSupertype → Bool
  | edge _ => true
  | bound _ => false

/-- The superclass edge. An open type has its first upper bound instead, unless that is an
interface. -/
def directSuperclass? (env : Env) (token : Token) : Option DirectSupertype :=
  match env.upperBounds? token.type with
  | some bounds =>
    (bounds.head?.filter fun bound => !(env.erase bound).isInterface).map .bound
  | none => (env.classes.superclass? (token.rawType env)).map .edge

/-- The interface edges. An open type has those of its upper bounds that are interfaces. -/
def directInterfaces (env : Env) (token : Token) : List DirectSupertype :=
  match env.upperBounds? token.type with
  | some bounds => (bounds.filter fun bound => (env.erase bound).isInterface).map .bound
  | none => (env.classes.interfaces (token.rawType env)).map .edge

/-- The token of a direct supertype, given the covariant bindings. -/
def resolveDirect (covariant : Substitution) (token : Token) : DirectSupertype → Token
  | .edge t => token.derive (covariant.resolve t)
  | .bound t => token.derive t

/-- The resolved superclass. -/
def superclass? (env : Env) (token : Token) : Option Token :=
  (token.directSuperclass? env).map (token.resolveDirect (env.covariantly token.type))

/-- The resolved interfaces. -/
def interfaces (env : Env) (token : Token) : List Token :=
  (token.directInterfaces env).map (token.resolveDirect (env.covariantly token.type))

/-! ## Substitution -/

/-- A type resolved for this token, given the covariant bindings: those come first, and the
bindings of the scope add the variables that they leave open. -/
def resolveTypeWith (covariant : Substitution) (token : Token) (t : Ty) : Token :=
  token.derive ((covariant.absorb token.scope).resolve t)

def resolveType (env : Env) (token : Token) (t : Ty) : Token :=
  token.resolveTypeWith (env.covariantly token.type) t

/-- The token with a variable replaced by a type. A variable in its own place changes nothing,
and a type that contains the variable cannot take its place. -/
def replacing (token : Token) (v : TyVar) (value : Ty) : Except TypeFault Token :=
  if Substitution.isVariable v value then .ok token
  else if value.mentions v then .error (.cyclic v value)
  else
    match token.scope.bind v value with
    | .error fault => .error (.unmatched fault)
    | .ok scope => .ok ⟨scope.resolve token.type, scope⟩

end Token

end Generics
