import Generics.ClassRef

/-!
The primitive classes and the class that boxes each of them.
-/

namespace Generics

inductive Primitive where
  | boolean
  | byte
  | char
  | short
  | int
  | long
  | float
  | double
  | void
  deriving DecidableEq

namespace Primitive

/-- In the order in which a registry lists them. -/
def all : List Primitive := [boolean, byte, char, short, int, long, float, double, void]

def name : Primitive → String
  | boolean => "boolean"
  | byte => "byte"
  | char => "char"
  | short => "short"
  | int => "int"
  | long => "long"
  | float => "float"
  | double => "double"
  | void => "void"

def wrapperName : Primitive → String
  | boolean => "java.lang.Boolean"
  | byte => "java.lang.Byte"
  | char => "java.lang.Character"
  | short => "java.lang.Short"
  | int => "java.lang.Integer"
  | long => "java.lang.Long"
  | float => "java.lang.Float"
  | double => "java.lang.Double"
  | void => "java.lang.Void"

def toClass (p : Primitive) : ClassRef := .named p.name .primitive

def wrapper (p : Primitive) : ClassRef := .named p.wrapperName .ordinary

theorem mem_all (p : Primitive) : p ∈ all := by cases p <;> decide

end Primitive

/-- The class that boxes a primitive; other classes have none. -/
def ClassRef.wrapper? (c : ClassRef) : Option ClassRef :=
  if c.isPrimitive then
    (Primitive.all.find? fun p => p.name == c.name).map Primitive.wrapper
  else
    none

/-- The primitive that a class boxes. A primitive or an interface boxes nothing, even under
the name of a boxing class. -/
def ClassRef.boxed? (c : ClassRef) : Option ClassRef :=
  if c.isPrimitive || c.isInterface then
    none
  else
    (Primitive.all.find? fun p => p.wrapperName == c.name).map Primitive.toClass

end Generics
