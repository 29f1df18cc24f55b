/-!
The bounds on work. Type graphs may refer to themselves (the bound of a variable may mention
the variable), so every walk over them has a bound, and a walk that is cut off finds no
relation. Each bound is a constant, shared by all computations of its kind.
-/

namespace Generics.Limits

/-- Nesting of one structural visit of a type. -/
def visitDepth : Nat := 100

/-- Nesting of subtype and containment questions. -/
def subtypeDepth : Nat := 100

/-- Nesting of the collection of all supertypes of a type. -/
def closureDepth : Nat := 64

/-- Hops from a variable or wildcard to its first bound, or from an array to its component,
that an erasure follows before it answers with the root class. -/
def erasureHops : Nat := 64

/-- Attempts to enter a key that one recursion guard grants. -/
def attempts : Nat := 100000

/-- Types taken from the queue while the supertype graph is searched for one class. -/
def walkSteps : Nat := 10000

/-- The number of supertypes that a type is expected to have, for those who store them. -/
def closureSizeHint : Nat := 16

/-- The largest number of attempts that a recursion guard counts; it stays there. -/
def countedAttempts : Nat := 0xFFFFFFFF

end Generics.Limits
