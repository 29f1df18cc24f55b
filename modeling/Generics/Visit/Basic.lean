import Generics.Guard
import Generics.Ty.Build

/-!
Guarded traversal of types. A visit enters the type into a recursion guard, hands it to a
handler, and leaves it again; the handler says what is collected and which types are visited
next. A type that is being visited, or that a limit turns down, is passed over.

The guard bounds the nesting, so a visit that starts with nothing held needs one level more
than the guard admits, and never the level below that.
-/

namespace Generics

/-- A traversal under way: its guard, and what was collected so far. -/
structure Visit (σ : Type) where
  guard : Guard Ty
  acc : σ

/-- What happens at a type that was entered, given how to visit further types. -/
abbrev Handler (σ : Type) : Type := (Ty → Visit σ → Visit σ) → Ty → Visit σ → Visit σ

namespace Visit

variable {σ : Type}

def start (profile : Profile) (acc : σ) : Visit σ := ⟨.ofProfile profile, acc⟩

def modify (s : Visit σ) (f : σ → σ) : Visit σ := { s with acc := f s.acc }

/-- Visits one type, with a bound on the nesting. -/
def within (handle : Handler σ) : Nat → Ty → Visit σ → Visit σ
  | 0, _, s => s
  | levels + 1, t, s =>
    match s.guard.enter t with
    | (.entered, guard) =>
      let after := handle (within handle levels) t { s with guard }
      { after with guard := after.guard.leave t }
    | (_, guard) => { s with guard }

/-- Visits several types in order. -/
def all (visit : Ty → Visit σ → Visit σ) (ts : List Ty) (s : Visit σ) : Visit σ :=
  ts.foldl (fun s t => visit t s) s

/-- Visits a list of types one after the other, from a guard with nothing held. -/
def run (handle : Handler σ) (profile : Profile) (ts : List Ty) (acc : σ) : Visit σ :=
  all (within handle (profile.maxDepth + 1)) ts (start profile acc)

end Visit

end Generics
