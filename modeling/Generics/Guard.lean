import Generics.Limits

/-!
The recursion guard: the keys that are being worked on, with a bound on their number and on the
attempts to enter one. A key that is entered again while it is held is a cycle; this is how a
walk through a bound that mentions its own variable comes to an end.
-/

namespace Generics

/-- The computations that have limits of their own. -/
inductive Profile where
  | visit
  | subtyping
  | closure
  deriving DecidableEq

namespace Profile

def maxDepth : Profile → Nat
  | visit => Limits.visitDepth
  | subtyping => Limits.subtypeDepth
  | closure => Limits.closureDepth

/-- The bound on attempts is the same for all. -/
def maxIterations (_ : Profile) : Nat := Limits.attempts

end Profile

/-- How an attempt to enter a key ends. -/
inductive Entry where
  | entered
  | cycle
  | depthExceeded
  | iterationExceeded
  deriving DecidableEq

/-- Keys that compare equal count as one. -/
structure Guard (κ : Type) where
  maxDepth : Nat
  maxIterations : Nat
  /-- The keys entered and not yet left, the last one first. -/
  held : List κ
  /-- Attempts to enter, whatever came of them. -/
  attempts : Nat
  /-- Attempts that a limit turned down. -/
  refusals : Nat
  /-- Attempts to leave a key that was not held. -/
  strays : Nat

namespace Guard

variable {κ : Type}

def ofProfile (profile : Profile) : Guard κ where
  maxDepth := profile.maxDepth
  maxIterations := profile.maxIterations
  held := []
  attempts := 0
  refusals := 0
  strays := 0

def depth (g : Guard κ) : Nat := g.held.length

def isActive (g : Guard κ) : Bool := !g.held.isEmpty

variable [BEq κ]

/-- The number of attempts after one more. -/
def nextAttempts (g : Guard κ) : Nat := min (g.attempts + 1) Limits.countedAttempts

/-- How the next attempt ends if it is for a given key. The budget of attempts is asked first,
then whether the key is held, then the depth. -/
def judge (g : Guard κ) (key : κ) : Entry :=
  if g.maxIterations < g.nextAttempts then .iterationExceeded
  else if g.held.contains key then .cycle
  else if g.maxDepth ≤ g.depth then .depthExceeded
  else .entered

/-- The guard after an attempt that ended in a given way. -/
def record (g : Guard κ) (key : κ) : Entry → Guard κ
  | .entered => { g with attempts := g.nextAttempts, held := key :: g.held }
  | .cycle => { g with attempts := g.nextAttempts }
  | .depthExceeded => { g with attempts := g.nextAttempts, refusals := g.refusals + 1 }
  | .iterationExceeded => { g with attempts := g.nextAttempts, refusals := g.refusals + 1 }

/-- Attempts to enter a key. -/
def enter (g : Guard κ) (key : κ) : Entry × Guard κ :=
  (g.judge key, g.record key (g.judge key))

/-- Leaves a key that is held. -/
def leave? (g : Guard κ) (key : κ) : Option (Guard κ) :=
  if g.held.contains key then some { g with held := g.held.erase key } else none

/-- Leaves a key; one that is not held is counted as a stray. -/
def leave (g : Guard κ) (key : κ) : Guard κ :=
  (g.leave? key).getD { g with strays := g.strays + 1 }

theorem held_enter {g : Guard κ} {key : κ} (h : (g.enter key).1 = .entered) :
    (g.enter key).2.held = key :: g.held := by
  change (g.record key (g.judge key)).held = _
  rw [show g.judge key = .entered from h]
  rfl

/-- A key that is turned down, or held already, leaves the held keys as they are. -/
theorem held_enter_of_ne {g : Guard κ} {key : κ} (h : (g.enter key).1 ≠ .entered) :
    (g.enter key).2.held = g.held := by
  change (g.record key (g.judge key)).held = _
  cases hjudge : g.judge key with
  | entered => exact absurd hjudge h
  | cycle => rfl
  | depthExceeded => rfl
  | iterationExceeded => rfl

/-- Entering a key and leaving it again is no change to the held keys. -/
theorem held_leave_enter [ReflBEq κ] {g : Guard κ} {key : κ}
    (h : (g.enter key).1 = .entered) : ((g.enter key).2.leave key).held = g.held := by
  have entered := held_enter h
  have isHeld : (g.enter key).2.held.contains key = true := by
    rw [entered, List.contains_cons, BEq.rfl, Bool.true_or]
  rw [leave, leave?, if_pos isHeld, Option.getD_some]
  change (g.enter key).2.held.erase key = g.held
  rw [entered, List.erase_cons, if_pos BEq.rfl]

end Guard

/-- Misuse of a guard by its owner. -/
inductive GuardFault where
  | leftUnheld
  | droppedHolding (keys : Nat)

def GuardFault.text : GuardFault → String
  | leftUnheld => "RecursionGuard::leave without a matching enter"
  | droppedHolding keys =>
    "RecursionGuard dropped with " ++ toString keys ++ " keys still in progress"

/-- What is wrong with giving up a guard now. -/
def Guard.dropFault? {κ : Type} (g : Guard κ) : Option GuardFault :=
  if g.isActive then some (.droppedHolding g.depth) else none

end Generics
