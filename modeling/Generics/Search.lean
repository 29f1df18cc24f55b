/-!
Breadth-first search with a budget of steps. A step takes one node from the queue, also a node
that was seen before. Looking at a node gives the goal or further nodes for the end of the
queue, and the search says whether it found the goal, went through all nodes, or ran out of
steps.
-/

namespace Generics

/-- A queue in two parts, so that both ends are cheap: the front in order, the back in reverse
order. -/
structure Queue (α : Type) where
  front : List α
  back : List α

namespace Queue

variable {α : Type}

/-- The elements, the next one first. -/
def toList (q : Queue α) : List α := q.front ++ q.back.reverse

def ofList (as : List α) : Queue α := ⟨as, []⟩

def pop? : Queue α → Option (α × Queue α)
  | ⟨a :: front, back⟩ => some (a, ⟨front, back⟩)
  | ⟨[], back⟩ =>
    match back.reverse with
    | [] => none
    | a :: front => some (a, ⟨front, []⟩)

def pushAll (q : Queue α) (as : List α) : Queue α := ⟨q.front, as.reverse ++ q.back⟩

@[simp] theorem toList_ofList (as : List α) : (ofList as).toList = as := by
  simp [ofList, toList]

@[simp] theorem toList_pushAll (q : Queue α) (as : List α) :
    (q.pushAll as).toList = q.toList ++ as := by
  simp [pushAll, toList]

theorem pop?_eq_none {q : Queue α} : q.pop? = none ↔ q.toList = [] := by
  obtain ⟨front, back⟩ := q
  cases front with
  | cons a front => simp [pop?, toList]
  | nil =>
    cases h : back.reverse <;> simp_all [pop?, toList]

theorem toList_of_pop? {q rest : Queue α} {a : α} (h : q.pop? = some (a, rest)) :
    q.toList = a :: rest.toList := by
  obtain ⟨front, back⟩ := q
  cases front with
  | cons b front =>
    obtain ⟨rfl, rfl⟩ : b = a ∧ ⟨front, back⟩ = rest := by simpa [pop?] using h
    rfl
  | nil =>
    cases hb : back.reverse with
    | nil => simp [pop?, hb] at h
    | cons b front =>
      obtain ⟨rfl, rfl⟩ : b = a ∧ ⟨front, []⟩ = rest := by simpa [pop?, hb] using h
      simp [toList, hb]

end Queue

/-- What looking at a node gives. -/
inductive Expansion (α β : Type) where
  | goal (b : β)
  | next (more : List α)

inductive Outcome (β : Type) where
  | found (b : β)
  | missing
  | outOfSteps

namespace Outcome

variable {β : Type}

def get? : Outcome β → Option β
  | found b => some b
  | missing => none
  | outOfSteps => none

def isFound : Outcome β → Bool
  | found _ => true
  | missing => false
  | outOfSteps => false

end Outcome

/-- Searches from the nodes of a queue. A node that equals a seen one is taken from the queue
and left aside. -/
def searchFrom {α β : Type} [BEq α] (expand : α → Expansion α β) :
    Nat → Queue α → List α → Outcome β
  | 0, queue, _ => if queue.toList.isEmpty then .missing else .outOfSteps
  | steps + 1, queue, seen =>
    match queue.pop? with
    | none => .missing
    | some (a, rest) =>
      if seen.contains a then searchFrom expand steps rest seen
      else
        match expand a with
        | .goal b => .found b
        | .next more => searchFrom expand steps (rest.pushAll more) (a :: seen)

/-- Searches from one node, in at most `steps` steps. -/
def search {α β : Type} [BEq α] (expand : α → Expansion α β) (steps : Nat) (start : α) :
    Outcome β :=
  searchFrom expand steps (.ofList [start]) []

end Generics
