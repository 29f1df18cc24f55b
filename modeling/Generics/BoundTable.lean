import Generics.Ty.Build

/-!
The bounds of type variables. A variable is declared first and may be given its bounds later,
once: a bound can then mention the variable that it constrains.
-/

namespace Generics

/-- One cell for each declared variable; a cell is empty until bounds are given. -/
structure BoundTable where
  cells : Array (Option (List Ty))

namespace BoundTable

def empty : BoundTable := ⟨#[]⟩

instance : Inhabited BoundTable := ⟨empty⟩

/-- A new variable without bounds, in a cell of its own. -/
def declare (table : BoundTable) (declaration : Declaration) (name : String) :
    TyVar × BoundTable :=
  (⟨table.cells.size, declaration, name⟩, ⟨table.cells.push none⟩)

/-- Gives a variable its bounds. The first bounds stay: a later attempt says `false` and
changes nothing. -/
def install (table : BoundTable) (v : TyVar) (bounds : List Ty) : Bool × BoundTable :=
  match table.cells[v.cell]? with
  | some none => (true, ⟨table.cells.setIfInBounds v.cell (some bounds)⟩)
  | _ => (false, table)

/-- A new variable with its bounds. -/
def declareBounded (table : BoundTable) (declaration : Declaration) (name : String)
    (bounds : List Ty) : TyVar × BoundTable :=
  let (v, table) := table.declare declaration name
  (v, (table.install v bounds).2)

/-- The bounds as they were given; none before that. -/
def declared (table : BoundTable) (v : TyVar) : List Ty :=
  (table.cells[v.cell]?.getD none).getD []

/-- The bounds that hold: a variable without bounds is bounded by the root class. -/
def effective (table : BoundTable) (v : TyVar) : List Ty :=
  match table.declared v with
  | [] => [.object]
  | bounds => bounds

@[simp] theorem declared_declare (table : BoundTable) (declaration : Declaration)
    (name : String) :
    (table.declare declaration name).2.declared (table.declare declaration name).1 = [] := by
  simp [declare, declared]

/-- A variable that is made with its bounds has them. -/
theorem declared_declareBounded (table : BoundTable) (declaration : Declaration)
    (name : String) (bounds : List Ty) :
    (table.declareBounded declaration name bounds).2.declared
      (table.declareBounded declaration name bounds).1 = bounds := by
  simp [declareBounded, declare, install, declared]

theorem install_of_free {table : BoundTable} {v : TyVar} (bounds : List Ty)
    (h : table.cells[v.cell]? = some none) :
    table.install v bounds = (true, ⟨table.cells.setIfInBounds v.cell (some bounds)⟩) := by
  rw [install, h]

theorem install_of_not_free {table : BoundTable} {v : TyVar} (bounds : List Ty)
    (h : table.cells[v.cell]? ≠ some none) : table.install v bounds = (false, table) := by
  unfold install
  split
  · contradiction
  · rfl

/-- The first bounds stay. -/
theorem install_install (table : BoundTable) (v : TyVar) (first second : List Ty) :
    (table.install v first).2.install v second = (false, (table.install v first).2) := by
  by_cases h : table.cells[v.cell]? = some none
  · rw [install_of_free first h]
    apply install_of_not_free
    obtain ⟨hsize, _⟩ := Array.getElem?_eq_some_iff.mp h
    simp [hsize]
  · rw [install_of_not_free first h]
    exact install_of_not_free second h

/-- The number of nodes of all bounds. -/
def size (table : BoundTable) : Nat :=
  table.cells.foldl (fun n bounds => n + Ty.sizeList (bounds.getD [])) 0

end BoundTable

end Generics
