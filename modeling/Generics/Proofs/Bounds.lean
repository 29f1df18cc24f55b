import Generics.Proofs.Rules

/-!
Chains of bounds. A chain goes from a variable or a wildcard to one of its
upper bounds, and from an array to its component. Where every chain comes to an
end, none returns to a type that it passed, up to equality, and none returns to
the bounds of a variable; so no chain is longer than the nodes of a type and of
all bounds together.
-/

namespace Generics

namespace BoundTable

/-- The number of nodes of the bounds in one cell. -/
def cellSize (table : BoundTable) (cell : Nat) : Nat :=
  Ty.sizeList ((table.cells[cell]?.getD none).getD [])

theorem foldl_size (cells : List (Option (List Ty))) :
    cells.foldl (fun n bounds => n + Ty.sizeList (bounds.getD [])) 0 =
      ∑ cell ∈ Finset.range cells.length,
        Ty.sizeList ((cells[cell]?.getD none).getD []) := by
  induction cells using List.reverseRecOn with
  | nil => rfl
  | append_singleton cells last ih =>
      rw [List.foldl_append, List.foldl_cons, List.foldl_nil, ih, List.length_append,
        List.length_singleton, Finset.sum_range_succ]
      congr 1
      · apply Finset.sum_congr rfl
        intro cell hcell
        rw [List.getElem?_append_left (Finset.mem_range.mp hcell)]
      · simp

theorem size_eq (table : BoundTable) :
    table.size = ∑ cell ∈ Finset.range table.cells.size, table.cellSize cell := by
  obtain ⟨⟨cells⟩⟩ := table
  rw [size, List.foldl_toArray, foldl_size]
  simp only [cellSize, List.getElem?_toArray, List.size_toArray]

/-- The nodes of the bounds that are not in given cells. -/
def sizeBeside (table : BoundTable) (used : Finset Nat) : Nat :=
  ∑ cell ∈ Finset.range table.cells.size \ used, table.cellSize cell

theorem sizeBeside_empty (table : BoundTable) : table.sizeBeside ∅ = table.size := by
  rw [sizeBeside, Finset.sdiff_empty, size_eq]

theorem sizeBeside_insert {table : BoundTable} {used : Finset Nat} {cell : Nat}
    (hcell : cell < table.cells.size) (hused : cell ∉ used) :
    table.sizeBeside used = table.cellSize cell + table.sizeBeside (insert cell used) := by
  have hmem : cell ∈ Finset.range table.cells.size \ used :=
    Finset.mem_sdiff.mpr ⟨Finset.mem_range.mpr hcell, hused⟩
  rw [sizeBeside, sizeBeside, ← Finset.add_sum_erase _ _ hmem, Finset.sdiff_insert]

end BoundTable

namespace Env

/-- Every chain from a type comes to an end, at a class or at a parameterized type
of a class that is no array. -/
inductive Founded (env : Env) : Ty → Prop where
  | cls (c) : Founded env (.cls c)
  | param {owner raw args} (h : raw.isArray = false) : Founded env (.param owner raw args)
  | array {component} (h : Founded env component) : Founded env (.array component)
  | bounds {t bounds} (ht : env.upperBounds? t = some bounds)
      (h : ∀ b ∈ bounds, Founded env b) : Founded env t

/-- No chain from a type has more than `n` members. -/
def Ends (env : Env) : Nat → Ty → Prop
  | 0, _ => False
  | n + 1, t => (∀ bounds, env.upperBounds? t = some bounds → ∀ b ∈ bounds, env.Ends n b) ∧
      ∀ component, t = .array component → env.Ends n component

variable {env : Env} {s t y z : Ty} {c : ClassRef} {m n : Nat}

theorem ends_succ (h : env.Ends n t) : env.Ends (n + 1) t := by
  induction n generalizing t with
  | zero => cases h
  | succ n ih =>
      exact ⟨fun bounds hbounds b hb => ih (h.1 bounds hbounds b hb),
        fun component hcomponent => ih (h.2 component hcomponent)⟩

theorem ends_mono (h : env.Ends m t) (hmn : m ≤ n) : env.Ends n t := by
  induction n, hmn using Nat.le_induction with
  | base => exact h
  | succ n _ ih => exact ends_succ ih

theorem ends_of_raw? (h : t.raw? = some c) : env.Ends (n + 1) t := by
  constructor
  · intro bounds hbounds
    rw [upperBounds?_of_raw? h] at hbounds
    cases hbounds
  · rintro component rfl
    cases h

theorem ends_array (h : env.Ends n t) : env.Ends (n + 1) (.array t) := by
  constructor
  · intro bounds hbounds
    cases hbounds
  · intro component hcomponent
    cases hcomponent
    exact h

theorem ends_bounds {bounds : List Ty} (ht : env.upperBounds? t = some bounds)
    (h : ∀ b ∈ bounds, env.Ends n b) : env.Ends (n + 1) t := by
  constructor
  · intro bounds' hbounds
    cases ht.symm.trans hbounds
    exact h
  · rintro component rfl
    cases ht

theorem exists_ends_list {ts : List Ty} (h : ∀ t ∈ ts, ∃ n, env.Ends n t) :
    ∃ n, ∀ t ∈ ts, env.Ends n t := by
  induction ts with
  | nil => exact ⟨0, fun t ht => absurd ht List.not_mem_nil⟩
  | cons t ts ih =>
      obtain ⟨m, hm⟩ := h t List.mem_cons_self
      obtain ⟨n, hn⟩ := ih fun u hu => h u (List.mem_cons_of_mem t hu)
      refine ⟨max m n, ?_⟩
      intro u hu
      rcases List.mem_cons.mp hu with rfl | hu
      · exact ends_mono hm (le_max_left m n)
      · exact ends_mono (hn u hu) (le_max_right m n)

theorem Founded.bound {bounds : List Ty} {b : Ty} (h : env.Founded t)
    (hopen : env.upperBounds? t = some bounds) (hb : b ∈ bounds) : env.Founded b := by
  cases h with
  | bounds hopen' h =>
      cases hopen.symm.trans hopen'
      exact h b hb
  | _ => cases hopen

theorem Founded.component {component : Ty} (h : env.Founded t)
    (hcomponent : t.component? = some component) : env.Founded component := by
  cases h with
  | cls c =>
      obtain ⟨d, -, rfl⟩ := Option.map_eq_some_iff.mp hcomponent
      exact .cls d
  | array h =>
      obtain rfl := Option.some.inj hcomponent
      exact h
  | param _ => cases hcomponent
  | bounds hopen _ =>
      cases t with
      | wild _ _ => cases hcomponent
      | var _ => cases hcomponent
      | _ => cases hopen

theorem Founded.exists_ends (h : env.Founded t) : ∃ n, env.Ends n t := by
  induction h with
  | cls c => exact ⟨1, ends_of_raw? (c := c) rfl⟩
  | param _ => exact ⟨1, ends_of_raw? rfl⟩
  | array _ ih =>
      obtain ⟨n, hn⟩ := ih
      exact ⟨n + 1, ends_array hn⟩
  | bounds ht _ ih =>
      obtain ⟨n, hn⟩ := exists_ends_list ih
      exact ⟨n + 1, ends_bounds ht hn⟩

/-! ## No chain returns -/

/-- The chains from `y` are shorter than those from `z`, as when a chain from
`z` passes `y`. -/
def Nearer (env : Env) (y z : Ty) : Prop := ∀ n, env.Ends (n + 1) z → env.Ends n y

theorem nearer_of_bound {bounds : List Ty} (hz : env.upperBounds? z = some bounds)
    (hy : y ∈ bounds) : env.Nearer y z :=
  fun _ h => h.1 bounds hz y hy

theorem nearer_component (t : Ty) : env.Nearer t (.array t) :=
  fun _ h => h.2 t rfl

theorem Nearer.trans {x : Ty} (h : env.Nearer x y) (h' : env.Nearer y z) : env.Nearer x z :=
  fun n hn => h n (ends_succ (h' n hn))

/-- Types whose chains are equally long, as those of equal types are, are not
nearer than each other. -/
theorem not_nearer (hz : env.Ends n z) (hyz : ∀ n, env.Ends n y → env.Ends n z) :
    ¬env.Nearer y z := by
  intro hnearer
  induction n with
  | zero => exact hz
  | succ n ih => exact ih (hyz n (hnearer n hz))

section

open Vocabulary

variable {w : Vocabulary env}

/-- Equal types of a vocabulary have chains of the same length. -/
theorem ends_alike (h : w.Alike s t) (hs : env.Ends n s) : env.Ends n t := by
  induction n generalizing s t with
  | zero => cases hs
  | succ n ih =>
      cases h.1 with
      | cls _ =>
          rw [alike_cls h]
          exact hs
      | param _ _ _ =>
          obtain ⟨_, _, rfl, -⟩ := alike_param h
          exact ends_of_raw? rfl
      | array _ =>
          obtain ⟨_, rfl, hcomponent⟩ := alike_array h
          exact ends_array (ih hcomponent (hs.2 _ rfl))
      | wildUpper _ =>
          obtain ⟨upper', rfl, hupper⟩ := alike_wildUpper h
          refine ends_bounds rfl fun b hb => ?_
          rw [List.mem_singleton.mp hb]
          exact ih hupper (hs.1 _ rfl _ List.mem_cons_self)
      | wildLower _ _ =>
          obtain ⟨upper', _, rfl, hupper, -⟩ := alike_wildLower h
          refine ends_bounds rfl fun b hb => ?_
          rw [List.mem_singleton.mp hb]
          exact ih hupper (hs.1 _ rfl _ List.mem_cons_self)
      | var _ =>
          obtain ⟨v', rfl, hbounds⟩ := alike_var h
          refine ends_bounds rfl fun b hb => ?_
          obtain ⟨a, ha, hab⟩ := forall₂_mem_left (effective_alike hbounds).flip hb
          exact ih hab (hs.1 _ rfl a ha)

theorem bound_writes {bounds : List Ty} (ht : w.Writes t)
    (hopen : env.upperBounds? t = some bounds) {b : Ty} (hb : b ∈ bounds) : w.Writes b := by
  cases t with
  | wild upper lower =>
      obtain rfl := Option.some.inj hopen
      exact (writes_bounds ht).1 b hb
  | var v =>
      obtain rfl := Option.some.inj hopen
      cases ht with
      | var hv => exact effective_writes hv b hb
  | _ => cases hopen

/-- No chain passes a type that is equal to an earlier one. -/
theorem not_nearer_alike (hz : env.Ends n z) (h : w.Alike y z) : ¬env.Nearer y z :=
  not_nearer hz fun _ => ends_alike h

end

/-! ## The length of chains -/

/-- Chains from the bounds in a cell. -/
theorem ends_of_cell {v v' : TyVar} (hcell : v.cell = v'.cell) (h : env.Ends n (.var v)) :
    env.Ends n (.var v') := by
  cases n with
  | zero => cases h
  | succ n =>
      refine ends_bounds rfl fun b hb => h.1 _ rfl b ?_
      simpa only [BoundTable.effective, BoundTable.declared, hcell] using hb

theorem size_le_sizeList {ts : List Ty} (ht : t ∈ ts) : t.size ≤ Ty.sizeList ts := by
  induction ts with
  | nil => cases ht
  | cons s ts ih =>
      rw [Ty.sizeList]
      rcases List.mem_cons.mp ht with rfl | hrest
      · exact Nat.le_add_right _ _
      · exact (ih hrest).trans (Nat.le_add_left _ _)

theorem ends_sizeBeside (used : Finset Nat) (h : env.Ends n t)
    (hused : ∀ v : TyVar, v.cell ∈ used → env.Nearer t (.var v)) :
    env.Ends (t.size + env.bounds.sizeBeside used + 1) t := by
  induction n generalizing t used with
  | zero => cases h
  | succ n ih =>
      cases t with
      | cls c => exact ends_of_raw? rfl
      | param owner raw args => exact ends_of_raw? rfl
      | array component =>
          apply ends_array
          refine ends_mono (ih used (h.2 component rfl)
            fun v hv => (nearer_component component).trans (hused v hv)) ?_
          rw [Ty.size]
          omega
      | wild upper lower =>
          refine ends_bounds rfl fun b hb => ?_
          refine ends_mono (ih used (h.1 upper rfl b hb) fun v hv =>
            (nearer_of_bound rfl hb).trans (hused v hv)) ?_
          have hle := size_le_sizeList hb
          rw [Ty.size]
          omega
      | var v =>
          refine ends_bounds rfl fun b hb => ?_
          cases hdeclared : env.bounds.declared v with
          | nil =>
              rw [BoundTable.effective, hdeclared] at hb
              rw [List.mem_singleton.mp hb, Ty.size, Nat.add_comm 1]
              exact ends_of_raw? rfl
          | cons first rest =>
              have heffective : env.bounds.effective v = env.bounds.declared v := by
                rw [BoundTable.effective, hdeclared]
              -- a cell is not met again: its bounds would be nearer than themselves
              have hfresh : v.cell ∉ used := fun hmem =>
                not_nearer h (fun _ => id) (hused v hmem)
              have hcell : v.cell < env.bounds.cells.size := by
                by_contra hout
                rw [BoundTable.declared, Array.getElem?_eq_none (not_lt.mp hout)] at hdeclared
                cases hdeclared
              have hsize : b.size ≤ env.bounds.cellSize v.cell := by
                rw [heffective] at hb
                exact size_le_sizeList hb
              have hnear : env.Nearer b (.var v) := nearer_of_bound rfl hb
              refine ends_mono (ih (insert v.cell used) (h.1 _ rfl b hb) ?_) ?_
              · intro v' hv'
                rcases Finset.mem_insert.mp hv' with heq | hmem
                · exact fun n hn => hnear n (ends_of_cell heq hn)
                · exact hnear.trans (hused v' hmem)
              · rw [Ty.size, BoundTable.sizeBeside_insert hcell hfresh]
                omega

/-- A chain is no longer than the nodes of the type and of all bounds, and the
root class that bounds a variable without bounds. -/
theorem ends_reach (h : env.Ends n t) : env.Ends (env.reach t + 1) t := by
  have hends := ends_sizeBeside ∅ h fun v hv => absurd hv (Finset.notMem_empty _)
  rw [BoundTable.sizeBeside_empty] at hends
  exact hends

end Env

end Generics
