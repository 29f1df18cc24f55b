import Generics.Proofs.Resolvers

/-!
A variable that stands in several places of a shape. Outside of wildcards each
place of the shape faces one place of the type, and a match that goes through
binds the variable to what it faces, once and for all. So the variable cannot
face two different types, with one exception: where it faces itself, nothing is
bound, and nothing keeps it from being bound to a second type.
-/

namespace Generics

open Ty (Same Occurs)

namespace Substitution

variable {σ τ θ : Substitution} {shape actual s t u w a b : Ty} {v x y : TyVar}

/-! ## What is bound stays bound -/

/-- A match that goes through keeps what is bound. -/
def Extends (σ : Substitution) (result : Except MatchFault Substitution) : Prop :=
  ∀ τ, result = .ok τ → σ.PartOf τ

theorem extends_ok (σ : Substitution) : Extends σ (.ok σ) := by
  rintro _ ⟨⟩
  exact fun _ _ => id

theorem extends_error (σ : Substitution) (fault : MatchFault) : Extends σ (.error fault) := by
  rintro _ ⟨⟩

theorem Extends.bind {result : Except MatchFault Substitution}
    {next : Substitution → Except MatchFault Substitution} (h : Extends σ result)
    (hnext : ∀ τ, Extends τ (next τ)) : Extends σ (result >>= next) := by
  cases result with
  | error fault => exact extends_error σ fault
  | ok τ => exact fun θ hθ => (h τ rfl).trans (hnext τ θ hθ)

theorem extends_bind (σ : Substitution) (v : TyVar) (t : Ty) : Extends σ (σ.bind v t) := by
  cases hself : isVariable v t with
  | true =>
      rw [Substitution.bind, hself]
      exact extends_ok σ
  | false =>
      cases hget : σ.get? v with
      | none =>
          rw [bind_unbound hself hget]
          rintro _ ⟨⟩ w u hu
          rw [get?_insertIfNew_or, hu]
          rfl
      | some existing =>
          rw [Substitution.bind, hself, hget]
          change Extends σ (if existing == t then .ok σ else .error _)
          split
          · exact extends_ok σ
          · exact extends_error σ _

theorem extends_unifyAll {shapes actuals : List Ty}
    (h : ∀ s ∈ shapes, ∀ (a : Ty) (σ : Substitution), Extends σ (unify s a σ)) :
    Extends σ (unifyAll shapes actuals σ) := by
  induction shapes generalizing actuals σ with
  | nil => exact extends_ok σ
  | cons shape shapes ih =>
      obtain ⟨hshape, hshapes⟩ := List.forall_mem_cons.mp h
      cases actuals with
      | nil => exact extends_ok σ
      | cons actual actuals => exact (hshape actual σ).bind fun _ => ih hshapes

theorem extends_unifyOwner {owner owner' : Option Ty}
    (h : ∀ o ∈ owner, ∀ (a : Ty) (σ : Substitution), Extends σ (unify o a σ)) :
    Extends σ (unifyOwner owner owner' σ) := by
  cases owner with
  | none => exact extends_ok σ
  | some o =>
      cases owner' with
      | none => exact extends_ok σ
      | some o' => exact h o rfl o' σ

theorem extends_unify (shape actual : Ty) (σ : Substitution) :
    Extends σ (unify shape actual σ) := by
  induction shape using Ty.parts generalizing actual σ with
  | cls c =>
      rw [unify.eq_def]
      split
      · exact extends_ok σ
      · cases actual with
        | wild _ _ => exact extends_ok σ
        | _ => exact extends_error σ _
  | param owner raw args ihowner ihargs =>
      rw [unify.eq_def]
      split
      · exact extends_ok σ
      · cases actual with
        | wild _ _ => exact extends_ok σ
        | param owner' raw' args' =>
            simp only
            split
            · exact extends_error σ _
            · exact (extends_unifyAll ihargs).bind fun _ => extends_unifyOwner ihowner
        | _ => exact extends_error σ _
  | array component ih =>
      by_cases hsame : Same (.array component) actual
      · rw [unify_of_same hsame]
        exact extends_ok σ
      · cases hwild : actual.isWildcard with
        | true =>
            cases actual with
            | wild _ _ =>
                rw [unify.eq_def, if_neg hsame]
                exact extends_ok σ
            | _ => cases hwild
        | false =>
            rw [unify_array_of_not_same hsame hwild]
            cases actual.component? with
            | none => exact extends_error σ _
            | some component' => exact ih component' σ
  | wild upper lower ihupper ihlower =>
      rw [unify.eq_def]
      split
      · exact extends_ok σ
      · cases actual with
        | wild upper' lower' =>
            simp only
            split
            · exact extends_error σ _
            · exact (extends_unifyAll ihupper).bind fun _ => extends_unifyAll ihlower
        | _ => exact extends_ok σ
  | var v =>
      rw [unify.eq_def]
      split
      · exact extends_ok σ
      · exact extends_bind σ v actual

/-! ## Places -/

/-- A part of a shape and the part of a type that it is matched with: the same
argument, the owners, the components. Neither is under a wildcard. -/
inductive Faces : Ty → Ty → Ty → Ty → Prop where
  | here (s t : Ty) : Faces s t s t
  | arg {owner raw args owner' raw' args' s t u w} (hmem : (s, t) ∈ args.zip args')
      (h : Faces s t u w) : Faces (.param owner raw args) (.param owner' raw' args') u w
  | owner {o raw args o' raw' args' u w} (h : Faces o o' u w) :
      Faces (.param (some o) raw args) (.param (some o') raw' args') u w
  | component {component actual component' u w} (hcomponent : actual.component? = some component')
      (h : Faces component component' u w) : Faces (.array component) actual u w

/-- Places of equal types are equal. -/
theorem Faces.same (h : Faces s t u w) (hsame : Same s t) : Same u w := by
  induction h with
  | here _ _ => exact hsame
  | arg hmem _ ih =>
      obtain ⟨_, _, _, heq, -, -, hall⟩ := Ty.same_param.mp hsame
      cases heq
      exact ih (List.forall₂_zip hall hmem)
  | owner _ ih =>
      obtain ⟨_, _, _, heq, -, howners, -⟩ := Ty.same_param.mp hsame
      cases heq
      cases howners with
      | some hsame => exact ih hsame
  | component hcomponent _ ih =>
      obtain ⟨_, rfl, hsame⟩ := Ty.same_array.mp hsame
      cases hcomponent
      exact ih hsame

theorem writable_component (ht : t.Writable) (h : t.component? = some u) : u.Writable := by
  cases ht with
  | cls _ =>
      obtain ⟨_, -, rfl⟩ := Option.map_eq_some_iff.mp h
      exact .cls trivial
  | array hcomponent =>
      cases h
      exact hcomponent
  | _ => cases h

theorem Faces.writable (h : Faces s t u w) (ht : t.Writable) : w.Writable := by
  induction h with
  | here _ _ => exact ht
  | arg hmem _ ih =>
      cases ht with
      | param _ _ hargs => exact ih (hargs _ (List.of_mem_zip hmem).2)
  | owner _ ih =>
      cases ht with
      | param howner _ _ => exact ih (howner _ rfl)
  | component hcomponent _ ih => exact ih (writable_component ht hcomponent)

/-! ## One value for a variable -/

/-- A variable is bound to a type, or it is this type. -/
def Values (τ : Substitution) (v : TyVar) (a : Ty) : Prop :=
  isVariable v a = true ∨ ∃ b, τ.get? v = some b ∧ Same b a

theorem Values.mono (h : Values σ v a) (hpart : σ.PartOf τ) : Values τ v a :=
  h.imp_right fun ⟨b, hb, hsame⟩ => ⟨b, hpart v b hb, hsame⟩

theorem isVariable_of_same (h : Same (.var v) a) : isVariable v a = true := by
  obtain ⟨w, rfl, hvw⟩ := Ty.same_var.mp h
  exact BEq.symm hvw

theorem values_of_bind (h : σ.bind v a = .ok τ) : Values τ v a := by
  cases hself : isVariable v a with
  | true => exact Or.inl hself
  | false =>
      right
      cases hget : σ.get? v with
      | none =>
          rw [bind_unbound hself hget] at h
          cases h
          exact ⟨a, by rw [get?_insertIfNew a hget, if_pos BEq.rfl], Ty.same_refl a⟩
      | some existing =>
          rw [Substitution.bind, hself, hget] at h
          change (if existing == a then Except.ok σ else Except.error _) = _ at h
          split at h
          · cases h
            exact ⟨existing, hget, ‹_›⟩
          · cases h

/-- The match of two lists contains the match of what stands in one place. -/
theorem unifyAll_place {shapes actuals : List Ty} (h : unifyAll shapes actuals σ = .ok τ)
    (hmem : (s, t) ∈ shapes.zip actuals) :
    ∃ σ' τ', unify s t σ' = .ok τ' ∧ τ'.PartOf τ := by
  induction shapes generalizing actuals σ with
  | nil => cases hmem
  | cons shape shapes ih =>
      cases actuals with
      | nil => cases hmem
      | cons actual actuals =>
          obtain ⟨σ', hfirst, hrest⟩ := ok_of_bind h
          rcases List.mem_cons.mp hmem with heq | hmem
          · cases heq
            exact ⟨σ, σ', hfirst, extends_unifyAll (fun s _ => extends_unify s) τ hrest⟩
          · exact ih hrest hmem

/-- A match that goes through gives a variable the type that it faces. -/
theorem Faces.values (hfaces : Faces shape actual (.var v) a)
    (h : unify shape actual σ = .ok τ) : Values τ v a := by
  generalize hu : Ty.var v = u at hfaces
  induction hfaces generalizing σ τ with
  | here s t =>
      subst hu
      by_cases hsame : Same (.var v) t
      · exact Or.inl (isVariable_of_same hsame)
      · rw [unify.eq_def, if_neg hsame] at h
        exact values_of_bind h
  | @arg owner raw args owner' raw' args' s t u w hmem hrest ih =>
      subst hu
      by_cases hsame : Same (.param owner raw args) (.param owner' raw' args')
      · exact Or.inl (isVariable_of_same ((Faces.arg hmem hrest).same hsame))
      · obtain ⟨-, -, θ, hargs, howner⟩ := ok_of_unify_param hsame h
        obtain ⟨σ', τ', hplace, hpart⟩ := unifyAll_place hargs hmem
        exact (ih hplace rfl).mono
          (hpart.trans (extends_unifyOwner (fun o _ => extends_unify o) τ howner))
  | @owner o raw args o' raw' args' u w hrest ih =>
      subst hu
      by_cases hsame : Same (.param (some o) raw args) (.param (some o') raw' args')
      · exact Or.inl (isVariable_of_same ((Faces.owner hrest).same hsame))
      · obtain ⟨-, -, θ, -, howner⟩ := ok_of_unify_param hsame h
        exact ih howner rfl
  | @component component actual component' u w hcomponent hrest ih =>
      subst hu
      by_cases hsame : Same (.array component) actual
      · exact Or.inl (isVariable_of_same ((Faces.component hcomponent hrest).same hsame))
      · have hwild : actual.isWildcard = false := by
          cases actual with
          | wild _ _ => cases hcomponent
          | _ => rfl
        rw [unify_array_of_not_same hsame hwild, hcomponent] at h
        exact ih h rfl

/-- Where a variable faces two different types, a match fails unless one of them is the
variable itself, and then the variable gets the other one. -/
theorem unify_conflict (hactual : actual.Writable) (hxy : (x == y) = true)
    (ha : Faces shape actual (.var x) a) (hb : Faces shape actual (.var y) b)
    (hne : (a == b) = false) (σ : Substitution) :
    (isVariable x a = false → isVariable x b = false →
      ∃ fault, unify shape actual σ = .error fault) ∧
    ∀ τ, unify shape actual σ = .ok τ → ∃ c, τ.get? x = some c ∧
      (isVariable x a = true ∧ Same c b ∨ isVariable x b = true ∧ Same c a) := by
  have hdiffer : ¬Same a b := fun hsame => by
    rw [show (a == b) = true from hsame] at hne
    cases hne
  have hvalue : ∀ τ, unify shape actual σ = .ok τ → ∃ c, τ.get? x = some c ∧
      (isVariable x a = true ∧ Same c b ∨ isVariable x b = true ∧ Same c a) := by
    intro τ hτ
    have hvalueA : Values τ x a := ha.values hτ
    have hvalueB : Values τ x b := by
      refine (hb.values hτ).imp (fun hself => ?_) fun ⟨c, hc, hsame⟩ => ?_
      · cases b with
        | var z => exact BEq.trans hself (BEq.symm hxy)
        | _ => cases hself
      · exact ⟨c, (get?_of_beq τ hxy).trans hc, hsame⟩
    rcases hvalueA with hselfA | ⟨c, hc, hcA⟩
    · rcases hvalueB with hselfB | ⟨c, hc, hcB⟩
      · refine absurd ?_ hdiffer
        cases a with
        | var z =>
            cases b with
            | var z' => exact Ty.same_var.mpr ⟨z', rfl, BEq.trans hselfA (BEq.symm hselfB)⟩
            | _ => cases hselfB
        | _ => cases hselfA
      · exact ⟨c, hc, Or.inl ⟨hselfA, hcB⟩⟩
    · rcases hvalueB with hselfB | ⟨c', hc', hcB⟩
      · exact ⟨c, hc, Or.inr ⟨hselfB, hcA⟩⟩
      · obtain rfl := Option.some.inj (hc.symm.trans hc')
        have hwritable := Ty.writable_of_same (ha.writable hactual) hcA
        exact absurd (Ty.same_trans (Ty.same_symm hwritable hcA) hcB) hdiffer
  refine ⟨fun hselfA hselfB => ?_, hvalue⟩
  cases hunify : unify shape actual σ with
  | error fault => exact ⟨fault, rfl⟩
  | ok τ =>
      obtain ⟨_, -, ⟨hself, -⟩ | ⟨hself, -⟩⟩ := hvalue τ hunify
      · rw [hselfA] at hself
        cases hself
      · rw [hselfB] at hself
        cases hself

/-! ## Tables -/

/-- The rows of a table are its cells. -/
def squareShape : Ty := .param none tableClass [.var cellVar, .var cellVar]

theorem faces_rows (first second : Ty) :
    Faces squareShape (.param none tableClass [first, second]) (.var cellVar) first :=
  .arg List.mem_cons_self (.here _ _)

theorem faces_cells (first second : Ty) :
    Faces squareShape (.param none tableClass [first, second]) (.var cellVar) second :=
  .arg (List.mem_cons_of_mem _ List.mem_cons_self) (.here _ _)

theorem unify_conflict_table :
    ∃ fault, unify squareShape (.param none tableClass [Env.stringType, .object]) .empty =
      .error fault := by
  have hactual : (Ty.param none tableClass [Env.stringType, .object]).Writable := by
    refine .param nofun trivial ?_
    simp only [List.forall_mem_cons]
    exact ⟨.cls trivial, .cls trivial, List.forall_mem_nil _⟩
  exact (unify_conflict hactual BEq.rfl (faces_rows _ _) (faces_cells _ _) (by decide) _).1 rfl rfl

/-- Rows that are still cells do not keep the cells from being strings. -/
theorem unify_conflict_unnoticed : ¬∀ (shape actual : Ty) (v w : TyVar) (a b : Ty),
    shape.Formed (fun _ => True) → actual.Formed (fun _ => True) → (v == w) = true →
    Faces shape actual (.var v) a → Faces shape actual (.var w) b → (a == b) = false →
    ∃ fault, unify shape actual .empty = .error fault := by
  intro hclaim
  have hformed : ∀ t : Ty, t.Formed (fun _ => True) →
      (Ty.param none tableClass [.var cellVar, t]).Formed fun _ => True := by
    intro t ht
    refine .param nofun trivial ?_
    simp only [List.forall_mem_cons]
    exact ⟨.var cellVar, ht, List.forall_mem_nil _⟩
  obtain ⟨fault, hfault⟩ := hclaim squareShape
    (.param none tableClass [.var cellVar, Env.stringType]) cellVar cellVar _ _
    (hformed _ (.var cellVar)) (hformed _ (.cls trivial)) BEq.rfl
    (faces_rows _ _) (faces_cells _ _) (by decide)
  have hunify : unify squareShape (.param none tableClass [.var cellVar, Env.stringType]) .empty =
      .ok ⟨[(cellVar, Env.stringType)]⟩ := rfl
  rw [hunify] at hfault
  cases hfault

end Substitution

end Generics
