import Generics.Proofs.Canonical
import Generics.Proofs.Kinds
import Generics.Proofs.Matching
import Generics.Proofs.RoundTrip

/-!
Resolvers composed, and resolvers found. To resolve with one resolver and then
with another is to resolve once, with the values of the first resolved by the
second. Unification finds the resolver that turns a shape into a type: it binds
the variables of the shape and no others, and fails only if there is no such
resolver. A class is compared by name, but an array shape goes only into array
classes.
-/

namespace Generics

namespace Ty

variable {isClass : ClassRef → Prop} {σ : Substitution} {s t : Ty} {v : TyVar}

/-- A type stays as it is when none of its variables is replaced. -/
theorem subst_eq_self (ht : t.Formed isClass)
    (h : ∀ v, Occurs v t → (var v).subst σ = var v) : t.subst σ = t := by
  induction ht with
  | cls _ => rfl
  | @param owner raw args _ _ _ ihowner ihargs =>
      rw [subst_param]
      congr 1
      · cases owner with
        | none => rfl
        | some o => rw [Option.map_some, ihowner o rfl fun v hv => h v (.owner hv)]
      · calc
          args.map (subst σ) = args.map id :=
            List.map_congr_left fun a ha => ihargs a ha fun v hv => h v (.arg ha hv)
          _ = args := List.map_id args
  | @array component _ hclass hwild ih =>
      rw [subst_array, ih fun v hv => h v (.component hv)]
      cases component with
      | cls _ => cases hclass
      | wild _ _ => cases hwild
      | _ => rfl
  | wildUpper _ ih =>
      rw [subst_wildUpper, ih fun v hv => h v (.upper List.mem_cons_self hv)]
  | wildLower _ _ ihupper ihlower =>
      rw [subst_wildLower, ihupper fun v hv => h v (.upper List.mem_cons_self hv),
        ihlower fun v hv => h v (.lower List.mem_cons_self hv)]
  | var v => exact h v (occurs_self v)

/-- For a type in canonical form the empty resolver is no exception. -/
theorem resolve_eq_subst (ht : t.Formed isClass) (σ : Substitution) :
    σ.resolve t = t.subst σ := by
  rw [Substitution.resolve]
  split
  · rename_i hempty
    refine (subst_eq_self ht fun v _ => ?_).symm
    have hnone : σ.get? v = none := by
      rw [Substitution.get?, List.isEmpty_iff.mp hempty]
      rfl
    rw [subst_var, hnone]
    rfl
  · rfl

/-! ## Equal types -/

/-- A type that is equal to one that can be written can itself be written. -/
theorem writable_of_same (ht : t.Writable) (h : Same s t) : s.Writable := by
  induction s using parts generalizing t with
  | cls _ => exact .cls trivial
  | param owner raw args ihowner ihargs =>
      obtain ⟨owner', raw', args', rfl, -, howners, hall⟩ := same_param.mp h
      cases ht with
      | param howner _ hargs =>
          refine .param ?_ trivial ?_
          · cases howners with
            | none => exact nofun
            | some hsame =>
                rintro _ ⟨⟩
                exact ihowner _ rfl (howner _ rfl) hsame
          · intro a ha
            obtain ⟨i, hi, rfl⟩ := List.mem_iff_getElem.mp ha
            have hi' := hall.length_eq ▸ hi
            exact ihargs _ ha (hargs _ (List.getElem_mem hi')) (hall.get hi hi')
  | array component ih =>
      obtain ⟨component', rfl, hsame⟩ := same_array.mp h
      cases ht with
      | array hcomponent => exact .array (ih hcomponent hsame)
  | wild upper lower ihupper ihlower =>
      obtain ⟨upper', lower', rfl, ⟨hul, hu⟩, hll, hl⟩ := same_wild.mp h
      cases ht with
      | wildUpper hupper =>
          obtain ⟨b, rfl⟩ := List.length_eq_one_iff.mp hul
          obtain rfl := List.length_eq_zero_iff.mp hll
          refine .wildUpper (ihupper b List.mem_cons_self hupper ?_)
          simpa using hu
      | wildLower hupper hlower =>
          obtain ⟨b, rfl⟩ := List.length_eq_one_iff.mp hul
          obtain ⟨b', rfl⟩ := List.length_eq_one_iff.mp hll
          refine .wildLower (ihupper b List.mem_cons_self hupper ?_)
            (ihlower b' List.mem_cons_self hlower ?_)
          · simpa using hu
          · simpa using hl
  | var _ => exact .var trivial

/-- Equal types have the same variables. -/
theorem occurs_of_same (hv : Occurs v s) (h : Same s t) : Occurs v t := by
  induction hv generalizing t with
  | owner _ ih =>
      obtain ⟨_, _, _, rfl, -, howners, -⟩ := same_param.mp h
      cases howners with
      | some hsame => exact .owner (ih hsame)
  | arg hmem _ ih =>
      obtain ⟨_, _, args', rfl, -, -, hall⟩ := same_param.mp h
      obtain ⟨i, hi, rfl⟩ := List.mem_iff_getElem.mp hmem
      have hi' := hall.length_eq ▸ hi
      exact .arg (List.getElem_mem hi') (ih (hall.get hi hi'))
  | component _ ih =>
      obtain ⟨_, rfl, hsame⟩ := same_array.mp h
      exact .component (ih hsame)
  | upper hmem _ ih =>
      obtain ⟨_, _, rfl, ⟨-, hu⟩, -⟩ := same_wild.mp h
      obtain ⟨b, hb, hsame⟩ := hu _ hmem
      exact .upper hb (ih hsame)
  | lower hmem _ ih =>
      obtain ⟨_, _, rfl, -, -, hl⟩ := same_wild.mp h
      obtain ⟨b, hb, hsame⟩ := hl _ hmem
      exact .lower hb (ih hsame)
  | var hw =>
      obtain ⟨_, rfl, hsame⟩ := same_var.mp h
      exact .var (BEq.trans (BEq.symm hsame) hw)

/-- The variables of a component are those of the array. -/
theorem occurs_of_component {u : Ty} (h : t.component? = some u) (hv : Occurs v u) :
    Occurs v t := by
  cases t with
  | cls _ =>
      obtain ⟨_, -, rfl⟩ := Option.map_eq_some_iff.mp h
      cases hv
  | array _ =>
      cases h
      exact .component hv
  | _ => cases h

theorem occurs_param {owner : Option Ty} {raw : ClassRef} {args : List Ty} :
    Occurs v (param owner raw args) ↔ (∃ a ∈ args, Occurs v a) ∨ ∃ o ∈ owner, Occurs v o := by
  constructor
  · intro h
    cases h with
    | owner hv => exact Or.inr ⟨_, rfl, hv⟩
    | arg hmem hv => exact Or.inl ⟨_, hmem, hv⟩
  · rintro (⟨a, ha, hv⟩ | ⟨o, rfl, hv⟩)
    · exact .arg ha hv
    · exact .owner hv

/-! ## Shapes -/

/-- As far as a shape goes without a variable, a type follows it: neither has a wildcard, a raw
class has an owner in both or in neither, and a class in the place of an array is suitable. -/
inductive Fits (suitable : ClassRef → Prop) : Ty → Ty → Prop where
  | cls (c : ClassRef) {t : Ty} (hwild : t.isWildcard = false) : Fits suitable (cls c) t
  | param {owner raw args owner' raw' args'}
      (howned : raw.name = raw'.name → owner.isSome = owner'.isSome)
      (howner : ∀ o ∈ owner, ∀ o' ∈ owner', Fits suitable o o')
      (hargs : ∀ pair ∈ args.zip args', Fits suitable pair.1 pair.2) :
      Fits suitable (param owner raw args) (param owner' raw' args')
  | unlike {owner raw args t} (hparam : t.isParameterized = false) (hwild : t.isWildcard = false) :
      Fits suitable (param owner raw args) t
  | array {component t : Ty} (hclass : ∀ c ∈ t.class?, suitable c) (hwild : t.isWildcard = false)
      (hcomponent : ∀ u ∈ t.component?, Fits suitable component u) :
      Fits suitable (array component) t
  | var (v : TyVar) (t : Ty) : Fits suitable (var v) t

end Ty

/-- A class with the name of an array class is one. -/
def ClassRef.ArrayByName (c : ClassRef) : Prop :=
  c.isArray = false → ∀ name, c.name ≠ name ++ "[]"

namespace Substitution

open Ty (Same Occurs Fits)

/-! ## Composition -/

/-- To resolve twice is to resolve once with resolved values, and an array is built before or
after. A variable that resolves to itself may be bound to itself or be left unbound. -/
theorem resolve_resolve {σ τ ρ : Substitution} {t : Ty} (ht : t.Formed fun _ => True)
    (hσ : ∀ v s, σ.get? v = some s → s.Formed fun _ => True)
    (hbound : ∀ v s, σ.get? v = some s → (ρ.get? v).getD (.var v) = τ.resolve s)
    (hother : ∀ v, σ.get? v = none → ρ.get? v = τ.get? v) :
    τ.resolve (σ.resolve t) = ρ.resolve t ∧
      ∀ θ : Substitution, θ.resolve t.arrayOf = (θ.resolve t).arrayOf := by
  have himage : ∀ v, ((Ty.var v).subst σ).Formed fun _ => True := by
    intro v
    rw [Ty.subst_var]
    cases hget : σ.get? v with
    | none => exact .var v
    | some s => exact hσ v s hget
  constructor
  · rw [Ty.resolve_eq_subst ht, Ty.resolve_eq_subst ht,
      Ty.resolve_eq_subst (Ty.formed_subst ClassRef.family_all ht.written himage)]
    apply Ty.subst_subst ht.writable fun v _ => (himage v).writable
    intro v _
    rw [Ty.subst_var, Ty.subst_var]
    cases hget : σ.get? v with
    | none => rw [Option.getD_none, Ty.subst_var, hother v hget]
    | some s => rw [Option.getD_some, hbound v s hget, Ty.resolve_eq_subst (hσ v s hget)]
  · intro θ
    rw [Ty.resolve_eq_subst ht, Ty.resolve_eq_subst (Ty.formed_arrayOf ClassRef.family_all ht),
      Ty.arrayOf_subst ht.writable]

def rowVar : TyVar := ⟨0, .synthetic "table", "R"⟩

def cellVar : TyVar := ⟨1, .synthetic "table", "C"⟩

def tableClass : ClassRef := .named "Table" .interface

/-- The rows of a table beside the arrays of its cells. -/
def tableShape : Ty := .param none tableClass [.var rowVar, .array (.var cellVar)]

/-- Rows are any subtypes of cells. -/
def rows : Substitution := ⟨[(rowVar, .wild [.var cellVar] [])]⟩

def cells : Substitution := ⟨[(cellVar, Env.stringType)]⟩

def rowsAndCells : Substitution :=
  ⟨[(rowVar, .wild [Env.stringType] []), (cellVar, Env.stringType)]⟩

theorem tableShape_formed : tableShape.Formed fun _ => True := by
  refine .param nofun trivial ?_
  intro t ht
  fin_cases ht
  · exact .var rowVar
  · exact .array (.var cellVar) rfl rfl

theorem resolve_resolve_table :
    cells.resolve (rows.resolve tableShape) = rowsAndCells.resolve tableShape ∧
      ∀ θ : Substitution, θ.resolve tableShape.arrayOf = (θ.resolve tableShape).arrayOf := by
  have hrows : ∀ v s, rows.get? v = some s →
      s = .wild [.var cellVar] [] ∧ (rowVar == v) = true := by
    intro v s h
    rw [rows, get?_cons] at h
    split at h
    · cases h
      exact ⟨rfl, ‹_›⟩
    · cases h
  apply resolve_resolve tableShape_formed
  · intro v s h
    rw [(hrows v s h).1]
    exact .wildUpper (.var cellVar)
  · intro v s h
    obtain ⟨rfl, hv⟩ := hrows v s h
    rw [rowsAndCells, get?_cons, if_pos hv]
    rfl
  · intro v h
    rw [rows, get?_cons] at h
    split at h
    · cases h
    · rw [rowsAndCells, get?_cons, if_neg ‹_›, cells]

/-! ## What a match finds -/

variable {θ θ' θ'' σ : Substitution} {suitable : ClassRef → Prop} {v : TyVar} {s t : Ty}

theorem bind_unbound (hself : isVariable v t = false) (h : θ.get? v = none) :
    θ.bind v t = .ok (θ.insertIfNew v t) := by
  rw [insertIfNew_of_unmapped t h, bind, hself, h]
  rfl

theorem isVariable_of_not_occurs (h : ¬Occurs v t) : isVariable v t = false := by
  cases t with
  | var w => exact Bool.eq_false_of_not_eq_true fun hw => h (.var hw)
  | _ => rfl

theorem ok_of_bind {result : Except MatchFault Substitution}
    {next : Substitution → Except MatchFault Substitution} (h : result >>= next = .ok θ) :
    ∃ θ', result = .ok θ' ∧ next θ' = .ok θ := by
  cases result with
  | error fault => cases h
  | ok θ' => exact ⟨θ', rfl, h⟩

theorem ok_of_unify_param {owner owner' : Option Ty} {raw raw' : ClassRef} {args args' : List Ty}
    (hne : ¬Same (.param owner raw args) (.param owner' raw' args'))
    (h : unify (.param owner raw args) (.param owner' raw' args') θ = .ok θ') :
    raw.name = raw'.name ∧ args.length = args'.length ∧
      ∃ θ₁, unifyAll args args' θ = .ok θ₁ ∧ unifyOwner owner owner' θ₁ = .ok θ' := by
  rw [unify.eq_def, if_neg hne] at h
  simp only at h
  split at h
  · cases h
  · rename_i hlike
    rw [Bool.or_eq_true, not_or] at hlike
    refine ⟨?_, by simpa using hlike.2, ok_of_bind h⟩
    simpa [bne] using hlike.1

/-- One substitution extends another by bindings for given variables, and each that extends
it in turn meets a condition. -/
structure Adds (binds : TyVar → Prop) (meets : Substitution → Prop) (θ θ' : Substitution) :
    Prop where
  kept : θ.PartOf θ'
  bound : ∀ v, (θ'.get? v).isSome ↔ (θ.get? v).isSome ∨ binds v
  met : ∀ ρ : Substitution, θ'.PartOf ρ → meets ρ

theorem Adds.then {binds binds' binds'' : TyVar → Prop} {meets meets' meets'' : Substitution → Prop}
    (h : Adds binds meets θ θ') (h' : Adds binds' meets' θ' θ'')
    (hbinds : ∀ v, binds'' v ↔ binds v ∨ binds' v)
    (hmeets : ∀ ρ, meets ρ → meets' ρ → meets'' ρ) : Adds binds'' meets'' θ θ'' where
  kept := h.kept.trans h'.kept
  bound v := by rw [h'.bound, h.bound, hbinds, or_assoc]
  met ρ hρ := hmeets ρ (h.met ρ (h'.kept.trans hρ)) (h'.met ρ hρ)

theorem adds_nothing {binds : TyVar → Prop} {meets : Substitution → Prop}
    (hbinds : ∀ v, ¬binds v) (hmeets : ∀ ρ, meets ρ) : Adds binds meets θ θ where
  kept _ _ := id
  bound v := ⟨Or.inl, fun h => h.resolve_right (hbinds v)⟩
  met ρ _ := hmeets ρ

theorem adds_bind (hfree : ¬Occurs v t) (h : θ.bind v t = .ok θ') :
    Adds (Occurs · (.var v)) (fun ρ => Same ((Ty.var v).subst ρ) t) θ θ' := by
  have hself := isVariable_of_not_occurs hfree
  cases hget : θ.get? v with
  | none =>
      rw [bind_unbound hself hget] at h
      cases h
      refine ⟨?_, ?_, ?_⟩
      · intro w u hu
        rw [get?_insertIfNew_or, hu]
        rfl
      · intro w
        rw [get?_insertIfNew_or, Option.isSome_or, Bool.or_eq_true]
        apply or_congr_right
        constructor
        · intro hw
          split at hw
          · exact .var ‹_›
          · cases hw
        · intro hw
          cases hw with
          | var hw =>
              rw [if_pos hw]
              rfl
      · intro ρ hρ
        have hv := hρ v t (by rw [get?_insertIfNew_or, hget, BEq.rfl]; rfl)
        rw [Ty.subst_var, hv]
        exact Ty.same_refl t
  | some existing =>
      rw [bind, hself, hget] at h
      change (if existing == t then Except.ok θ else Except.error _) = _ at h
      split at h
      · rename_i hsame
        cases h
        refine ⟨fun _ _ => id, ?_, ?_⟩
        · intro w
          refine ⟨Or.inl, fun hw => hw.elim id fun hw => ?_⟩
          cases hw with
          | var hw =>
              rw [← get?_of_beq θ hw, hget]
              rfl
        · intro ρ hρ
          rw [Ty.subst_var, hρ v existing hget]
          exact hsame
      · cases h

/-- A shape equal to a type with other variables has none. -/
theorem adds_same {shape actual : Ty} (hshape : shape.Formed fun _ => True)
    (hfree : ∀ v, Occurs v shape → ¬Occurs v actual) (h : Same shape actual) :
    Adds (Occurs · shape) (fun ρ => Same (shape.subst ρ) actual) θ θ := by
  have hnone : ∀ v, ¬Occurs v shape := fun v hv => hfree v hv (Ty.occurs_of_same hv h)
  refine adds_nothing hnone fun ρ => ?_
  rwa [Ty.subst_eq_self hshape fun v hv => absurd hv (hnone v)]

theorem unifyAll_adds {shapes actuals : List Ty} (hlength : shapes.length = actuals.length)
    (h : ∀ pair ∈ shapes.zip actuals, ∀ θ θ' : Substitution, unify pair.1 pair.2 θ = .ok θ' →
      Adds (Occurs · pair.1) (fun ρ => Same (pair.1.subst ρ) pair.2) θ θ')
    (hunify : unifyAll shapes actuals θ = .ok θ') :
    Adds (fun v => ∃ s ∈ shapes, Occurs v s)
      (fun ρ => List.Forall₂ Same (shapes.map (Ty.subst ρ)) actuals) θ θ' := by
  induction shapes generalizing actuals θ with
  | nil =>
      cases actuals with
      | cons _ _ => cases hlength
      | nil =>
          cases hunify
          exact adds_nothing (fun v ⟨_, hmem, _⟩ => List.not_mem_nil hmem) fun _ => .nil
  | cons shape shapes ih =>
      cases actuals with
      | nil => cases hlength
      | cons actual actuals =>
          obtain ⟨θ₁, hfirst, hrest⟩ := ok_of_bind hunify
          refine (h (shape, actual) List.mem_cons_self θ θ₁ hfirst).then
            (ih (Nat.succ.inj hlength) (fun pair hpair => h pair (List.mem_cons_of_mem _ hpair))
              hrest)
            (fun v => by simp) fun ρ hρ hall => .cons hρ hall

theorem unifyOwner_adds {owner owner' : Option Ty} (howned : owner.isSome = owner'.isSome)
    (h : ∀ o ∈ owner, ∀ o' ∈ owner', ∀ θ' : Substitution, unify o o' θ = .ok θ' →
      Adds (Occurs · o) (fun ρ => Same (o.subst ρ) o') θ θ')
    (hunify : unifyOwner owner owner' θ = .ok θ') :
    Adds (fun v => ∃ o ∈ owner, Occurs v o)
      (fun ρ => Option.Rel Same (owner.map (Ty.subst ρ)) owner') θ θ' := by
  cases owner with
  | none =>
      cases owner' with
      | some _ => cases howned
      | none =>
          cases hunify
          exact adds_nothing (fun v ⟨_, hmem, _⟩ => nomatch hmem) fun _ => .none
  | some o =>
      cases owner' with
      | none => cases howned
      | some o' =>
          have hadds := h o rfl o' rfl θ' hunify
          exact ⟨hadds.kept, by simpa using hadds.bound, fun ρ hρ => .some (hadds.met ρ hρ)⟩

/-- A match binds the variables of the shape, and what it binds turns the shape into the type. -/
theorem unify_adds {shape actual : Ty} (hfits : Fits suitable shape actual)
    (hshape : shape.Formed fun _ => True) (hactual : actual.Formed ClassRef.ByArrayOf)
    (hfree : ∀ v, Occurs v shape → ¬Occurs v actual) (h : unify shape actual θ = .ok θ') :
    Adds (Occurs · shape) (fun ρ => Same (shape.subst ρ) actual) θ θ' := by
  induction hfits generalizing θ θ' with
  | @cls c actual hwild =>
      by_cases hsame : Same (.cls c) actual
      · rw [unify_of_same hsame] at h
        cases h
        exact adds_same hshape hfree hsame
      · rw [unify.eq_def, if_neg hsame] at h
        cases actual with
        | wild _ _ => cases hwild
        | _ => cases h
  | @param owner raw args owner' raw' args' howned _ _ ihowner ihargs =>
      by_cases hsame : Same (.param owner raw args) (.param owner' raw' args')
      · rw [unify_of_same hsame] at h
        cases h
        exact adds_same hshape hfree hsame
      · obtain ⟨hname, hlength, θ₁, hargs, howner⟩ := ok_of_unify_param hsame h
        cases hshape with | param hshapeOwner _ hshapeArgs =>
        cases hactual with | param hactualOwner _ hactualArgs =>
        have hall := unifyAll_adds hlength (fun pair hpair θ θ' hpairUnify =>
          ihargs pair hpair (hshapeArgs _ (List.of_mem_zip hpair).1)
            (hactualArgs _ (List.of_mem_zip hpair).2)
            (fun v hv hv' => hfree v (.arg (List.of_mem_zip hpair).1 hv)
              (.arg (List.of_mem_zip hpair).2 hv')) hpairUnify) hargs
        have howned := unifyOwner_adds (howned hname) (fun o ho o' ho' θ' howner =>
          ihowner o ho o' ho' (hshapeOwner o ho) (hactualOwner o' ho')
            (fun v hv hv' => hfree v (Ty.occurs_param.mpr (Or.inr ⟨o, ho, hv⟩))
              (Ty.occurs_param.mpr (Or.inr ⟨o', ho', hv'⟩))) howner) howner
        refine hall.then howned (fun v => Ty.occurs_param) fun ρ hall howners => ?_
        rw [Ty.subst_param]
        exact Ty.same_param.mpr ⟨_, _, _, rfl, hname, howners, hall⟩
  | @unlike owner raw args actual hparam hwild =>
      have hsame : ¬Same (.param owner raw args) actual := by
        intro hsame
        obtain ⟨_, _, _, rfl, -⟩ := Ty.same_param.mp hsame
        cases hparam
      rw [unify.eq_def, if_neg hsame] at h
      cases actual with
      | wild _ _ => cases hwild
      | param _ _ _ => cases hparam
      | _ => cases h
  | @array component actual hclass hwild _ ih =>
      by_cases hsame : Same (.array component) actual
      · rw [unify_of_same hsame] at h
        cases h
        exact adds_same hshape hfree hsame
      · rw [unify_array_of_not_same hsame hwild] at h
        cases hu : actual.component? with
        | none =>
            rw [hu] at h
            cases h
        | some u =>
            rw [hu] at h
            cases hshape with | array hcomponent _ _ =>
            have hu' : u.Formed ClassRef.ByArrayOf :=
              hactual.component ClassRef.family_byArrayOf hu
            have hadds := ih u hu hcomponent hu'
              (fun v hv hv' => hfree v (.component hv) (Ty.occurs_of_component hu hv')) h
            refine ⟨hadds.kept, fun v => ?_, fun ρ hρ => ?_⟩
            · rw [hadds.bound]
              apply or_congr_right
              constructor
              · exact .component
              · rintro ⟨⟩
                assumption
            · have hsame := hadds.met ρ hρ
              rw [Ty.subst_array, ← hactual.arrayOf_component hu]
              exact Ty.same_arrayOf (Ty.writable_of_same hu'.writable hsame) hsame
  | var v actual =>
      by_cases hsame : Same (.var v) actual
      · exact absurd (Ty.occurs_of_same (Ty.occurs_self v) hsame) (hfree v (Ty.occurs_self v))
      · rw [unify.eq_def, if_neg hsame] at h
        exact adds_bind (hfree v (Ty.occurs_self v)) h

/-! ## What a match misses -/

/-- Whatever is bound is, up to equality, what another substitution has in its place. -/
def Below (θ σ : Substitution) : Prop :=
  ∀ v t, θ.get? v = some t → Same ((Ty.var v).subst σ) t

theorem bind_below (hfree : ¬Occurs v t) (ht : t.Writable) (hθ : θ.Below σ)
    (h : Same ((Ty.var v).subst σ) t) : ∃ θ', θ.bind v t = .ok θ' ∧ θ'.Below σ := by
  have hself := isVariable_of_not_occurs hfree
  cases hget : θ.get? v with
  | none =>
      refine ⟨_, bind_unbound hself hget, ?_⟩
      intro w u hu
      rw [get?_insertIfNew t hget] at hu
      split at hu
      · rename_i hvw
        cases hu
        rw [Ty.subst_var] at h ⊢
        rw [← get?_of_beq σ hvw]
        cases hσ : σ.get? v with
        | none =>
            rw [hσ] at h
            exact Ty.same_trans (Ty.same_var.mpr ⟨v, rfl, BEq.symm hvw⟩) h
        | some u =>
            rw [hσ] at h
            exact h
      · exact hθ w u hu
  | some existing =>
      have hsame : (existing == t) = true :=
        Ty.same_trans (Ty.same_symm (Ty.writable_of_same ht h) (hθ v existing hget)) h
      refine ⟨θ, ?_, hθ⟩
      rw [bind, hself, hget]
      change (if existing == t then Except.ok θ else Except.error _) = _
      rw [if_pos hsame]

theorem unifyAll_below {shapes actuals : List Ty}
    (h : ∀ pair ∈ shapes.zip actuals, ∀ θ : Substitution, θ.Below σ →
      ∃ θ', unify pair.1 pair.2 θ = .ok θ' ∧ θ'.Below σ) (hθ : θ.Below σ) :
    ∃ θ', unifyAll shapes actuals θ = .ok θ' ∧ θ'.Below σ := by
  induction shapes generalizing actuals θ with
  | nil => exact ⟨θ, rfl, hθ⟩
  | cons shape shapes ih =>
      cases actuals with
      | nil => exact ⟨θ, rfl, hθ⟩
      | cons actual actuals =>
          obtain ⟨θ₁, hfirst, hθ₁⟩ := h (shape, actual) List.mem_cons_self θ hθ
          obtain ⟨θ', hrest, hθ'⟩ :=
            ih (fun pair hpair => h pair (List.mem_cons_of_mem _ hpair)) hθ₁
          refine ⟨θ', ?_, hθ'⟩
          rw [unifyAll, hfirst]
          exact hrest

theorem unifyOwner_below {owner owner' : Option Ty}
    (h : ∀ o ∈ owner, ∀ o' ∈ owner', Same (o.subst σ) o' →
      ∃ θ', unify o o' θ = .ok θ' ∧ θ'.Below σ) (hθ : θ.Below σ)
    (hsame : Option.Rel Same (owner.map (Ty.subst σ)) owner') :
    ∃ θ', unifyOwner owner owner' θ = .ok θ' ∧ θ'.Below σ := by
  cases owner with
  | none => exact ⟨θ, rfl, hθ⟩
  | some o =>
      cases hsame with
      | some hsame => exact h o rfl _ rfl hsame

/-- The array over a type is equal to a type that has an equal component. -/
theorem component?_of_same {u : Ty} (hactual : t.Formed ClassRef.ByArrayOf)
    (hclass : ∀ c ∈ t.class?, c.ArrayByName) (hwild : t.isWildcard = false)
    (h : Same u.arrayOf t) : ∃ u', t.component? = some u' ∧ Same u u' := by
  have harray : ∀ {u : Ty}, Same (.array u) t → ∃ u', t.component? = some u' ∧ Same u u' := by
    intro u h
    obtain ⟨u', rfl, hsame⟩ := Ty.same_array.mp h
    exact ⟨u', rfl, hsame⟩
  cases u with
  | cls c =>
      obtain ⟨d, rfl, hname⟩ := Ty.same_cls.mp h
      cases d with
      | named name kind => exact absurd hname.symm (hclass _ rfl rfl c.name)
      | array name component =>
          cases hactual with
          | cls hd =>
              refine ⟨_, rfl, Ty.same_cls.mpr ⟨component, rfl, ?_⟩⟩
              exact ClassRef.name_of_arrayOf (hname.trans hd.1)
  | wild upper lower =>
      obtain ⟨_, _, rfl, -⟩ := Ty.same_wild.mp h
      cases hwild
  | _ => exact harray h

/-- A match goes through when some substitution turns the shape into the type. -/
theorem unify_below {shape actual : Ty} (hfits : Fits ClassRef.ArrayByName shape actual)
    (hactual : actual.Formed ClassRef.ByArrayOf)
    (hfree : ∀ v, Occurs v shape → ¬Occurs v actual) (hθ : θ.Below σ)
    (h : Same (shape.subst σ) actual) :
    ∃ θ', unify shape actual θ = .ok θ' ∧ θ'.Below σ := by
  induction hfits generalizing θ with
  | @cls c actual hwild => exact ⟨θ, unify_of_same h θ, hθ⟩
  | @param owner raw args owner' raw' args' _ _ _ ihowner ihargs =>
      by_cases hsame : Same (.param owner raw args) (.param owner' raw' args')
      · exact ⟨θ, unify_of_same hsame θ, hθ⟩
      · rw [Ty.subst_param] at h
        obtain ⟨_, _, _, heq, hname, howners, hall⟩ := Ty.same_param.mp h
        cases heq
        cases hactual with | param hactualOwner _ hactualArgs =>
        rw [List.forall₂_map_left_iff] at hall
        have hargs := unifyAll_below (fun pair hpair θ hθ =>
          ihargs pair hpair (hactualArgs _ (List.of_mem_zip hpair).2)
            (fun v hv hv' => hfree v (.arg (List.of_mem_zip hpair).1 hv)
              (.arg (List.of_mem_zip hpair).2 hv')) hθ (List.forall₂_zip hall hpair)) hθ
        obtain ⟨θ₁, hargs, hθ₁⟩ := hargs
        obtain ⟨θ', howner, hθ'⟩ := unifyOwner_below (fun o ho o' ho' hsame =>
          ihowner o ho o' ho' (hactualOwner o' ho')
            (fun v hv hv' => hfree v (Ty.occurs_param.mpr (Or.inr ⟨o, ho, hv⟩))
              (Ty.occurs_param.mpr (Or.inr ⟨o', ho', hv'⟩))) hθ₁ hsame) hθ₁ howners
        refine ⟨θ', ?_, hθ'⟩
        rw [unify_param hsame hname hall.length_eq, hargs]
        exact howner
  | @unlike owner raw args actual hparam hwild =>
      rw [Ty.subst_param] at h
      obtain ⟨_, _, _, rfl, -⟩ := Ty.same_param.mp h
      cases hparam
  | @array component actual hclass hwild _ ih =>
      by_cases hsame : Same (.array component) actual
      · exact ⟨θ, unify_of_same hsame θ, hθ⟩
      · rw [unify_array_of_not_same hsame hwild]
        rw [Ty.subst_array] at h
        obtain ⟨u, hu, hcomponent⟩ := component?_of_same hactual hclass hwild h
        rw [hu]
        exact ih u hu (hactual.component ClassRef.family_byArrayOf hu)
          (fun v hv hv' => hfree v (.component hv) (Ty.occurs_of_component hu hv')) hθ hcomponent
  | var v actual =>
      by_cases hsame : Same (.var v) actual
      · exact ⟨θ, unify_of_same hsame θ, hθ⟩
      · rw [unify.eq_def, if_neg hsame]
        exact bind_below (hfree v (Ty.occurs_self v)) hactual.writable hθ h

/-- A shape is matched with a type that shares no variable with it if and only if some resolver
turns the shape into the type; the one that is found does, and binds the variables of the shape. -/
theorem unify_iff {shape actual : Ty} (hshape : shape.Formed fun _ => True)
    (hactual : actual.Formed ClassRef.ByArrayOf)
    (hfree : ∀ v, Occurs v shape → ¬Occurs v actual)
    (hfits : Fits ClassRef.ArrayByName shape actual) :
    ((∃ θ, unify shape actual .empty = .ok θ) ↔ ∃ σ : Substitution, Same (σ.resolve shape) actual) ∧
      ∀ θ, unify shape actual .empty = .ok θ →
        (∀ v, (θ.get? v).isSome ↔ Occurs v shape) ∧ Same (θ.resolve shape) actual := by
  have hfound : ∀ θ, unify shape actual .empty = .ok θ →
      (∀ v, (θ.get? v).isSome ↔ Occurs v shape) ∧ Same (θ.resolve shape) actual := by
    intro θ h
    have hadds := unify_adds hfits hshape hactual hfree h
    refine ⟨fun v => ?_, ?_⟩
    · rw [hadds.bound, get?_empty]
      simp
    · rw [Ty.resolve_eq_subst hshape]
      exact hadds.met θ fun _ _ => id
  refine ⟨⟨?_, ?_⟩, hfound⟩
  · rintro ⟨θ, h⟩
    exact ⟨θ, (hfound θ h).2⟩
  · rintro ⟨σ, h⟩
    rw [Ty.resolve_eq_subst hshape] at h
    have hempty : empty.Below σ := nofun
    obtain ⟨θ, hunify, -⟩ := unify_below hfits hactual hfree hempty h
    exact ⟨θ, hunify⟩

/-- A table with the rows `? extends String` and the cells `String`. -/
def tableType : Ty := .param none tableClass [.wild [Env.stringType] [], Env.stringType.arrayOf]

theorem unify_iff_table : ∃ θ, unify tableShape tableType .empty = .ok θ ∧
    Same (θ.resolve tableShape) tableType := by
  have hclosed : ∀ v, ¬Occurs v tableType := by
    rintro v (_ | ⟨hmem, hv⟩)
    fin_cases hmem
    · cases hv with
      | upper hmem hv =>
          fin_cases hmem
          cases hv
      | lower hmem _ => cases hmem
    · cases hv
  have hformed : tableType.Formed ClassRef.ByArrayOf := by
    refine .param nofun trivial ?_
    intro t ht
    fin_cases ht
    · exact .wildUpper (.cls trivial)
    · exact .cls ⟨rfl, trivial⟩
  have hfits : Fits ClassRef.ArrayByName tableShape tableType := by
    refine .param (fun _ => rfl) nofun ?_
    intro pair hpair
    fin_cases hpair
    · exact .var _ _
    · refine .array ?_ rfl ?_
      · rintro _ ⟨⟩ ⟨⟩
      · exact fun u _ => .var _ u
  obtain ⟨hiff, hfound⟩ := unify_iff tableShape_formed hformed (fun v _ => hclosed v) hfits
  obtain ⟨θ, h⟩ := hiff.mpr ⟨rowsAndCells, by decide⟩
  exact ⟨θ, h, (hfound θ h).2⟩

/-! ## A class that is named like an array class -/

def bracketedClass : ClassRef := .named "Foo[]" .ordinary

/-- An array of `Foo` is equal to a class that is named so, and is not matched with it. -/
theorem unify_iff_lost :
    (Ty.array (.var cellVar)).Formed (fun _ => True) ∧
      (Ty.cls bracketedClass).Formed ClassRef.ByArrayOf ∧
      (∀ v, Occurs v (.array (.var cellVar)) → ¬Occurs v (.cls bracketedClass)) ∧
      Fits (fun _ => True) (.array (.var cellVar)) (.cls bracketedClass) ∧
      Same (resolve ⟨[(cellVar, .cls Env.fooClass)]⟩ (.array (.var cellVar))) (.cls bracketedClass) ∧
      ¬∃ θ, unify (.array (.var cellVar)) (.cls bracketedClass) .empty = .ok θ := by
  refine ⟨.array (.var _) rfl rfl, .cls trivial, fun _ _ => nofun,
    .array (fun _ _ => trivial) rfl nofun, by decide, ?_⟩
  rintro ⟨θ, h⟩
  have hne : ¬Same (.array (.var cellVar)) (.cls bracketedClass) := by decide
  rw [unify_array_of_not_same hne rfl] at h
  cases h

end Substitution

end Generics
