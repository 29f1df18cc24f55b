import Generics.Proofs.Matching
import Generics.Proofs.Navigation

/-!
Lifting to arrays. An array over a class is a class, and an array over any other
type is a type of its own. Whichever of the two it is, it is below other arrays as
its component is below theirs, and what navigation finds above it is the array
over what it finds above the component.
-/

namespace Generics

namespace Env

open Subtyping Vocabulary

/-- Classes, parameterized types, arrays of these, and variables whose chains of
bounds end there and lead through neither wildcards nor primitives. -/
inductive Anchored (env : Env) : Ty → Prop where
  | cls (c) : Anchored env (.cls c)
  | param {owner raw args} (h : raw.isPlain = true) : Anchored env (.param owner raw args)
  | array {component} (h : Anchored env component) : Anchored env (.array component)
  | var {v} (hreference : ∀ b ∈ env.bounds.effective v, b.isPrimitive = false)
      (h : ∀ b ∈ env.bounds.effective v, Anchored env b) : Anchored env (.var v)

variable {env : Env} {w : Vocabulary env} {t u : Ty} {c target : ClassRef}

theorem Anchored.isWildcard (h : env.Anchored t) : t.isWildcard = false := by
  cases h <;> rfl

theorem Anchored.founded (h : env.Anchored t) : env.Founded t := by
  induction h with
  | cls c => exact .cls c
  | param hplain => exact .param (ClassRef.isPlain_iff.mp hplain).1
  | array _ ih => exact .array ih
  | var _ _ ih => exact .bounds rfl ih

/-! ## Primitives -/

/-- A type that a primitive class takes is that class. -/
theorem eq_of_holds_primitive (ht : env.Anchored t) (hwrites : w.Writes t) (hc : w.isClass c)
    (hprimitive : c.isPrimitive = true) (h : Holds env t (.cls c)) : t = .cls c := by
  induction ht with
  | cls d =>
      cases hwrites with
      | cls hd =>
          have hsub := (holds_cls_iff rfl).mp h
          rw [eq_of_primitive_class hd hc (Or.inr hprimitive) hsub]
  | param hplain =>
      cases hwrites with
      | param _ hraw _ =>
          have hsub := (holds_cls_iff rfl).mp h
          obtain rfl := eq_of_primitive_class hraw hc (Or.inr hprimitive) hsub
          rw [(ClassRef.isPlain_iff.mp hplain).2] at hprimitive
          cases hprimitive
  | array _ _ =>
      cases h.rule with
      | equal hsame =>
          obtain ⟨_, hcls, -⟩ := Ty.same_array.mp hsame
          cases hcls
      | toArrayClass hcomponent _ =>
          obtain ⟨name, rfl⟩ := exists_array hcomponent
          cases hprimitive
      | aboveArrays _ hsub =>
          rw [← eq_of_primitive_class (w.arrayOf _ w.object) hc (Or.inr hprimitive) hsub]
            at hprimitive
          cases hprimitive
      | ancestor hraw _ => cases hraw
  | var hreference _ ih =>
      obtain ⟨b, hb, hbound⟩ := bound_of_holds rfl h
      have hreferenceBound := hreference b hb
      rw [ih b hb (bound_writes hwrites rfl hb) hbound] at hreferenceBound
      cases hprimitive.symm.trans hreferenceBound

/-- A type that takes a primitive class is that class. -/
theorem eq_of_primitive_holds (hu : env.Anchored u) (hwrites : w.Writes u) (hc : w.isClass c)
    (hprimitive : c.isPrimitive = true) (h : Holds env (.cls c) u) : u = .cls c := by
  cases hu with
  | cls d =>
      cases hwrites with
      | cls hd =>
          have hsub := (holds_cls_iff rfl).mp h
          rw [eq_of_primitive_class hc hd (Or.inl hprimitive) hsub]
  | param hplain =>
      cases hwrites with
      | param _ hraw _ =>
          have hsub := isSubclass_of_holds rfl rfl h
          obtain rfl := eq_of_primitive_class hc hraw (Or.inl hprimitive) hsub
          rw [(ClassRef.isPlain_iff.mp hplain).2] at hprimitive
          cases hprimitive
  | array _ =>
      cases h.rule with
      | equal hsame =>
          obtain ⟨_, hcls, -⟩ := Ty.same_cls.mp hsame
          cases hcls
      | ofArrayClass hcomponent _ =>
          obtain ⟨name, rfl⟩ := exists_array hcomponent
          cases hprimitive
  | var _ _ =>
      cases h.rule with
      | equal hsame =>
          obtain ⟨_, hcls, -⟩ := Ty.same_cls.mp hsame
          cases hcls

/-- Related types of which one is primitive are one primitive class. -/
theorem eq_of_primitive (ht : w.Writes t) (hu : w.Writes u) (htchain : env.Anchored t)
    (huchain : env.Anchored u) (hprimitive : t.isPrimitive = true ∨ u.isPrimitive = true)
    (h : Holds env t u) : t = u := by
  rcases hprimitive with hprimitive | hprimitive
  · cases ht with
    | cls hc => exact (eq_of_primitive_holds huchain hu hc hprimitive h).symm
    | _ => cases hprimitive
  · cases hu with
    | cls hc => exact eq_of_holds_primitive htchain ht hc hprimitive h
    | _ => cases hprimitive

/-! ## Raw classes -/

/-- The raw classes of an array are the arrays over those of its component. -/
theorem rawTypes_array (t : Ty) :
    env.rawTypes (.array t) = ((env.rawTypes t).map ClassRef.arrayOf).foldl addRaw [] := by
  have hreach : env.reach (.array t) = env.reach t + 1 := by
    simp only [reach, Ty.size]
    omega
  rw [rawTypes, hreach]
  rfl

/-- An array is below array classes as its component is below theirs. -/
theorem someRawBelow_arrayOf (ht : w.Writes t) (hwild : t.isWildcard = false) :
    env.someRawBelow t.arrayOf target.arrayOf = env.someRawBelow t target := by
  rcases arrayOf_cases hwild with ⟨c, rfl, harray⟩ | ⟨harray, -⟩
  · rw [harray]
    simp only [someRawBelow, rawTypes_of_raw? (t := .cls _) rfl, List.any_cons, List.any_nil,
      Bool.or_false]
    exact isSubclass_arrayOf
  · rw [harray, Bool.eq_iff_iff]
    simp only [someRawBelow, rawTypes_array, List.any_eq_true]
    constructor
    · rintro ⟨c, hc, hsub⟩
      obtain ⟨d, hd, rfl⟩ := List.mem_map.mp ((mem_addRaws hc).resolve_left List.not_mem_nil)
      exact ⟨d, hd, isSubclass_arrayOf.symm.trans hsub⟩
    · rintro ⟨d, hd, hsub⟩
      have hcontains := contains_addRaws [] (contains_arrayOf
        (List.contains_iff_exists_mem_beq.mpr ⟨d, hd, BEq.rfl⟩))
      obtain ⟨c, hc, hname⟩ := contains_iff_name.mp hcontains
      refine ⟨c, hc, ?_⟩
      -- an equal class was met before, and in a vocabulary it is the same one
      obtain ⟨d', hd', rfl⟩ := List.mem_map.mp ((mem_addRaws hc).resolve_left List.not_mem_nil)
      have hclass : ∀ e ∈ env.rawTypes t, w.isClass e := fun e he => (rawOf_of_mem _ he).isClass ht
      rw [class_unique (w.arrayOf _ (hclass d' hd')) (w.arrayOf _ (hclass d hd)) hname]
      exact isSubclass_arrayOf.trans hsub

/-! ## Navigation -/

/-- Beyond the length of the chains and the array levels more steps change nothing. -/
theorem supertypeWithin_fuel {steps steps' n : Nat} (hends : env.Ends n t)
    (h : n + target.dimensions ≤ steps) (h' : n + target.dimensions ≤ steps') :
    env.supertypeWithin steps t target = env.supertypeWithin steps' t target := by
  induction steps generalizing steps' n t target with
  | zero =>
      obtain rfl : n = 0 := by omega
      cases hends
  | succ steps ih =>
      cases n with
      | zero => cases hends
      | succ n =>
          obtain ⟨steps', rfl⟩ : ∃ k, steps' = k + 1 := ⟨steps' - 1, by omega⟩
          simp only [supertypeWithin]
          congr 1
          cases hopen : env.upperBounds? t with
          | some bounds =>
              cases hfind : bounds.find? fun bound => env.someRawBelow bound target with
              | none => simp only [hfind]
              | some b =>
                  have hends' := hends.1 bounds hopen b (List.mem_of_find?_eq_some hfind)
                  simp only [hfind]
                  exact ih hends' (by omega) (by omega)
          | none =>
              cases hd : target.component? with
              | none => rfl
              | some d =>
                  cases hcomponent : t.component? with
                  | none => rfl
                  | some component =>
                      obtain ⟨name, rfl⟩ := exists_array hd
                      rw [ClassRef.dimensions] at h h'
                      have hrec : env.supertypeWithin steps component d =
                          env.supertypeWithin steps' component d :=
                        ih (component_ends hends hcomponent) (by omega) (by omega)
                      simp only [hrec]

/-- One step of navigation from an array to an array class. -/
theorem supertypeWithin_arrayOf {steps : Nat} (ht : w.Writes t) (hwild : t.isWildcard = false) :
    env.supertypeWithin (steps + 1) t.arrayOf target.arrayOf =
      if env.someRawBelow t target then (env.supertypeWithin steps t target).map Ty.arrayOf
      else .error (.notASupertype t.arrayOf target.arrayOf) := by
  have hclosed : env.upperBounds? t.arrayOf = none := by
    rcases arrayOf_cases hwild with ⟨c, rfl, harray⟩ | ⟨harray, -⟩ <;> rw [harray] <;> rfl
  rw [supertypeWithin, someRawBelow_arrayOf ht hwild]
  simp only [hclosed, Ty.component?_arrayOf hwild,
    show target.arrayOf.component? = some target from rfl]
  cases env.someRawBelow t target <;> rfl

theorem someRawBelow_of_supertypeWithin {steps : Nat}
    (h : env.supertypeWithin steps t target = .ok u) : env.someRawBelow t target = true := by
  cases steps with
  | zero => cases h
  | succ steps => exact (supertypeWithin_cases h).1

/-- What navigation finds above an array is the array over what it finds above the
component. -/
theorem supertype_arrayOf (ht : w.Writes t) (hwild : t.isWildcard = false)
    (hfounded : env.Founded t) :
    env.supertype t.arrayOf target.arrayOf = .ok u ↔
      ∃ v, env.supertype t target = .ok v ∧ u = v.arrayOf := by
  obtain ⟨n, hn⟩ := hfounded.exists_ends
  have hends := ends_reach hn
  have hreach : env.reach t ≤ env.reach t.arrayOf := by
    rcases arrayOf_cases hwild with ⟨c, rfl, harray⟩ | ⟨harray, -⟩ <;> rw [harray] <;>
      simp only [reach, Ty.size] <;> omega
  have hlevels : target.arrayOf.dimensions = target.dimensions + 1 := rfl
  have hsteps : (target.arrayOf.dimensions + 1) * (env.reach t.arrayOf + 1) =
      target.dimensions * env.reach t.arrayOf + target.dimensions + 2 * env.reach t.arrayOf + 1 +
        1 := by
    rw [hlevels]
    ring
  have hfuel : env.supertype t target = env.supertypeWithin (target.dimensions *
      env.reach t.arrayOf + target.dimensions + 2 * env.reach t.arrayOf + 1) t target := by
    refine supertypeWithin_fuel hends ?_ (by omega)
    have hproduct : (target.dimensions + 1) * (env.reach t + 1) =
        target.dimensions * env.reach t + (env.reach t + 1 + target.dimensions) := by ring
    omega
  rw [supertype, hsteps, supertypeWithin_arrayOf ht hwild, hfuel]
  constructor
  · intro h
    split at h
    · cases hv : env.supertypeWithin _ t target with
      | error _ =>
          rw [hv] at h
          cases h
      | ok v =>
          rw [hv] at h
          cases h
          exact ⟨v, rfl, rfl⟩
    · cases h
  · rintro ⟨v, hv, rfl⟩
    rw [if_pos (someRawBelow_of_supertypeWithin hv), hv]
    rfl

end Env

end Generics
