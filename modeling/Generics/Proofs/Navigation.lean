import Generics.Proofs.Assignability
import Generics.Proofs.RawTypes
import Generics.Token.Navigation
import Mathlib.Data.List.TakeWhile

/-!
Navigation and assignability. A type is seen as a raw ancestor by following the
first upper bound below it, by going from arrays to their components, and by
one walk at the end; subtyping has a rule for each of these steps, so what is
found is above the type. Where no limit is met, and chains of bounds come to an
end, an ancestor is found exactly when its bare class is above the type.

An array class over a primitive is below another one when it has the same name,
and an array that navigation builds is named after its component. So array
classes over primitives are taken to be named after their components.
-/

namespace Generics

/-- Array classes over primitives are named after their components. -/
def Vocabulary.NamedPrimitiveArrays {env : Env} (w : Vocabulary env) : Prop :=
  ∀ name component, w.isClass (.array name component) → component.isPrimitive = true →
    name = component.name ++ "[]"

namespace Env

open Subtyping Vocabulary

variable {env : Env} {w : Vocabulary env} {t u : Ty} {c d target : ClassRef}

/-! ## Limits -/

/-- How often a limit was met in navigation: in collecting raw classes, those of
the bounds that are looked at among them, and in the walk at the end. -/
def supertypeHitsWithin (env : Env) : Nat → Ty → ClassRef → Nat
  | 0, _, _ => 0
  | steps + 1, t, target =>
    env.rawTypeHits t +
      if !env.someRawBelow t target then 0
      else
        match env.upperBounds? t with
        | some bounds =>
          let passed := bounds.takeWhile fun bound => !env.someRawBelow bound target
          (passed.map env.rawTypeHits).sum +
            match bounds.find? fun bound => env.someRawBelow bound target with
            | some bound => env.supertypeHitsWithin steps bound target
            | none => 0
        | none =>
          match target.component? with
          | some targetComponent =>
            match t.component? with
            | some component => env.supertypeHitsWithin steps component targetComponent
            | none => 0
          | none =>
            match env.viewAs t target with
            | .outOfSteps => 1
            | _ => 0

/-- How often a limit was met when a type was seen as a raw ancestor. -/
def supertypeHits (env : Env) (t : Ty) (target : ClassRef) : Nat :=
  env.supertypeHitsWithin ((target.dimensions + 1) * (env.reach t + 1)) t target

/-! ## Array classes -/

/-- Array classes are below each other as their components are. -/
theorem isSubclass_array (hnamed : w.NamedPrimitiveArrays) {m n : String}
    (hc : w.isClass (.array m c)) (hd : w.isClass (.array n d)) :
    env.isSubclass (.array m c) (.array n d) = env.isSubclass c d := by
  rw [Bool.eq_iff_iff, isSubclass_arrays (isObject_of_isArray hd rfl)]
  constructor
  · rintro (hname | ⟨-, -, hsub⟩)
    · cases class_unique hc hd hname
      exact isSubclass_of_name rfl
    · exact hsub
  · intro hsub
    cases hprimitive : c.isPrimitive || d.isPrimitive with
    | false =>
        rw [Bool.or_eq_false_iff] at hprimitive
        exact Or.inr ⟨hprimitive.1, hprimitive.2, hsub⟩
    | true =>
        rw [Bool.or_eq_true] at hprimitive
        obtain rfl := eq_of_primitive_class (w.component _ hc _ rfl) (w.component _ hd _ rfl)
          hprimitive hsub
        rw [or_self] at hprimitive
        exact Or.inl ((hnamed m c hc hprimitive).trans (hnamed n c hd hprimitive).symm)

/-- An array is seen as each of the three classes above all arrays. -/
theorem view_of_array (hstart : env.viewStart t = some (.cls c)) (hc : w.isClass c)
    (hcarray : c.isArray = true) (ht : t.isPrimitive = false)
    (hd : d ∈ [ClassRef.object, .cloneable, .serializable]) : env.View t d (.cls d) := by
  obtain ⟨hdClass, hdarray⟩ := isClass_top (w := w) hd
  cases hobject : d.isObject with
  | true =>
      rw [eq_object_of_isObject hdClass hobject]
      exact .object (by rw [ht]; rfl)
  | false =>
      have hne : (env.erase (.cls c) == d) = false := by
        rw [erase_of_raw? rfl, ← Bool.not_eq_true, ClassRef.beq_iff_name]
        exact name_array_ne hc hcarray hdClass hdarray
      obtain ⟨u, hu⟩ : ∃ u, env.viewStep d (.cls c) = .goal u :=
        viewStep_arrayTop (by rw [erase_of_raw? (c := c) rfl]; exact hcarray) hd
      obtain ⟨edge, hedge', rfl, hname⟩ := viewStep_goal hu
      rw [erase_of_raw? (c := c) rfl] at hedge'
      obtain ⟨e, he, rfl⟩ := array_edge hcarray hedge'
      rw [erase_of_raw? (c := e) rfl, ClassRef.beq_iff_name] at hname
      rw [class_unique (isClass_top he).1 hdClass hname, instantiated_cls] at hu
      refine .walk (by rw [hobject]; rfl) hstart hne ⟨0, ?_, fun k hk => absurd hk (Nat.not_lt_zero k)⟩
      simp only [firstAt, hu, Expansion.goal?]

/-! ## What is found is above the type -/

/-- One step of navigation that finds something. -/
theorem supertypeWithin_cases {steps : Nat} (h : env.supertypeWithin (steps + 1) t target = .ok u) :
    env.someRawBelow t target = true ∧
      ((∃ bounds b, env.upperBounds? t = some bounds ∧ b ∈ bounds ∧
          env.supertypeWithin steps b target = .ok u) ∨
        (∃ component targetComponent u', t.component? = some component ∧
          target.component? = some targetComponent ∧
          env.supertypeWithin steps component targetComponent = .ok u' ∧ u = u'.arrayOf) ∨
        (env.upperBounds? t = none ∧ target.component? = none ∧
          env.viewAs t target = .found u)) := by
  simp only [supertypeWithin] at h
  split at h
  · cases h
  · rename_i hbelow
    refine ⟨by simpa using hbelow, ?_⟩
    cases hopen : env.upperBounds? t with
    | some bounds =>
        simp only [hopen] at h
        cases hfind : bounds.find? fun bound => env.someRawBelow bound target with
        | none =>
            rw [hfind] at h
            cases h
        | some b =>
            rw [hfind] at h
            exact Or.inl ⟨bounds, b, rfl, List.mem_of_find?_eq_some hfind, h⟩
    | none =>
        simp only [hopen] at h
        cases htarget : target.component? with
        | some targetComponent =>
            cases hcomponent : t.component? with
            | none =>
                rw [htarget, hcomponent] at h
                cases h
            | some component =>
                simp only [htarget, hcomponent] at h
                cases hrec : env.supertypeWithin steps component targetComponent with
                | error _ =>
                    rw [hrec] at h
                    cases h
                | ok u' =>
                    rw [hrec] at h
                    cases h
                    exact Or.inr (Or.inl ⟨component, targetComponent, u', rfl, rfl, hrec, rfl⟩)
        | none =>
            simp only [htarget] at h
            cases hview : env.viewAs t target with
            | found view =>
                rw [hview] at h
                cases h
                exact Or.inr (Or.inr ⟨rfl, rfl, rfl⟩)
            | missing =>
                rw [hview] at h
                cases h
            | outOfSteps =>
                rw [hview] at h
                cases h

theorem holds_of_bound {bounds : List Ty} {b s : Ty} (hopen : env.upperBounds? t = some bounds)
    (hb : b ∈ bounds) (hs : s.isWildcard = false) (h : Holds env b s) : Holds env t s := by
  cases t with
  | wild upper lower =>
      obtain rfl := Option.some.inj hopen
      exact holds_of_rule (.upper hs hb h)
  | var v =>
      obtain rfl := Option.some.inj hopen
      exact holds_of_rule (.bound hs hb h)
  | _ => cases hopen

theorem component_writes {component : Ty} (ht : w.Writes t)
    (h : t.component? = some component) : w.Writes component := by
  cases ht with
  | @cls c hc =>
      obtain ⟨d, hd, rfl⟩ := Option.map_eq_some_iff.mp h
      exact .cls (w.component c hc d hd)
  | array ht =>
      obtain rfl := Option.some.inj h
      exact ht
  | _ => cases h

theorem component_ends {component : Ty} {n : Nat} (h : env.Ends (n + 1) t)
    (hcomponent : t.component? = some component) : env.Ends (n + 1) component := by
  cases t with
  | cls c =>
      obtain ⟨d, -, rfl⟩ := Option.map_eq_some_iff.mp hcomponent
      exact ends_of_raw? (c := d) rfl
  | array component =>
      obtain rfl := Option.some.inj hcomponent
      exact ends_succ (h.2 component rfl)
  | _ => cases hcomponent

theorem exists_array {c d : ClassRef} (h : c.component? = some d) : ∃ name, c = .array name d := by
  cases c with
  | named _ _ => cases h
  | array name component =>
      obtain rfl := Option.some.inj h
      exact ⟨name, rfl⟩

/-- Arrays are below array classes as their components are. -/
theorem holds_cls_array (hnamed : w.NamedPrimitiveArrays) {component : Ty} (ht : w.Writes t)
    (hcomponent : t.component? = some component) (htarget : w.isClass target)
    (hd : target.component? = some d) (h : Holds env component (.cls d)) :
    Holds env t (.cls target) := by
  cases ht with
  | @cls c hc =>
      obtain ⟨e, he, rfl⟩ := Option.map_eq_some_iff.mp hcomponent
      obtain ⟨m, rfl⟩ := exists_array he
      obtain ⟨n, rfl⟩ := exists_array hd
      rw [holds_cls_iff rfl, isSubclass_array hnamed hc htarget]
      exact (holds_cls_iff rfl).mp h
  | array _ =>
      obtain rfl := Option.some.inj hcomponent
      exact holds_of_rule (.toArrayClass hd h)
  | _ => cases hcomponent

/-- Arrays are below arrays as their components are. -/
theorem holds_arrayOf_of_component (hnamed : w.NamedPrimitiveArrays) {component s : Ty}
    (ht : w.Writes t) (hcomponent : t.component? = some component) (hs : w.Writes s)
    (hswild : s.isWildcard = false) (h : Holds env component s) : Holds env t s.arrayOf := by
  rcases arrayOf_cases hswild with ⟨d, rfl, harray⟩ | ⟨harray, -⟩
  · rw [harray]
    cases hs with
    | cls hd => exact holds_cls_array hnamed ht hcomponent (w.arrayOf d hd) rfl h
  · rw [harray]
    cases t with
    | cls c =>
        obtain ⟨e, he, rfl⟩ := Option.map_eq_some_iff.mp hcomponent
        exact holds_of_rule (.ofArrayClass he h)
    | array component =>
        obtain rfl := Option.some.inj hcomponent
        exact holds_of_rule (.components h)
    | _ => cases hcomponent

theorem isArray_of_component? (h : target.component? = none) : target.isArray = false := by
  cases target with
  | named _ _ => rfl
  | array _ _ => cases h

/-- A type of a class is not primitive when it is below the root class. -/
theorem isPrimitive_of_root (ht : w.Writes t) (hraw : t.raw? = some c)
    (hsub : env.isSubclass c .object = true) : t.isPrimitive = false := by
  cases ht with
  | @cls d hd =>
      obtain rfl := Option.some.inj hraw
      rw [← Bool.not_eq_true]
      intro hprimitive
      rw [eq_of_primitive_class hd w.object (Or.inl hprimitive) hsub] at hprimitive
      cases hprimitive
  | param _ _ _ => rfl
  | _ => cases hraw

/-- A type of a class is below its views. -/
theorem holds_view (hplain : env.classes.PlainEdges) (ht : w.Writes t) (hraw : t.raw? = some c)
    (hc : c.isArray = false) (htarget : w.isClass target)
    (hsub : env.isSubclass c target = true) (hview : env.View t target u) :
    u.isWildcard = false ∧ Holds env t u := by
  cases hobject : target.isObject with
  | true =>
      rw [eq_object_of_isObject htarget hobject] at hsub hview
      have hroot : env.View t .object .object :=
        .object (by rw [isPrimitive_of_root ht hraw hsub]; rfl)
      rw [view_unique hview hroot]
      exact ⟨rfl, (holds_cls_iff hraw).mpr hsub⟩
  | false =>
      obtain ⟨n, hclimb, hu⟩ := climb_of_view hplain hraw hc hobject hview
      obtain ⟨d, hd, -⟩ := hclimb.hasRaw hplain ⟨c, raw?_climbStart hraw hc, hc⟩
      have hdClass := erase_writes (view_writes ht hview)
      rw [erase_of_raw? hd] at hu hdClass
      obtain rfl := class_unique hdClass htarget (ClassRef.beq_iff_name.mp hu)
      cases u with
      | cls e =>
          obtain rfl := Option.some.inj hd
          exact ⟨rfl, (holds_cls_iff hraw).mpr hsub⟩
      | param owner raw args =>
          obtain rfl := Option.some.inj hd
          exact ⟨rfl, holds_of_view hraw hsub hview (Ty.same_refl _)⟩
      | _ => cases hd

/-- Above an array are, besides arrays, the classes above all arrays. -/
theorem array_target {component : Ty} (ht : w.Writes t) (hcomponent : t.component? = some component)
    (htarget : w.isClass target) (harray : target.isArray = false)
    (hbelow : env.someRawBelow t target = true) :
    target ∈ [ClassRef.object, .cloneable, .serializable] ∧ Holds env t (.cls target) ∧
      env.View t target (.cls target) := by
  obtain ⟨c, hmem, hsub⟩ := List.any_eq_true.mp hbelow
  cases ht with
  | @cls d hd =>
      obtain ⟨e, he, rfl⟩ := Option.map_eq_some_iff.mp hcomponent
      obtain ⟨name, rfl⟩ := exists_array he
      rw [rawTypes_of_raw? rfl, List.mem_singleton] at hmem
      subst hmem
      have htop := (isSubclass_array_plain hd rfl htarget harray).mp hsub
      exact ⟨htop, (holds_cls_iff rfl).mpr hsub, view_of_array rfl hd rfl rfl htop⟩
  | @array component ht =>
      have hraw := rawOf_of_mem _ hmem
      cases hraw with
      | raw h => cases h
      | bound hopen _ _ => cases hopen
      | @array _ d hd =>
          have htop := (isSubclass_array_plain (w.arrayOf d (hd.isClass ht)) rfl htarget
            harray).mp hsub
          have habove := (isSubclass_array_plain (w.arrayOf _ w.object) rfl htarget
            harray).mpr htop
          obtain ⟨name, kind, rfl⟩ := ClassRef.exists_named harray
          exact ⟨htop, holds_of_rule (.aboveArrays rfl habove),
            view_of_array rfl (erase_writes (.array ht)) rfl rfl htop⟩
  | _ => cases hcomponent

theorem raw_of_component?_none (hfounded : env.Founded t) (hopen : env.upperBounds? t = none)
    (h : t.component? = none) : ∃ c, t.raw? = some c ∧ c.isArray = false := by
  cases hfounded with
  | cls c => exact ⟨c, rfl, isArray_of_component? (Option.map_eq_none_iff.mp h)⟩
  | param hraw => exact ⟨_, rfl, hraw⟩
  | array _ => cases h
  | bounds hopen' _ => cases hopen.symm.trans hopen'

/-- What navigation finds is above the type, as is the bare class that it looks for. -/
theorem supertypeWithin_sound (hplain : env.classes.PlainEdges)
    (hnamed : w.NamedPrimitiveArrays) (steps : Nat) (ht : w.Writes t) (hfounded : env.Founded t)
    (htarget : w.isClass target) (h : env.supertypeWithin steps t target = .ok u) :
    w.Writes u ∧ u.isWildcard = false ∧ Holds env t u ∧ Holds env t (.cls target) := by
  induction steps generalizing t target u with
  | zero => cases h
  | succ steps ih =>
      obtain ⟨hbelow, ⟨bounds, b, hopen, hb, hrec⟩ |
        ⟨component, targetComponent, u', hcomponent, hd, hrec, rfl⟩ |
        ⟨hopen, htargetComponent, hfound⟩⟩ := supertypeWithin_cases h
      · obtain ⟨hwrites, hwild, hu, hbare⟩ := ih (bound_writes ht hopen hb)
          (hfounded.bound hopen hb) htarget hrec
        exact ⟨hwrites, hwild, holds_of_bound hopen hb hwild hu,
          holds_of_bound hopen hb rfl hbare⟩
      · obtain ⟨hwrites, hwild, hu, hbare⟩ := ih (component_writes ht hcomponent)
          (hfounded.component hcomponent) (w.component target htarget _ hd) hrec
        refine ⟨arrayOf_writes hwrites, ?_,
          holds_arrayOf_of_component hnamed ht hcomponent hwrites hwild hu,
          holds_cls_array hnamed ht hcomponent htarget hd hbare⟩
        rcases arrayOf_cases hwild with ⟨_, -, harray⟩ | ⟨harray, -⟩ <;> rw [harray] <;> rfl
      · have harray := isArray_of_component? htargetComponent
        have hview : env.View t target u :=
          view_of_viewAs (viewStep_faithful target) (viewStart_writes ht) hfound
        cases hcomponent : t.component? with
        | some component =>
            obtain ⟨-, hbare, hview'⟩ := array_target ht hcomponent htarget harray hbelow
            rw [view_unique hview hview']
            exact ⟨.cls htarget, rfl, hbare, hbare⟩
        | none =>
            obtain ⟨c, hraw, hc⟩ := raw_of_component?_none hfounded hopen hcomponent
            have hsub : env.isSubclass c target = true := by
              simpa [someRawBelow, rawTypes_of_raw? hraw] using hbelow
            obtain ⟨hwild, hu⟩ := holds_view hplain ht hraw hc htarget hsub hview
            exact ⟨view_writes ht hview, hwild, hu, (holds_cls_iff hraw).mpr hsub⟩

/-! ## What is above the type is found -/

theorem exists_bound {bounds : List Ty} (ht : w.Writes t)
    (hopen : env.upperBounds? t = some bounds) : ∃ b, b ∈ bounds := by
  cases ht with
  | @var v _ =>
      obtain rfl := Option.some.inj hopen
      unfold BoundTable.effective
      cases env.bounds.declared v with
      | nil => exact ⟨_, List.mem_cons_self⟩
      | cons b _ => exact ⟨b, List.mem_cons_self⟩
  | wildUpper _ =>
      obtain rfl := Option.some.inj hopen
      exact ⟨_, List.mem_cons_self⟩
  | wildLower _ _ =>
      obtain rfl := Option.some.inj hopen
      exact ⟨_, List.mem_cons_self⟩
  | _ => cases hopen

/-- A class above an open type is above one of its bounds. -/
theorem bound_of_holds {bounds : List Ty} (hopen : env.upperBounds? t = some bounds)
    (h : Holds env t (.cls target)) : ∃ b ∈ bounds, Holds env b (.cls target) := by
  cases t with
  | wild upper lower =>
      obtain rfl := Option.some.inj hopen
      cases h.rule with
      | equal hsame =>
          obtain ⟨_, _, hcls, -⟩ := Ty.same_wild.mp hsame
          cases hcls
      | upper _ hb h => exact ⟨_, hb, h⟩
      | ancestor hraw _ => cases hraw
  | var v =>
      obtain rfl := Option.some.inj hopen
      cases h.rule with
      | equal hsame =>
          obtain ⟨_, hcls, -⟩ := Ty.same_var.mp hsame
          cases hcls
      | bound _ hb h => exact ⟨_, hb, h⟩
      | ancestor hraw _ => cases hraw
  | _ => cases hopen

theorem exists_rawOf (hfounded : env.Founded t) (ht : w.Writes t) : ∃ c, env.RawOf t c := by
  induction hfounded with
  | cls c => exact ⟨c, .raw rfl⟩
  | param _ => exact ⟨_, .raw rfl⟩
  | array _ ih =>
      cases ht with
      | array ht =>
          obtain ⟨c, hc⟩ := ih ht
          exact ⟨_, .array hc⟩
  | @bounds t bounds hopen _ ih =>
      obtain ⟨b, hb⟩ := exists_bound ht hopen
      obtain ⟨c, hc⟩ := ih b hb (bound_writes ht hopen hb)
      exact ⟨c, .bound hopen hb hc⟩

/-- A class that is above a type is above one of its raw classes. -/
theorem exists_raw_of_holds (hnamed : w.NamedPrimitiveArrays) (hfounded : env.Founded t)
    (ht : w.Writes t) (htarget : w.isClass target) (h : Holds env t (.cls target)) :
    ∃ c, env.RawOf t c ∧ env.isSubclass c target = true := by
  induction hfounded generalizing target with
  | cls c => exact ⟨c, .raw rfl, (holds_cls_iff rfl).mp h⟩
  | param _ => exact ⟨_, .raw rfl, (holds_cls_iff rfl).mp h⟩
  | @array component hcomponent ih =>
      have hwrites : w.Writes component := component_writes ht rfl
      cases h.rule with
      | equal hsame =>
          obtain ⟨_, hcls, -⟩ := Ty.same_array.mp hsame
          cases hcls
      | @toArrayClass _ _ d hd h =>
          obtain ⟨c, hc, hsub⟩ := ih hwrites (w.component target htarget d hd) h
          obtain ⟨name, rfl⟩ := exists_array hd
          refine ⟨_, .array hc, ?_⟩
          exact (isSubclass_array hnamed (w.arrayOf c (hc.isClass hwrites)) htarget).trans hsub
      | aboveArrays hd habove =>
          have harray := isArray_of_component? hd
          have htop := (isSubclass_array_plain (w.arrayOf _ w.object) rfl htarget harray).mp habove
          obtain ⟨c, hc⟩ := exists_rawOf hcomponent hwrites
          exact ⟨_, .array hc, (isSubclass_array_plain (w.arrayOf c (hc.isClass hwrites)) rfl
            htarget harray).mpr htop⟩
      | ancestor hraw _ => cases hraw
  | @bounds t bounds hopen _ ih =>
      obtain ⟨b, hb, hbound⟩ := bound_of_holds hopen h
      obtain ⟨c, hc, hsub⟩ := ih b hb (bound_writes ht hopen hb) htarget hbound
      exact ⟨c, .bound hopen hb hc, hsub⟩

theorem RawOf.open {bounds : List Ty} (h : env.RawOf t c)
    (hopen : env.upperBounds? t = some bounds) : ∃ b ∈ bounds, env.RawOf b c := by
  cases h with
  | raw hraw => rw [upperBounds?_of_raw? hraw] at hopen; cases hopen
  | array _ => cases hopen
  | bound hopen' hb h =>
      cases hopen.symm.trans hopen'
      exact ⟨_, hb, h⟩

/-- When no limit is met and some raw class of an open type is below the target,
one of the bounds is seen to be. -/
theorem exists_find?_bound {bounds : List Ty} {n : Nat} (ht : w.Writes t)
    (hends : env.Ends n t) (hhits : env.rawTypeHits t = 0)
    (hopen : env.upperBounds? t = some bounds) (hbelow : env.someRawBelow t target = true)
    (hpassed : ((bounds.takeWhile fun bound => !env.someRawBelow bound target).map
      env.rawTypeHits).sum = 0) :
    ∃ b, bounds.find? (fun bound => env.someRawBelow bound target) = some b := by
  by_contra hnone
  have hno : ∀ b ∈ bounds, ¬env.someRawBelow b target = true := by
    apply List.find?_eq_none.mp
    exact Option.eq_none_iff_forall_ne_some.mpr fun b hb => hnone ⟨b, hb⟩
  have hall : bounds.takeWhile (fun bound => !env.someRawBelow bound target) = bounds := by
    rw [List.takeWhile_eq_self_iff]
    intro b hb
    simpa using hno b hb
  rw [hall, List.sum_eq_zero_iff] at hpassed
  obtain ⟨c, hc, hsub⟩ := (someRawBelow_iff hends ht hhits).mp hbelow
  obtain ⟨b, hb, hraw⟩ := hc.open hopen
  have hboundHits : env.rawTypeHits b = 0 := hpassed _ (List.mem_map.mpr ⟨b, hb, rfl⟩)
  cases n with
  | zero => exact hends
  | succ n =>
      exact hno b hb ((someRawBelow_iff (hends.1 bounds hopen b hb)
        (bound_writes ht hopen hb) hboundHits).mpr ⟨c, hraw, hsub⟩)

/-- The component of an array that is below an array class is below its component. -/
theorem someRawBelow_component (hnamed : w.NamedPrimitiveArrays) {component : Ty} {n : Nat}
    (ht : w.Writes t) (hends : env.Ends n component) (htarget : w.isClass target)
    (hcomponent : t.component? = some component) (hd : target.component? = some d)
    (hhits : env.rawTypeHits component = 0) (hbelow : env.someRawBelow t target = true) :
    env.someRawBelow component d = true := by
  obtain ⟨c, hmem, hsub⟩ := List.any_eq_true.mp hbelow
  obtain ⟨name, rfl⟩ := exists_array hd
  rw [someRawBelow_iff hends (component_writes ht hcomponent) hhits]
  cases ht with
  | @cls e he =>
      obtain ⟨component', hcomponent', rfl⟩ := Option.map_eq_some_iff.mp hcomponent
      obtain ⟨name', rfl⟩ := exists_array hcomponent'
      rw [rawTypes_of_raw? rfl, List.mem_singleton] at hmem
      subst hmem
      rw [isSubclass_array hnamed he htarget] at hsub
      exact ⟨component', .raw rfl, hsub⟩
  | @array component' ht =>
      obtain rfl := Option.some.inj hcomponent
      cases rawOf_of_mem _ hmem with
      | raw h => cases h
      | bound hopen _ _ => cases hopen
      | @array _ c' hc' =>
          exact ⟨c', hc', (isSubclass_array hnamed (w.arrayOf c' (hc'.isClass ht))
            htarget).symm.trans hsub⟩
  | _ => cases hcomponent

/-- An array class is above arrays only. -/
theorem exists_component (hfounded : env.Founded t) (ht : w.Writes t) (htarget : w.isClass target)
    (hopen : env.upperBounds? t = none) (hd : target.component? = some d)
    (hbelow : env.someRawBelow t target = true) : ∃ component, t.component? = some component := by
  cases hcomponent : t.component? with
  | some component => exact ⟨component, rfl⟩
  | none =>
      obtain ⟨c, hraw, hc⟩ := raw_of_component?_none hfounded hopen hcomponent
      have hclass := erase_writes ht
      rw [erase_of_raw? hraw] at hclass
      obtain ⟨name, rfl⟩ := exists_array hd
      have hsub : env.isSubclass c (.array name d) = true := by
        simpa [someRawBelow, rawTypes_of_raw? hraw] using hbelow
      rw [not_isSubclass_array htarget rfl hclass hc] at hsub
      cases hsub

theorem rawPath_of_isSubclass (hplain : env.classes.PlainEdges) (hc : c.isArray = false)
    (hd : d.isArray = false) (hobject : d.isObject = false)
    (h : env.isSubclass c d = true) : ∃ n, env.RawPath n c d := by
  by_cases hname : c.name = d.name
  · exact ⟨0, hname⟩
  · obtain ⟨hcp, hdp⟩ := isPrimitive_of_isSubclass h hname
    exact (isSubclass_iff_rawPath hplain (ClassRef.isPlain_iff.mpr ⟨hc, hcp⟩)
      (ClassRef.isPlain_iff.mpr ⟨hd, hdp⟩) hobject).mp h

/-- A type that is neither open nor compared with an array class has a view as
each class that its raw class is below. -/
theorem exists_view (hplain : env.classes.PlainEdges) (hfounded : env.Founded t)
    (ht : w.Writes t) (htarget : w.isClass target) (hopen : env.upperBounds? t = none)
    (harray : target.isArray = false) (hbelow : env.someRawBelow t target = true) :
    ∃ view, env.View t target view := by
  cases hcomponent : t.component? with
  | some component => exact ⟨_, (array_target ht hcomponent htarget harray hbelow).2.2⟩
  | none =>
      obtain ⟨c, hraw, hc⟩ := raw_of_component?_none hfounded hopen hcomponent
      have hsub : env.isSubclass c target = true := by
        simpa [someRawBelow, rawTypes_of_raw? hraw] using hbelow
      cases hobject : target.isObject with
      | true =>
          rw [eq_object_of_isObject htarget hobject] at hsub ⊢
          exact ⟨.object, .object (by rw [isPrimitive_of_root ht hraw hsub]; rfl)⟩
      | false =>
          obtain ⟨n, hpath⟩ := rawPath_of_isSubclass hplain hc harray hobject hsub
          obtain ⟨u, e, hclimb, he, hname⟩ :=
            climb_of_rawPath hplain hpath (raw?_climbStart hraw hc)
          refine view_of_climb hplain hraw hc harray hobject hsub hclimb ?_
          rw [erase_of_raw? he]
          exact ClassRef.beq_iff_name.mpr hname

/-- Navigation finds every class that a raw class of the type is below, when no
limit is met. Each step goes on along a chain or to a target with fewer array
levels, which leaves steps enough. -/
theorem supertypeWithin_complete (hplain : env.classes.PlainEdges)
    (hnamed : w.NamedPrimitiveArrays) (steps : Nat) {n : Nat} (ht : w.Writes t)
    (hfounded : env.Founded t) (hends : env.Ends n t) (htarget : w.isClass target)
    (hsteps : n + target.dimensions ≤ steps)
    (hhits : env.supertypeHitsWithin steps t target = 0)
    (hbelow : env.someRawBelow t target = true) :
    ∃ u, env.supertypeWithin steps t target = .ok u := by
  induction steps generalizing t target n with
  | zero =>
      obtain rfl : n = 0 := by omega
      cases hends
  | succ steps ih =>
      cases n with
      | zero => cases hends
      | succ n =>
          simp only [supertypeHitsWithin, hbelow, Bool.not_true, Bool.false_eq_true, if_false,
            Nat.add_eq_zero_iff] at hhits
          obtain ⟨hraws, hrest⟩ := hhits
          simp only [supertypeWithin, hbelow, Bool.not_true, Bool.false_eq_true, if_false]
          cases hopen : env.upperBounds? t with
          | some bounds =>
              simp only [hopen, Nat.add_eq_zero_iff] at hrest ⊢
              obtain ⟨b, hfind⟩ := exists_find?_bound ht hends hraws hopen hbelow hrest.1
              have hb := List.mem_of_find?_eq_some hfind
              simp only [hfind] at hrest ⊢
              exact ih (bound_writes ht hopen hb) (hfounded.bound hopen hb)
                (hends.1 bounds hopen b hb) htarget (by omega) hrest.2
                (by simpa using List.find?_some hfind)
          | none =>
              simp only [hopen] at hrest ⊢
              cases hd : target.component? with
              | some d =>
                  obtain ⟨component, hcomponent⟩ :=
                    exists_component hfounded ht htarget hopen hd hbelow
                  simp only [hd, hcomponent] at hrest ⊢
                  obtain ⟨name, rfl⟩ := exists_array hd
                  have hsteps' : n + 1 + d.dimensions ≤ steps := by
                    rw [ClassRef.dimensions] at hsteps
                    omega
                  have hends' := component_ends hends hcomponent
                  cases steps with
                  | zero => omega
                  | succ steps =>
                      have hraws' : env.rawTypeHits component = 0 := by
                        simp only [supertypeHitsWithin, Nat.add_eq_zero_iff] at hrest
                        exact hrest.1
                      obtain ⟨u, hu⟩ := ih (component_writes ht hcomponent)
                        (hfounded.component hcomponent) hends' (w.component _ htarget d hd)
                        hsteps' hrest
                        (someRawBelow_component hnamed ht hends' htarget hcomponent hd hraws' hbelow)
                      exact ⟨u.arrayOf, by rw [hu]; rfl⟩
              | none =>
                  simp only [hd] at hrest ⊢
                  obtain ⟨view, hview⟩ := exists_view hplain hfounded ht htarget hopen
                    (isArray_of_component? hd) hbelow
                  rcases viewAs_of_view (viewStep_faithful target) (viewStart_writes ht) hview with
                    hfound | hout
                  · exact ⟨view, by rw [hfound]; rfl⟩
                  · rw [hout] at hrest
                    cases hrest

/-- Navigation and assignability agree: where no limit is met, a class is found
above a type exactly when the bare class takes the type, and whatever is found
takes it with all its arguments. -/
theorem supertype_iff_isAssignable (hplain : env.classes.PlainEdges)
    (hnamed : w.NamedPrimitiveArrays) (ht : w.Writes t) (hwild : t.isWildcard = false)
    (hfounded : env.Founded t) (htarget : w.isClass target) :
    (env.supertypeHits t target = 0 →
      ((env.checkAssignable (.cls target) t).run .fresh).2.hits = 0 →
        ((∃ u, env.supertype t target = .ok u) ↔ env.isAssignable (.cls target) t = true)) ∧
    ∀ u, env.supertype t target = .ok u →
      ((env.checkAssignable u t).run .fresh).2.hits = 0 → env.isAssignable u t = true := by
  have hsound : ∀ u, env.supertype t target = .ok u →
      w.Writes u ∧ u.isWildcard = false ∧ Holds env t u ∧ Holds env t (.cls target) :=
    fun u => supertypeWithin_sound hplain hnamed _ ht hfounded htarget
  refine ⟨fun hhits hchecked => ⟨?_, ?_⟩, ?_⟩
  · rintro ⟨u, hu⟩
    exact isAssignable_of_holds ht (.cls htarget) hwild rfl hchecked (hsound u hu).2.2.2
  · intro hassignable
    have hholds := holds_of_isAssignable ht (.cls htarget) hwild rfl hassignable
    obtain ⟨n, hends⟩ := hfounded.exists_ends
    have hsteps : (target.dimensions + 1) * (env.reach t + 1) =
        target.dimensions * env.reach t + target.dimensions + env.reach t + 1 := by ring
    rw [supertypeHits, hsteps] at hhits
    rw [supertype, hsteps]
    have hraws : env.rawTypeHits t = 0 := (Nat.add_eq_zero_iff.mp hhits).1
    have hbelow := (someRawBelow_iff hends ht hraws).mpr
      (exists_raw_of_holds hnamed hfounded ht htarget hholds)
    exact supertypeWithin_complete hplain hnamed _ ht hfounded (ends_reach hends) htarget
      (by omega) hhits hbelow
  · intro u hu hchecked
    obtain ⟨hwrites, huwild, hholds, -⟩ := hsound u hu
    exact isAssignable_of_holds ht hwrites hwild huwild hchecked hholds

/-! ## An array of a bounded variable -/

def elementVar : TyVar := ⟨2, .synthetic "sort", "T"⟩

/-- Lists, and a variable that is bounded by the list of strings. -/
def elementEnv : Env := ⟨listEnv.classes, ⟨#[none, none, some [stringList]]⟩⟩

theorem elementEnv_regular :
    elementEnv.Regular elementEnv.classes.handle [listVar, arrayListVar, elementVar] :=
  regular_of_isRegular (by decide)

theorem elementVar_founded : elementEnv.Founded (.array (.var elementVar)) := by
  apply Founded.array
  refine .bounds (show elementEnv.upperBounds? _ = some [stringList] from rfl) ?_
  simp only [List.forall_mem_cons]
  exact ⟨.param rfl, List.forall_mem_nil _⟩

/-- The array of the variable is an array of lists of strings. -/
theorem supertype_iff_isAssignable_elements :
    let t := Ty.array (.var elementVar)
    (∃ u, elementEnv.supertype t (.arrayOf listClass) = .ok u) ∧
      elementEnv.isAssignable (.cls (.arrayOf listClass)) t = true ∧
      elementEnv.isAssignable (.array (.param none listClass [stringType])) t = true := by
  let w := Vocabulary.ofRegular elementEnv_regular
  have hnamed : w.NamedPrimitiveArrays := fun name component hc _ =>
    namedArrays_ofRegular elementEnv_regular (handle_isArray (by decide)) name component hc
  have ht : w.Writes (.array (.var elementVar)) :=
    .array (.var (show elementVar.isListed _ = true by decide))
  have htarget : w.isClass (.arrayOf listClass) :=
    show ClassRef.isRegular _ _ = true by decide
  obtain ⟨hiff, hfound⟩ := supertype_iff_isAssignable (by decide) hnamed ht rfl
    elementVar_founded htarget
  have hassignable : elementEnv.isAssignable (.cls (.arrayOf listClass))
      (.array (.var elementVar)) = true := by decide
  refine ⟨(hiff (by decide) (by decide)).mpr hassignable, hassignable, ?_⟩
  exact hfound _ rfl (by decide)

/-! ## An array class with a name of its own -/

/-- An array class over a primitive that is not named after it. -/
def intsClass : ClassRef := .array "Ints" Primitive.int.toClass

def intsEnv : Env := ⟨Registry.core.register (.of intsClass), .empty⟩

theorem intsEnv_regular : intsEnv.Regular intsEnv.classes.handle [] :=
  regular_of_isRegular (by decide)

/-- What is found above such an array class is the array class that is named
after the primitive, and the two are not comparable. -/
theorem supertype_not_isAssignable : ¬∀ (env : Env) (w : Vocabulary env) (t : Ty)
    (target : ClassRef), env.classes.PlainEdges → w.Writes t → t.isWildcard = false →
      env.Founded t → w.isClass target →
      (env.supertypeHits t target = 0 →
        ((env.checkAssignable (.cls target) t).run .fresh).2.hits = 0 →
          ((∃ u, env.supertype t target = .ok u) ↔
            env.isAssignable (.cls target) t = true)) ∧
      ∀ u, env.supertype t target = .ok u →
        ((env.checkAssignable u t).run .fresh).2.hits = 0 → env.isAssignable u t = true := by
  intro hclaim
  let w := Vocabulary.ofRegular intsEnv_regular
  have hints : w.isClass intsClass := show ClassRef.isRegular _ _ = true by decide
  have hfound := (hclaim intsEnv w (.cls intsClass) intsClass (by decide) (.cls hints) rfl
    (.cls _) hints).2 (.cls (.arrayOf Primitive.int.toClass)) rfl (by decide)
  exact absurd hfound (by decide)

end Env

end Generics
