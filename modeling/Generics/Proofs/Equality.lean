import Generics.Ty.Build
import Mathlib.Tactic

/-!
Laws of the equality of types. It is reflexive and transitive on all types,
and symmetric on the types that can be written: those whose wildcards have
one upper bound and at most one lower bound. No other wildcard can be built,
since a wildcard starts with one bound, and an array or a substitution goes
through its bounds one by one.
-/

namespace Generics.Ty

/-- Induction over the parts of a type. -/
@[elab_as_elim]
theorem parts {motive : Ty → Prop}
    (cls : ∀ c, motive (.cls c))
    (param : ∀ owner raw args, (∀ t ∈ owner, motive t) → (∀ t ∈ args, motive t) →
      motive (.param owner raw args))
    (array : ∀ component, motive component → motive (.array component))
    (wild : ∀ upper lower, (∀ t ∈ upper, motive t) → (∀ t ∈ lower, motive t) →
      motive (.wild upper lower))
    (var : ∀ v, motive (.var v)) (t : Ty) : motive t :=
  @Ty.rec motive (fun owner => ∀ t ∈ owner, motive t) (fun ts => ∀ t ∈ ts, motive t)
    cls (fun owner raw args howner hargs => param owner raw args howner hargs)
    array wild var (by simp) (fun t ht => by simpa using ht) (by simp)
    (fun t ts ht hts => by
      intro x hx
      rcases List.mem_cons.mp hx with rfl | hrest
      · exact ht
      · exact hts x hrest)
    t

/-- Equality of types, as it is decided by `==`. -/
abbrev Same (s t : Ty) : Prop := (s == t) = true

theorem beqList_iff {ts us : List Ty} :
    beqList ts us = true ↔ List.Forall₂ Same ts us := by
  induction ts generalizing us with
  | nil => cases us <;> simp [beqList]
  | cons t ts ih =>
      cases us with
      | nil => simp [beqList]
      | cons u us =>
          simp only [beqList, Bool.and_eq_true, List.forall₂_cons, ih]
          rfl

theorem beqOwner_iff {owner owner' : Option Ty} :
    beqOwner owner owner' = true ↔ Option.Rel Same owner owner' := by
  cases owner <;> cases owner' <;> simp [beqOwner]
  rfl

theorem beqSubset_iff {ts us : List Ty} :
    beqSubset ts us = true ↔ ∀ t ∈ ts, ∃ u ∈ us, Same t u := by
  simp only [beqSubset_eq_all, List.all_eq_true, List.any_eq_true]
  rfl

theorem same_cls {c : ClassRef} {t : Ty} :
    Same (cls c) t ↔ ∃ d, t = cls d ∧ c.name = d.name := by
  cases t with
  | cls d =>
      change beq _ _ = true ↔ _
      simp [beq]
  | _ => simp [Same, BEq.beq, beq]

theorem same_param {owner : Option Ty} {raw : ClassRef} {args : List Ty} {t : Ty} :
    Same (param owner raw args) t ↔
      ∃ owner' raw' args', t = param owner' raw' args' ∧ raw.name = raw'.name ∧
        Option.Rel Same owner owner' ∧ List.Forall₂ Same args args' := by
  cases t with
  | param owner' raw' args' =>
      change beq _ _ = true ↔ _
      simp only [beq, Bool.and_eq_true, beqOwner_iff, beqList_iff,
        ClassRef.beq_iff_name, and_assoc]
      constructor
      · intro h
        exact ⟨_, _, _, rfl, h⟩
      · rintro ⟨_, _, _, ⟨rfl, rfl, rfl⟩, h⟩
        exact h
  | _ => simp [Same, BEq.beq, beq]

theorem same_array {component t : Ty} :
    Same (array component) t ↔ ∃ component', t = array component' ∧ Same component component' := by
  cases t with
  | array component' =>
      change beq _ _ = true ↔ _
      simp only [beq]
      constructor
      · intro h
        exact ⟨_, rfl, h⟩
      · rintro ⟨_, ⟨rfl⟩, h⟩
        exact h
  | _ => simp [Same, BEq.beq, beq]

theorem same_wild {upper lower : List Ty} {t : Ty} :
    Same (wild upper lower) t ↔
      ∃ upper' lower', t = wild upper' lower' ∧
        (upper.length = upper'.length ∧ ∀ b ∈ upper, ∃ b' ∈ upper', Same b b') ∧
        (lower.length = lower'.length ∧ ∀ b ∈ lower, ∃ b' ∈ lower', Same b b') := by
  cases t with
  | wild upper' lower' =>
      change beq _ _ = true ↔ _
      simp only [beq, Bool.and_eq_true, beq_iff_eq, beqSubset_iff]
      constructor
      · intro h
        exact ⟨_, _, rfl, h⟩
      · rintro ⟨_, _, ⟨rfl, rfl⟩, h⟩
        exact h
  | _ => simp [Same, BEq.beq, beq]

theorem same_var {v : TyVar} {t : Ty} :
    Same (var v) t ↔ ∃ w, t = var w ∧ (v == w) = true := by
  cases t with
  | var w =>
      change beq _ _ = true ↔ _
      simp only [beq]
      constructor
      · intro h
        exact ⟨_, rfl, h⟩
      · rintro ⟨_, ⟨rfl⟩, h⟩
        exact h
  | _ => simp [Same, BEq.beq, beq]

theorem same_refl (t : Ty) : Same t t := by
  induction t using parts with
  | cls c => exact same_cls.mpr ⟨c, rfl, rfl⟩
  | param owner raw args howner hargs =>
      refine same_param.mpr ⟨owner, raw, args, rfl, rfl, ?_, ?_⟩
      · cases owner with
        | none => exact .none
        | some o => exact .some (howner o rfl)
      · exact List.forall₂_same.mpr hargs
  | array component ih => exact same_array.mpr ⟨component, rfl, ih⟩
  | wild upper lower hupper hlower =>
      exact same_wild.mpr ⟨upper, lower, rfl,
        ⟨rfl, fun b hb => ⟨b, hb, hupper b hb⟩⟩,
        ⟨rfl, fun b hb => ⟨b, hb, hlower b hb⟩⟩⟩
  | var v => exact same_var.mpr ⟨v, rfl, BEq.rfl⟩

instance : ReflBEq Ty := ⟨fun {t} => same_refl t⟩

theorem same_trans {s t u : Ty} (hst : Same s t) (htu : Same t u) : Same s u := by
  induction s using parts generalizing t u with
  | cls c =>
      obtain ⟨d, rfl, hd⟩ := same_cls.mp hst
      obtain ⟨e, rfl, he⟩ := same_cls.mp htu
      exact same_cls.mpr ⟨e, rfl, hd.trans he⟩
  | param owner raw args howner hargs =>
      obtain ⟨owner', raw', args', rfl, hraw, ho, ha⟩ := same_param.mp hst
      obtain ⟨owner'', raw'', args'', rfl, hraw', ho', ha'⟩ := same_param.mp htu
      refine same_param.mpr ⟨owner'', raw'', args'', rfl, hraw.trans hraw', ?_, ?_⟩
      · cases ho with
        | none => exact ho'
        | some h =>
            cases ho' with
            | some h' => exact .some (howner _ rfl h h')
      · clear hst htu
        induction ha generalizing args'' with
        | nil => exact ha'
        | cons h _ ih =>
            cases ha' with
            | cons h' hrest =>
                exact .cons (hargs _ List.mem_cons_self h h')
                  (ih (fun t ht => hargs t (List.mem_cons_of_mem _ ht)) _ hrest)
  | array component ih =>
      obtain ⟨component', rfl, h⟩ := same_array.mp hst
      obtain ⟨component'', rfl, h'⟩ := same_array.mp htu
      exact same_array.mpr ⟨component'', rfl, ih h h'⟩
  | wild upper lower hupper hlower =>
      obtain ⟨upper', lower', rfl, ⟨hul, hu⟩, hll, hl⟩ := same_wild.mp hst
      obtain ⟨upper'', lower'', rfl, ⟨hul', hu'⟩, hll', hl'⟩ := same_wild.mp htu
      refine same_wild.mpr ⟨upper'', lower'', rfl, ⟨hul.trans hul', ?_⟩,
        ⟨hll.trans hll', ?_⟩⟩
      · intro b hb
        obtain ⟨b', hb', h⟩ := hu b hb
        obtain ⟨b'', hb'', h'⟩ := hu' b' hb'
        exact ⟨b'', hb'', hupper b hb h h'⟩
      · intro b hb
        obtain ⟨b', hb', h⟩ := hl b hb
        obtain ⟨b'', hb'', h'⟩ := hl' b' hb'
        exact ⟨b'', hb'', hlower b hb h h'⟩
  | var v =>
      obtain ⟨w, rfl, h⟩ := same_var.mp hst
      obtain ⟨x, rfl, h'⟩ := same_var.mp htu
      exact same_var.mpr ⟨x, rfl, BEq.trans h h'⟩

/-! ## Written types -/

/-- The types that can be written with given classes and variables. A wildcard
has one upper bound and at most one lower bound. -/
inductive Written (isClass : ClassRef → Prop) (isVar : TyVar → Prop) : Ty → Prop where
  | cls {c} (hc : isClass c) : Written isClass isVar (cls c)
  | param {owner raw args} (howner : ∀ t ∈ owner, Written isClass isVar t)
      (hraw : isClass raw) (hargs : ∀ t ∈ args, Written isClass isVar t) :
      Written isClass isVar (param owner raw args)
  | array {component} (h : Written isClass isVar component) :
      Written isClass isVar (array component)
  | wildUpper {upper} (hupper : Written isClass isVar upper) :
      Written isClass isVar (wild [upper] [])
  | wildLower {upper lower} (hupper : Written isClass isVar upper)
      (hlower : Written isClass isVar lower) :
      Written isClass isVar (wild [upper] [lower])
  | var {v} (hv : isVar v) : Written isClass isVar (var v)

/-- Written with any classes and variables. -/
abbrev Writable (t : Ty) : Prop := t.Written (fun _ => True) (fun _ => True)

theorem Written.mono {isClass isClass' : ClassRef → Prop} {isVar isVar' : TyVar → Prop} {t : Ty}
    (h : t.Written isClass isVar) (hclass : ∀ c, isClass c → isClass' c)
    (hvar : ∀ v, isVar v → isVar' v) : t.Written isClass' isVar' := by
  induction h with
  | cls hc => exact .cls (hclass _ hc)
  | param _ hraw _ howner hargs => exact .param howner (hclass _ hraw) hargs
  | array _ ih => exact .array ih
  | wildUpper _ ih => exact .wildUpper ih
  | wildLower _ _ ihu ihl => exact .wildLower ihu ihl
  | var hv => exact .var (hvar _ hv)

theorem Written.writable {isClass : ClassRef → Prop} {isVar : TyVar → Prop} {t : Ty}
    (h : t.Written isClass isVar) : t.Writable :=
  h.mono (fun _ _ => trivial) fun _ _ => trivial

theorem same_wildUpper {upper t : Ty} :
    Same (wild [upper] []) t ↔ ∃ upper', t = wild [upper'] [] ∧ Same upper upper' := by
  rw [same_wild]
  constructor
  · rintro ⟨upper', lower', rfl, ⟨hul, hu⟩, hll, -⟩
    obtain ⟨u, rfl⟩ := List.length_eq_one_iff.mp hul.symm
    rw [List.length_eq_zero_iff.mp hll.symm]
    exact ⟨u, rfl, by simpa using hu⟩
  · rintro ⟨upper', rfl, h⟩
    exact ⟨_, _, rfl, by simpa using h, by simp⟩

theorem same_wildLower {upper lower t : Ty} :
    Same (wild [upper] [lower]) t ↔
      ∃ upper' lower', t = wild [upper'] [lower'] ∧ Same upper upper' ∧ Same lower lower' := by
  rw [same_wild]
  constructor
  · rintro ⟨upper', lower', rfl, ⟨hul, hu⟩, hll, hl⟩
    obtain ⟨u, rfl⟩ := List.length_eq_one_iff.mp hul.symm
    obtain ⟨l, rfl⟩ := List.length_eq_one_iff.mp hll.symm
    exact ⟨u, l, rfl, by simpa using hu, by simpa using hl⟩
  · rintro ⟨upper', lower', rfl, hu, hl⟩
    exact ⟨_, _, rfl, by simpa using hu, by simpa using hl⟩

/-- On written types equality is symmetric. -/
theorem same_symm {s t : Ty} (hs : s.Writable) (h : Same s t) : Same t s := by
  induction hs generalizing t with
  | cls _ =>
      obtain ⟨d, rfl, hd⟩ := same_cls.mp h
      exact same_cls.mpr ⟨_, rfl, hd.symm⟩
  | @param owner raw args _ _ _ howner hargs =>
      obtain ⟨owner', raw', args', rfl, hraw, ho, ha⟩ := same_param.mp h
      refine same_param.mpr ⟨owner, raw, args, rfl, hraw.symm, ?_, ?_⟩
      · cases ho with
        | none => exact .none
        | some hsame => exact .some (howner _ rfl hsame)
      · clear h
        induction ha with
        | nil => exact .nil
        | cons hsame _ ih =>
            exact .cons (hargs _ List.mem_cons_self hsame)
              (ih (by simp_all) (fun t ht => hargs t (List.mem_cons_of_mem _ ht)))
  | array _ ih =>
      obtain ⟨component', rfl, hc⟩ := same_array.mp h
      exact same_array.mpr ⟨_, rfl, ih hc⟩
  | wildUpper _ ih =>
      obtain ⟨upper', rfl, hu⟩ := same_wildUpper.mp h
      exact same_wildUpper.mpr ⟨_, rfl, ih hu⟩
  | wildLower _ _ ihu ihl =>
      obtain ⟨upper', lower', rfl, hu, hl⟩ := same_wildLower.mp h
      exact same_wildLower.mpr ⟨_, _, rfl, ihu hu, ihl hl⟩
  | var _ =>
      obtain ⟨w, rfl, hv⟩ := same_var.mp h
      exact same_var.mpr ⟨_, rfl, BEq.symm hv⟩

/-! ## Arrays -/

/-- The array over a wildcard with one bound is the wildcard with one array. -/
theorem arrayOf_wildUpper (upper : Ty) :
    arrayOf (wild [upper] []) = wild [arrayOf upper] [] := rfl

theorem arrayOf_wildLower (upper lower : Ty) :
    arrayOf (wild [upper] [lower]) = wild [arrayOf upper] [arrayOf lower] := rfl

/-- Classes that are closed under arrays. -/
theorem written_arrayOf {isClass : ClassRef → Prop} {isVar : TyVar → Prop}
    (harray : ∀ c, isClass c → isClass (.arrayOf c)) {t : Ty}
    (h : t.Written isClass isVar) : t.arrayOf.Written isClass isVar := by
  induction h with
  | cls hc => exact .cls (harray _ hc)
  | param howner hraw hargs => exact .array (.param howner hraw hargs)
  | array h => exact .array (.array h)
  | wildUpper _ ih => exact .wildUpper ih
  | wildLower _ _ ihu ihl => exact .wildLower ihu ihl
  | var hv => exact .array (.var hv)

theorem same_arrayOf {s t : Ty} (hs : s.Writable) (h : Same s t) :
    Same s.arrayOf t.arrayOf := by
  induction hs generalizing t with
  | cls _ =>
      obtain ⟨d, rfl, hd⟩ := same_cls.mp h
      exact same_cls.mpr ⟨_, rfl, by simp [hd]⟩
  | param _ _ _ =>
      obtain ⟨owner', raw', args', rfl, -⟩ := same_param.mp h
      exact same_array.mpr ⟨_, rfl, h⟩
  | array _ =>
      obtain ⟨component', rfl, -⟩ := same_array.mp h
      exact same_array.mpr ⟨_, rfl, h⟩
  | wildUpper _ ih =>
      obtain ⟨upper', rfl, hu⟩ := same_wildUpper.mp h
      exact same_wildUpper.mpr ⟨_, rfl, ih hu⟩
  | wildLower _ _ ihu ihl =>
      obtain ⟨upper', lower', rfl, hu, hl⟩ := same_wildLower.mp h
      exact same_wildLower.mpr ⟨_, _, rfl, ihu hu, ihl hl⟩
  | var _ =>
      obtain ⟨w, rfl, -⟩ := same_var.mp h
      exact same_array.mpr ⟨_, rfl, h⟩

/-! ## Built types -/

/-- Types as they are built: the array over a wildcard is a wildcard. -/
inductive Built : Ty → Prop where
  | cls (c : ClassRef) : Built (cls c)
  | param {owner raw args} (howner : ∀ t ∈ owner, Built t) (hargs : ∀ t ∈ args, Built t) :
      Built (param owner raw args)
  | array {component} (h : Built component) (hwild : component.isWildcard = false) :
      Built (array component)
  | wildUpper {upper} (hupper : Built upper) : Built (wild [upper] [])
  | wildLower {upper lower} (hupper : Built upper) (hlower : Built lower) :
      Built (wild [upper] [lower])
  | var (v : TyVar) : Built (var v)

theorem Built.writable {t : Ty} (h : t.Built) : t.Writable := by
  induction h with
  | cls c => exact .cls trivial
  | param _ _ howner hargs => exact .param howner trivial hargs
  | array _ _ ih => exact .array ih
  | wildUpper _ ih => exact .wildUpper ih
  | wildLower _ _ ihu ihl => exact .wildLower ihu ihl
  | var v => exact .var trivial

theorem built_arrayOf {t : Ty} (h : t.Built) : t.arrayOf.Built := by
  induction h with
  | cls c => exact .cls _
  | param howner hargs _ _ => exact .array (.param howner hargs) rfl
  | array h hwild _ => exact .array (.array h hwild) rfl
  | wildUpper _ ih => exact .wildUpper ih
  | wildLower _ _ ihu ihl => exact .wildLower ihu ihl
  | var v => exact .array (.var v) rfl

end Generics.Ty
