import Generics.Proofs.Climb
import Generics.Proofs.Kinds
import Generics.Proofs.Rules

/-!
Ground types: the primitives, the classes about which nothing is generic, the
generic forms with every parameter replaced by a ground reference type, and the
arrays of ground types. What is ground is so by the classes that are no arrays,
since the form of an array class follows that of its component.
-/

namespace Generics.Vocabulary

variable {env : Env}

inductive Ground (w : Vocabulary env) : Ty → Prop where
  | primitive {c} (hc : w.isClass c) (h : c.isPrimitive = true) : Ground w (.cls c)
  | cls {c} (hc : w.isClass c) (h : env.classes.genericForm c = .cls c) : Ground w (.cls c)
  | form {c} {σ : Substitution} (hc : w.isClass c)
      (hbound : ∀ v, Ty.Occurs v (env.classes.genericForm c) → (σ.get? v).isSome = true)
      (hground : ∀ v t, σ.get? v = some t → Ground w t)
      (hreference : ∀ v t, σ.get? v = some t → t.isPrimitive = false) :
      Ground w ((env.classes.genericForm c).subst σ)
  | array {t} (h : Ground w t) : Ground w t.arrayOf

/-- Array classes are named after their components. -/
def NamedArrays (w : Vocabulary env) : Prop :=
  ∀ name component, w.isClass (.array name component) → name = component.name ++ "[]"

/-- A registry in which ancestry is orderly: edges lead to instances of generic
forms, ancestry is acyclic and coherent, and nothing is above the root class
and the two array interfaces. -/
structure Orderly (w : Vocabulary env) : Prop where
  edges : ∀ c, c.isArray = false → ∀ e ∈ env.classes.directSupertypes c,
    ∃ d, d.isPlain = true ∧ env.classes.IsInstance d e
  acyclic : ∀ c n, w.isClass c → c.isArray = false → ¬env.RawPath (n + 1) c c
  coherent : ∀ t, Ground w t → env.Coherent t
  tops : ∀ c ∈ [ClassRef.object, .cloneable, .serializable],
    env.classes.directSupertypes c = []

variable {w : Vocabulary env}

theorem raw?_of_isInstance {c : ClassRef} {t : Ty} (h : env.classes.IsInstance c t)
    (hc : c.isArray = false) : t.raw? = some c := by
  rcases h.cases hc with ⟨-, rfl⟩ | ⟨owner, args, rfl, -⟩
  · rfl
  · rfl

theorem subst_form_writes {c : ClassRef} {σ : Substitution} (hc : w.isClass c)
    (hbound : ∀ v, Ty.Occurs v (env.classes.genericForm c) → (σ.get? v).isSome = true)
    (hwrites : ∀ v t, σ.get? v = some t → w.Writes t) :
    w.Writes ((env.classes.genericForm c).subst σ) := by
  apply Ty.written_subst w.arrayOf (genericForm_writes hc)
  intro v _ hoccurs
  obtain ⟨t, ht⟩ := Option.isSome_iff_exists.mp (hbound v hoccurs)
  rw [Ty.subst_var, ht]
  exact hwrites v t ht

theorem Ground.writes {t : Ty} (h : Ground w t) : w.Writes t := by
  induction h with
  | primitive hc _ => exact .cls hc
  | cls hc _ => exact .cls hc
  | form hc hbound _ _ ih => exact subst_form_writes hc hbound ih
  | array _ ih => exact arrayOf_writes ih

theorem Orderly.plainEdges (h : w.Orderly) : env.classes.PlainEdges := by
  rintro ⟨name, d⟩ hentry e he
  have hd := Std.TreeMap.mem_toList_iff_getElem?_eq_some.mp hentry
  have hedge : e ∈ env.classes.directSupertypes (.named name .ordinary) := by
    rw [Registry.directSupertypes_named, hd]
    exact he
  obtain ⟨c, hplain, hinstance⟩ := h.edges _ rfl e hedge
  have hc := (ClassRef.isPlain_iff.mp hplain).1
  exact Ty.isPlain_iff.mpr ⟨c, raw?_of_isInstance hinstance hc, hplain⟩

/-! ## Array levels -/

/-- What is put in is neither a variable nor a wildcard. -/
def Closing (w : Vocabulary env) (σ : Substitution) : Prop :=
  ∀ v t, σ.get? v = some t → w.Writes t ∧ env.upperBounds? t = none

theorem Closing.writable {σ : Substitution} (h : w.Closing σ) : σ.Writable :=
  fun v t hget => (h v t hget).1.writable

/-- What closes the form of a generic class: every parameter in it is replaced. -/
structure Closed (w : Vocabulary env) (c : ClassRef) (σ : Substitution) : Prop where
  isClass : w.isClass c
  isArray : c.isArray = false
  generic : env.classes.genericForm c ≠ .cls c
  closing : w.Closing σ
  bound : ∀ v, Ty.Occurs v (env.classes.genericForm c) → (σ.get? v).isSome = true

theorem Closed.writes {c : ClassRef} {σ : Substitution} (h : Closed w c σ) :
    w.Writes ((env.classes.genericForm c).subst σ) :=
  subst_form_writes h.isClass h.bound fun v t hget => (h.closing v t hget).1

theorem isArray_of_primitive {c : ClassRef} (h : c.isPrimitive = true) : c.isArray = false := by
  cases c with
  | named _ _ => rfl
  | array _ _ => cases h

/-- The form of an array class follows that of its component, so what holds of
the classes that are no arrays and passes on to arrays holds of every class. -/
theorem cls_induction {P : Ty → Prop}
    (hcls : ∀ c, w.isClass c → c.isArray = false → env.classes.genericForm c = .cls c → P (.cls c))
    (harray : ∀ name c, w.isClass (.array name c) → P (.cls c) → P (.cls (.array name c)))
    {c : ClassRef} (hc : w.isClass c) (h : env.classes.genericForm c = .cls c) : P (.cls c) := by
  induction c with
  | named name kind => exact hcls _ hc rfl h
  | array name component ih =>
      rcases Registry.formWithin_array env.classes _ name component with ⟨hform, -⟩ | ⟨-, hform⟩
      · exact harray name component hc (ih (w.component _ hc component rfl) hform)
      · have hcomponent : env.classes.genericForm (.array name component) = .array _ := hform
        rw [hcomponent] at h
        cases h

theorem form_induction {P : Ty → Prop} {σ : Substitution}
    (hcls : ∀ c, w.isClass c → c.isArray = false → env.classes.genericForm c = .cls c → P (.cls c))
    (hform : ∀ c, w.isClass c → c.isArray = false → env.classes.genericForm c ≠ .cls c →
      (∀ v, Ty.Occurs v (env.classes.genericForm c) → (σ.get? v).isSome = true) →
      P ((env.classes.genericForm c).subst σ))
    (hclass : ∀ name c, w.isClass (.array name c) → P (.cls c) → P (.cls (.array name c)))
    (harray : ∀ t, P t → P t.arrayOf) {c : ClassRef} (hc : w.isClass c)
    (hbound : ∀ v, Ty.Occurs v (env.classes.genericForm c) → (σ.get? v).isSome = true) :
    P ((env.classes.genericForm c).subst σ) := by
  induction c with
  | named name kind =>
      by_cases hplain : env.classes.genericForm (.named name kind) = .cls (.named name kind)
      · rw [hplain]
        exact hcls _ hc rfl hplain
      · exact hform _ hc rfl hplain hbound
  | array name component ih =>
      rcases Registry.formWithin_array env.classes _ name component with ⟨-, hplain⟩ | ⟨-, hlift⟩
      · have hplain : env.classes.genericForm (.array name component) = .cls _ := hplain
        rw [hplain]
        exact cls_induction hcls hclass hc hplain
      · have hlift : env.classes.genericForm (.array name component) =
            .array (env.classes.genericForm component) := hlift
        rw [hlift] at hbound ⊢
        rw [Ty.subst_array]
        exact harray _ (ih (w.component _ hc component rfl) fun v hv => hbound v (.component hv))

/-! ## Steps between instances -/

theorem carried_writable {t : Ty} (ht : w.Writes t) : (env.carried t).Writable := by
  intro v u hget
  rw [Env.get?_carried] at hget
  obtain ⟨v', hmem, -⟩ := Substitution.mem_of_get? hget
  exact (carriedPairs_writes ht _ hmem).writable

/-- Steps from an instance lead to instances. -/
theorem isInstance_of_climb (h : w.Orderly) {n : Nat} {c : ClassRef} {s u : Ty}
    (hclimb : env.Climb n s u) (hs : w.Writes s) (hinstance : env.classes.IsInstance c s)
    (hc : c.isArray = false) :
    ∃ d, d.isArray = false ∧ env.classes.IsInstance d u ∧ w.Writes u := by
  refine hclimb.preserves (P := fun t => ∃ d, d.isArray = false ∧ env.classes.IsInstance d t ∧
    w.Writes t) ?_ ⟨c, hc, hinstance, hs⟩
  rintro t ⟨d, hd, ht, hwrites⟩ edge hedge
  rw [Env.erase_of_raw? (raw?_of_isInstance ht hd)] at hedge
  obtain ⟨e, hplain, hedgeInstance⟩ := h.edges d hd edge hedge
  have hclass : w.isClass d := by
    have herase := erase_writes hwrites
    rwa [Env.erase_of_raw? (raw?_of_isInstance ht hd)] at herase
  refine ⟨e, (ClassRef.isPlain_iff.mp hplain).1, ?_,
    instantiated_writes hwrites (w.edges d hclass edge hedge)⟩
  unfold Env.instantiated
  rw [Env.isRawUse_of_isInstance ht hd]
  exact hedgeInstance.subst (carried_writable hwrites)

/-- Equal types take equal steps. -/
theorem climb_alike {n : Nat} {s t u : Ty} (h : env.Climb n s u) (hst : w.Alike s t) :
    ∃ u', env.Climb n t u' ∧ w.Alike u u' := by
  induction n generalizing s t with
  | zero =>
      obtain rfl : s = u := h
      exact ⟨t, rfl, hst⟩
  | succ n ih =>
      obtain ⟨edge, hedge, hrest⟩ := h
      have hwrites := w.edges _ (erase_writes hst.1) edge hedge
      obtain ⟨u', hclimb, hu⟩ := ih hrest (instantiated_alike hst hwrites)
      rw [erase_alike hst] at hedge
      exact ⟨u', ⟨edge, hedge, hclimb⟩, hu⟩

/-! ## Raw ancestry -/

theorem not_rawPath_of_top (h : w.Orderly) {c d : ClassRef} {n : Nat}
    (hc : c ∈ [ClassRef.object, .cloneable, .serializable]) : ¬env.RawPath (n + 1) c d := by
  rintro ⟨above, habove, -⟩
  rw [Env.rawSupertypes, h.tops c hc] at habove
  cases habove

theorem isClass_top {d : ClassRef} (hd : d ∈ [ClassRef.object, .cloneable, .serializable]) :
    w.isClass d ∧ d.isArray = false := by
  simp only [List.mem_cons, List.not_mem_nil, or_false] at hd
  rcases hd with rfl | rfl | rfl
  · exact ⟨w.object, rfl⟩
  · exact ⟨w.cloneable, rfl⟩
  · exact ⟨w.serializable, rfl⟩

/-- Above a class without supertypes are only itself and the root class. -/
theorem isSubclass_of_top (h : w.Orderly) {c d : ClassRef}
    (hc : c ∈ [ClassRef.object, .cloneable, .serializable]) (hd : d.isArray = false)
    (hsub : env.isSubclass c d = true) : c.name = d.name ∨ d.isObject = true := by
  have hcplain : c.isPlain = true := by
    simp only [List.mem_cons, List.not_mem_nil, or_false] at hc
    rcases hc with rfl | rfl | rfl <;> rfl
  by_contra hne
  rw [not_or, Bool.not_eq_true] at hne
  cases hprimitive : d.isPrimitive with
  | true => exact hne.1 ((Env.isSubclass_primitive (Or.inr hprimitive)).mp hsub)
  | false =>
      obtain ⟨n, hpath⟩ := (Env.isSubclass_iff_rawPath h.plainEdges hcplain
        (ClassRef.isPlain_iff.mpr ⟨hd, hprimitive⟩) hne.2).mp hsub
      cases n with
      | zero => exact hne.1 hpath
      | succ n => exact not_rawPath_of_top h hc hpath

theorem eq_object_of_isObject {c : ClassRef} (hc : w.isClass c) (h : c.isObject = true) :
    c = .object := by
  have hname : c.name = ClassRef.rootName := by
    simpa only [ClassRef.isObject, beq_iff_eq] using h
  exact class_unique hc w.object hname

theorem isObject_of_isArray {c : ClassRef} (hc : w.isClass c) (h : c.isArray = true) :
    c.isObject = false := by
  rw [← Bool.not_eq_true]
  intro hobject
  rw [eq_object_of_isObject hc hobject] at h
  cases h

/-- Related classes of which one is primitive are one class. -/
theorem eq_of_primitive_class {c d : ClassRef} (hc : w.isClass c) (hd : w.isClass d)
    (hprimitive : c.isPrimitive = true ∨ d.isPrimitive = true)
    (h : env.isSubclass c d = true) : c = d :=
  class_unique hc hd ((Env.isSubclass_primitive hprimitive).mp h)

theorem isSubclass_trans (h : w.Orderly) {c d e : ClassRef} (hc : w.isClass c)
    (hd : w.isClass d) (he : w.isClass e) (hcarray : c.isArray = false)
    (hdarray : d.isArray = false) (hearray : e.isArray = false)
    (hcd : env.isSubclass c d = true) (hde : env.isSubclass d e = true) :
    env.isSubclass c e = true := by
  by_cases hcdname : c.name = d.name
  · rw [class_unique hc hd hcdname]
    exact hde
  by_cases hdename : d.name = e.name
  · rw [← class_unique hd he hdename]
    exact hcd
  obtain ⟨hcprimitive, hdprimitive⟩ := Env.isPrimitive_of_isSubclass hcd hcdname
  obtain ⟨-, heprimitive⟩ := Env.isPrimitive_of_isSubclass hde hdename
  cases heobject : e.isObject with
  | true => exact Env.isSubclass_object hcprimitive heprimitive heobject
  | false =>
      have hcplain := ClassRef.isPlain_iff.mpr ⟨hcarray, hcprimitive⟩
      have hdplain := ClassRef.isPlain_iff.mpr ⟨hdarray, hdprimitive⟩
      have heplain := ClassRef.isPlain_iff.mpr ⟨hearray, heprimitive⟩
      cases hdobject : d.isObject with
      | true =>
          obtain rfl := eq_object_of_isObject hd hdobject
          rcases isSubclass_of_top h List.mem_cons_self hearray hde with hname | hobject
          · exact absurd hname hdename
          · rw [heobject] at hobject
            cases hobject
      | false =>
          rw [Env.isSubclass_iff_rawPath h.plainEdges hcplain hdplain hdobject] at hcd
          rw [Env.isSubclass_iff_rawPath h.plainEdges hdplain heplain heobject] at hde
          rw [Env.isSubclass_iff_rawPath h.plainEdges hcplain heplain heobject]
          obtain ⟨m, hm⟩ := hcd
          obtain ⟨n, hn⟩ := hde
          exact ⟨m + n, hm.trans hcarray hdarray h.plainEdges hn⟩

/-- Ancestry is antisymmetric, since no class is above itself. -/
theorem isSubclass_antisymm (h : w.Orderly) {c d : ClassRef} (hc : w.isClass c)
    (hd : w.isClass d) (hcarray : c.isArray = false) (hdarray : d.isArray = false)
    (hcd : env.isSubclass c d = true) (hdc : env.isSubclass d c = true) : c = d := by
  by_cases hname : c.name = d.name
  · exact class_unique hc hd hname
  obtain ⟨hcprimitive, hdprimitive⟩ := Env.isPrimitive_of_isSubclass hcd hname
  have hcplain := ClassRef.isPlain_iff.mpr ⟨hcarray, hcprimitive⟩
  have hdplain := ClassRef.isPlain_iff.mpr ⟨hdarray, hdprimitive⟩
  cases hcobject : c.isObject with
  | true =>
      obtain rfl := eq_object_of_isObject hc hcobject
      rcases isSubclass_of_top h List.mem_cons_self hdarray hcd with hname' | hobject
      · exact absurd hname' hname
      · exact (eq_object_of_isObject hd hobject).symm
  | false =>
      cases hdobject : d.isObject with
      | true =>
          obtain rfl := eq_object_of_isObject hd hdobject
          rcases isSubclass_of_top h List.mem_cons_self hcarray hdc with hname' | hobject
          · exact absurd hname'.symm hname
          · exact eq_object_of_isObject hc hobject
      | false =>
          rw [Env.isSubclass_iff_rawPath h.plainEdges hcplain hdplain hdobject] at hcd
          rw [Env.isSubclass_iff_rawPath h.plainEdges hdplain hcplain hcobject] at hdc
          obtain ⟨m, hm⟩ := hcd
          obtain ⟨n, hn⟩ := hdc
          have hcycle := hm.trans hcarray hdarray h.plainEdges hn
          cases m with
          | zero => exact absurd hm hname
          | succ m =>
              rw [Nat.succ_add] at hcycle
              exact absurd hcycle (h.acyclic c _ hc hcarray)

end Generics.Vocabulary
