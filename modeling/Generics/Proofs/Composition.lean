import Generics.Proofs.Elements
import Generics.Proofs.Instances

/-!
Supertypes of supertypes. Where no edge is a raw use, a type and all that is above it stand
for themselves when they are seen as their ancestors; so the steps to a supertype, and from
there to one of its own, are steps from the type to the second one. If all sequences of steps
to one class agree, the type is seen as that class as the supertype is.

A relation that no edge declares need not compose: the root class is above each interface,
and the three classes above all arrays are so whatever is declared for them.
-/

namespace Generics

namespace Registry

variable {registry : Registry} {c d : ClassRef}

/-- Whether anything is generic about a class depends on its name alone. -/
theorem genericForm_cls_of_name (hc : c.isArray = false) (hd : d.isArray = false)
    (hname : c.name = d.name) (h : registry.genericForm c = .cls c) :
    registry.genericForm d = .cls d := by
  have hdecl : registry.decl? c = registry.decl? d := by rw [decl?, decl?, hname]
  have hbare (outerForm : ClassRef → Ty) :
      registry.isBare outerForm c = registry.isBare outerForm d := by
    unfold isBare ownerForm parameters enclosing? isStatic
    rw [hdecl]
  unfold genericForm formSteps at h ⊢
  rw [formWithin_of_plain _ _ hc] at h
  rw [formWithin_of_plain _ _ hd, ← hbare]
  split at h
  · rename_i hyes
    rw [if_pos hyes]
  · cases h

end Registry

namespace Env

variable {env : Env} {t u v w start : Ty} {c d e middle upper : ClassRef}

/-! ## Types that stand for themselves -/

theorem closed_of_viewStart (h : env.viewStart t = some start) : env.upperBounds? t = none := by
  cases t with
  | wild _ _ => cases h
  | var _ => cases h
  | _ => rfl

/-- A type that stands for itself is where its steps start. -/
theorem climbStart_eq (ht : t.raw? = some c) (hc : c.isArray = false)
    (hstart : env.viewStart t = some t) : env.climbStart t = t :=
  Option.some.inj ((viewStart_eq_climbStart ht hc).symm.trans hstart)

theorem isPrimitive_of_raw? (ht : t.raw? = some c) (hc : c.isPrimitive = false) :
    t.isPrimitive = false := by
  cases t with
  | cls d =>
      obtain rfl := Option.some.inj ht
      exact hc
  | _ => rfl

/-- Two bare classes of one name have the same steps. -/
theorem climb_cls_of_name (hc : c.isArray = false) (hd : d.isArray = false)
    (hname : c.name = d.name) {n : Nat} (h : env.Climb (n + 1) (.cls c) u) :
    env.Climb (n + 1) (.cls d) u := by
  obtain ⟨edge, hedge, hrest⟩ := h
  have hsame : Ty.Same (.cls c) (.cls d) := Ty.same_cls.mpr ⟨d, rfl, hname⟩
  have hinstantiated : env.instantiated (.cls c) edge = env.instantiated (.cls d) edge := by
    unfold instantiated
    rw [isRawUse_same hsame]
    rfl
  rw [erase_of_raw? (c := c) rfl, Registry.directSupertypes_of_name hc hd hname] at hedge
  refine ⟨edge, ?_, hinstantiated ▸ hrest⟩
  rw [erase_of_raw? (c := d) rfl]
  exact hedge

/-- What is found above a type that stands for itself: the type, the root class, or what some
steps lead to. -/
theorem supertype_cases (hplain : env.classes.PlainEdges) (ht : t.raw? = some c)
    (hc : c.isArray = false) (hstart : env.viewStart t = some t)
    (h : env.supertype t d = .ok u) :
    (u = t ∧ c.name = d.name) ∨ (d.isObject = true ∧ u = .object ∧ t.isPrimitive = false) ∨
      (d.isObject = false ∧ c.name ≠ d.name ∧
        ∃ n, env.Climb (n + 1) t u ∧ (env.erase u == d) = true) := by
  obtain ⟨-, hsub, hview⟩ := viewAs_of_supertype ht hc h
  cases view_of_raw? (rawEdges_of_plain hplain) ht hc hview with
  | object hobject =>
      obtain ⟨hroot, hprimitive⟩ := Bool.and_eq_true_iff.mp hobject
      exact Or.inr (Or.inl ⟨hroot, rfl, by simpa using hprimitive⟩)
  | start _ hs hsame =>
      obtain rfl := Option.some.inj (hstart.symm.trans hs)
      rw [erase_of_raw? ht, ClassRef.beq_iff_name] at hsame
      exact Or.inl ⟨rfl, hsame⟩
  | walk hshortcut hs hne hnearest =>
      obtain rfl := Option.some.inj (hstart.symm.trans hs)
      have hname : c.name ≠ d.name := by
        intro hname
        rw [erase_of_raw? ht, ClassRef.beq_iff_name.mpr hname] at hne
        cases hne
      have hobject : d.isObject = false := by
        rw [isPrimitive_of_raw? ht (isPrimitive_of_isSubclass hsub hname).1] at hshortcut
        simpa using hshortcut
      obtain ⟨n, hfirst, -⟩ := hnearest
      exact Or.inr (Or.inr ⟨hobject, hname, n, climb_of_firstAt hplain hfirst⟩)

/-- The root class is found above every type that is not primitive. -/
theorem supertype_object (ht : t.raw? = some c) (hd : d.isArray = false)
    (hsub : env.isSubclass c d = true) (hobject : d.isObject = true)
    (hprimitive : t.isPrimitive = false) : env.supertype t d = .ok .object := by
  rw [supertype_of_raw? ht hd, if_pos hsub, viewAs, hobject, hprimitive]
  rfl

/-- Where steps lead to a class, the type is seen as that class. -/
theorem supertype_of_climb (hplain : env.classes.PlainEdges) (ht : t.raw? = some c)
    (hc : c.isArray = false) (hstart : env.viewStart t = some t) (hcoherent : env.Coherent t)
    (hd : d.isArray = false) (hobject : d.isObject = false)
    (hprimitive : c.name ≠ d.name → c.isPrimitive = false ∧ d.isPrimitive = false)
    (hcut : env.viewAs t d ≠ .outOfSteps) {n : Nat} (h : env.Climb n t w)
    (hw : (env.erase w == d) = true) :
    ∃ v, env.supertype t d = .ok v ∧ (v == w) = true := by
  have hclimbStart := climbStart_eq ht hc hstart
  have hsub : env.isSubclass c d = true := by
    by_cases hname : c.name = d.name
    · exact isSubclass_of_name hname
    · obtain ⟨hcp, hdp⟩ := hprimitive hname
      obtain ⟨r, hr, hpath⟩ := h.rawPath hplain ht
      rw [erase_of_raw? hr, ClassRef.beq_iff_name] at hw
      exact isSubclass_of_rawPath hplain (ClassRef.isPlain_iff.mpr ⟨hc, hcp⟩)
        (ClassRef.isPlain_iff.mpr ⟨hd, hdp⟩) (hpath.target hw)
  obtain ⟨v, hview⟩ := view_of_climb hplain ht hc hd hobject hsub
    (hclimbStart.symm ▸ h) hw
  have hfound : env.viewAs t d = .found v := by
    refine (viewAs_of_view (viewStep_hasRaw (rawEdges_of_plain hplain) d) (fun s hs => ?_) hview).resolve_right hcut
    obtain rfl := Option.some.inj (hstart.symm.trans hs)
    exact ⟨c, ht, hc⟩
  obtain ⟨m, hclimb, hv⟩ := climb_of_view hplain ht hc hobject hview
  rw [hclimbStart] at hclimb
  refine ⟨v, ?_, hcoherent m n v w hclimb h (ClassRef.beq_iff_name.mpr ?_)⟩
  · rw [supertype_of_raw? ht hd, if_pos hsub, hfound]
    rfl
  · exact (ClassRef.beq_iff_name.mp hv).trans (ClassRef.beq_iff_name.mp hw).symm

/-! ## Composition below a class -/

section

variable (hplain : env.classes.PlainEdges) (hedges : env.InstanceEdges)

include hplain hedges

theorem Instance.climb (ht : env.Instance t) {n : Nat} (h : env.Climb n t u) : env.Instance u :=
  h.preserves (fun _ hs _ => hs.step hplain hedges) ht

/-- An instance that has a declared path to the root class has steps to all above it, if
nothing is generic about the root class. -/
theorem climb_through_object (ht : env.Instance t) (hform : env.viewStart .object = some .object)
    (hd : d.isObject = true) {m n : Nat}
    (hpath : env.RawPath m (env.erase t) d) (h : env.Climb (n + 1) .object w) :
    ∃ k, env.Climb (k + 1) t w := by
  obtain ⟨c, hraw, hc, -⟩ := ht.raw
  rw [erase_of_raw? hraw] at hpath
  obtain ⟨u, e, hclimb, he, hname⟩ := climb_of_rawPath hplain hpath hraw
  obtain ⟨e', he', hearray, hinstance⟩ := (ht.climb hplain hedges hclimb).raw
  obtain rfl := Option.some.inj (he.symm.trans he')
  have hroot : ClassRef.object.name = e.name := (beq_iff_eq.mp hd).symm.trans hname.symm
  have hobject : env.classes.genericForm .object = .cls .object := Option.some.inj hform
  have hcls := Registry.genericForm_cls_of_name rfl hearray hroot hobject
  obtain rfl := (Registry.isInstance_cls hcls).mp hinstance
  refine ⟨m + n, ?_⟩
  have hall := hclimb.trans (climb_cls_of_name (c := .object) rfl hearray hroot h)
  rwa [← Nat.add_assoc] at hall

omit hedges in
/-- Only the class itself is found above a primitive. -/
theorem Instance.isPrimitive_of_supertype (ht : env.Instance t) (hraw : t.raw? = some c)
    (hu : env.supertype t d = .ok u) (hform : env.viewStart u = some u) (hne : u ≠ t) :
    c.isPrimitive = false := by
  obtain ⟨c', hraw', hc, hinstance⟩ := ht.raw
  obtain rfl := Option.some.inj (hraw.symm.trans hraw')
  obtain ⟨-, hsub, -⟩ := viewAs_of_supertype hraw hc hu
  by_cases hname : c.name = d.name
  · rcases supertype_cases hplain hraw hc ht.viewStart hu with
      ⟨heq, -⟩ | ⟨hobject, rfl, hprimitive⟩ | ⟨-, hnot, -⟩
    · exact absurd heq hne
    · have hroot : ClassRef.object.name = c.name := (beq_iff_eq.mp hobject).symm.trans hname.symm
      have hcls := Registry.genericForm_cls_of_name rfl hc hroot (Option.some.inj hform)
      obtain rfl := (Registry.isInstance_cls hcls).mp hinstance
      exact hprimitive
    · exact absurd hname hnot
  · exact (isPrimitive_of_isSubclass hsub hname).1

/-- A supertype of a supertype of an instance is found from the instance. -/
theorem Instance.supertype_trans (ht : env.Instance t) (hcoherent : env.Coherent t)
    (hu : env.supertype t middle = .ok u) (hmiddle : middle.isArray = false)
    (hform : env.viewStart u = some u)
    (hroot : middle.isObject = true → env.classes.directSupertypes middle = [] ∨
      ∃ n, env.RawPath n (env.erase t) middle)
    (hupper : upper.isArray = false) (hprimitive : upper.isPrimitive = true → u = t)
    (hcut : env.viewAs t upper ≠ .outOfSteps) (hw : env.supertype u upper = .ok w) :
    ∃ v, env.supertype t upper = .ok v ∧ (v == w) = true := by
  obtain ⟨c, hraw, hc, -⟩ := ht.raw
  have hstart := ht.viewStart
  by_cases hself : u = t
  · rw [hself] at hw
    exact ⟨w, hw, BEq.rfl⟩
  have hcprimitive := ht.isPrimitive_of_supertype hplain hraw hu hform hself
  have hupperPrimitive : upper.isPrimitive = false := by
    rw [← Bool.not_eq_true]
    exact fun h => hself (hprimitive h)
  have hfind (hupperObject : upper.isObject = false) {k : Nat} (h : env.Climb k t w)
      (hup : (env.erase w == upper) = true) :=
    supertype_of_climb hplain hraw hc hstart hcoherent hupper hupperObject
      (fun _ => ⟨hcprimitive, hupperPrimitive⟩) hcut h hup
  have hroots (h : upper.isObject = true) : env.supertype t upper = .ok .object :=
    supertype_object hraw hupper (isSubclass_object hcprimitive hupperPrimitive h) h
      (isPrimitive_of_raw? hraw hcprimitive)
  rcases supertype_cases hplain hraw hc hstart hu with
    ⟨heq, -⟩ | ⟨hobject, rfl, -⟩ | ⟨hobject, -, m, hclimb, hmid⟩
  · exact absurd heq hself
  · have hrootName : ClassRef.object.name = middle.name := (beq_iff_eq.mp hobject).symm
    rcases supertype_cases (c := .object) hplain rfl rfl hform hw with
      ⟨rfl, hname⟩ | ⟨hupperObject, rfl, -⟩ | ⟨hupperObject, -, n, hrest, hup⟩
    · exact ⟨.object, hroots (beq_iff_eq.mpr hname.symm), BEq.rfl⟩
    · exact ⟨.object, hroots hupperObject, BEq.rfl⟩
    · rcases hroot hobject with hnone | ⟨k, hpath⟩
      · obtain ⟨edge, hedge, -⟩ := hrest
        rw [erase_of_raw? (c := .object) rfl,
          Registry.directSupertypes_of_name (c := .object) rfl hmiddle hrootName, hnone] at hedge
        cases hedge
      · obtain ⟨j, hall⟩ := climb_through_object hplain hedges ht hform hobject hpath hrest
        exact hfind hupperObject hall hup
  · obtain ⟨r, hr, hrarray, -⟩ := (ht.climb hplain hedges hclimb).raw
    rw [erase_of_raw? hr, ClassRef.beq_iff_name] at hmid
    rcases supertype_cases hplain hr hrarray hform hw with
      ⟨rfl, hname⟩ | ⟨hupperObject, rfl, -⟩ | ⟨hupperObject, -, n, hrest, hup⟩
    · refine hfind ?_ hclimb ?_
      · rw [ClassRef.isObject, ← hname, hmid]
        exact hobject
      · rw [erase_of_raw? hr, ClassRef.beq_iff_name]
        exact hname
    · exact ⟨.object, hroots hupperObject, BEq.rfl⟩
    · exact hfind hupperObject (hclimb.trans hrest) hup

end

section

variable (hplain : env.classes.PlainEdges)

include hplain

/-- Another type that is found above an instance is of a class on a declared path, but for
the root class. -/
theorem Instance.class_of_supertype (ht : env.Instance t) (hraw : t.raw? = some c)
    (hu : env.supertype t middle = .ok u) (hform : env.viewStart u = some u) (hne : u ≠ t)
    (hroot : middle.isObject = true → ∃ n, env.RawPath n c middle) :
    ∃ r, u.raw? = some r ∧ r.isArray = false ∧ r.name = middle.name ∧
      ((c.name = r.name ∧ (t == u) = true) ∨ ∃ n, env.RawPath (n + 1) c r) := by
  obtain ⟨c', hraw', hc, hinstance⟩ := ht.raw
  obtain rfl := Option.some.inj (hraw.symm.trans hraw')
  rcases supertype_cases hplain hraw hc ht.viewStart hu with
    ⟨heq, -⟩ | ⟨hobject, rfl, -⟩ | ⟨-, -, n, hclimb, hmid⟩
  · exact absurd heq hne
  · have hname : ClassRef.object.name = middle.name := (beq_iff_eq.mp hobject).symm
    refine ⟨.object, rfl, rfl, hname, ?_⟩
    obtain ⟨n, hpath⟩ := hroot hobject
    cases n with
    | zero =>
        have hself : ClassRef.object.name = c.name :=
          hname.trans (show c.name = middle.name from hpath).symm
        have hcls := Registry.genericForm_cls_of_name rfl hc hself (Option.some.inj hform)
        obtain rfl := (Registry.isInstance_cls hcls).mp hinstance
        exact Or.inl ⟨hself.symm, ClassRef.beq_iff_name.mpr hself.symm⟩
    | succ n => exact Or.inr ⟨n, hpath.target hname.symm⟩
  · obtain ⟨r, hr, hpath⟩ := hclimb.rawPath hplain hraw
    obtain ⟨r', hr', hrarray⟩ := hclimb.hasRaw hplain ⟨c, hraw, hc⟩
    obtain rfl := Option.some.inj (hr.symm.trans hr')
    rw [erase_of_raw? hr, ClassRef.beq_iff_name] at hmid
    exact ⟨r, hr, hrarray, hmid, Or.inr ⟨n, hpath⟩⟩

/-- Classes of one name have the same ancestors. -/
theorem RawPath.source (hc : c.isArray = false) (hd : d.isArray = false)
    (hname : c.name = d.name) {n : Nat} (h : env.RawPath n d e) : env.RawPath n c e := by
  have hpath : env.RawPath (0 + n) c e := RawPath.trans hc hd hplain hname h
  rwa [Nat.zero_add] at hpath

end

/-! ## Composition below an array -/

/-- The edges of an array are bare classes, and a step takes them as they are. -/
theorem array_step (harray : (env.erase start).isArray = true) :
    env.classes.directSupertypes (env.erase start) = arrayTops.map Ty.cls ∧
      ∀ top, env.instantiated start (.cls top) = .cls top := by
  constructor
  · cases hc : env.erase start with
    | named _ _ =>
        rw [hc] at harray
        cases harray
    | array _ _ => rfl
  · intro top
    unfold instantiated
    split <;> rfl

/-- An array class that is not above itself is named like none of the classes above it. -/
theorem arrayTop_name_ne (harray : (env.erase t).isArray = true)
    (hacyclic : ∀ n, ¬env.RawPath (n + 1) (env.erase t) (env.erase t)) :
    ∀ top ∈ arrayTops, top.name ≠ (env.erase t).name := fun top htop hself =>
  hacyclic 0 ⟨top, (rawSupertypes_array harray).symm ▸ htop, hself⟩

theorem array_isPrimitive (harray : (env.erase t).isArray = true) : t.isPrimitive = false := by
  cases t with
  | cls c =>
      cases c with
      | named _ _ => cases harray
      | array _ _ => rfl
  | _ => rfl

section

variable (hstart : env.viewStart t = some start) (harray : (env.erase t).isArray = true)

include hstart harray

section

variable (hbelow : ∀ top ∈ arrayTops, top.name ≠ (env.erase t).name)

include hbelow

/-- An array is seen as each class above all arrays in one step. -/
theorem viewAs_of_arrayTop (hd : ∃ top ∈ arrayTops, top.name = d.name) :
    ∃ top ∈ arrayTops, top.name = d.name ∧ env.viewAs t d = .found (.cls top) ∧
      env.Climb 1 start (.cls top) := by
  obtain ⟨top, htop, hname⟩ := hd
  have herase := erase_viewStart hstart
  obtain ⟨hsupers, hstep⟩ := array_step (herase.symm ▸ harray)
  have hclimb {a : ClassRef} (ha : a ∈ arrayTops) : env.Climb 1 start (.cls a) := by
    refine ⟨.cls a, ?_, hstep a⟩
    rw [hsupers]
    exact List.mem_map_of_mem ha
  cases hobject : d.isObject with
  | true =>
      refine ⟨.object, List.mem_cons_self, (beq_iff_eq.mp hobject).symm, ?_,
        hclimb List.mem_cons_self⟩
      rw [viewAs, hobject, array_isPrimitive harray]
      rfl
  | false =>
      have hne : (env.erase start == d) = false := by
        rw [herase, ← Bool.not_eq_true, ClassRef.beq_iff_name]
        exact fun hself => hbelow top htop (hname.trans hself.symm)
      have hedge : Ty.cls top ∈ env.classes.directSupertypes (env.erase start) := by
        rw [hsupers]
        exact List.mem_map_of_mem htop
      obtain ⟨v, hgoal⟩ := viewStep_reaches hedge (isSubclass_of_name hname)
        (ClassRef.beq_iff_name.mpr hname)
      obtain ⟨edge, hedge, rfl, hedgeName⟩ := viewStep_goal hgoal
      rw [hsupers] at hedge
      obtain ⟨a, ha, rfl⟩ := List.mem_map.mp hedge
      refine ⟨a, ha, ClassRef.beq_iff_name.mp hedgeName, ?_, hclimb ha⟩
      rw [hstep] at hgoal
      simp only [viewAs, hobject, hstart, hne, Bool.false_and, Bool.false_eq_true, if_false]
      exact search_of_goal 9999 hgoal

/-- An array with a raw type has each class above all arrays as its supertype. -/
theorem supertype_of_arrayTop (hraws : env.rawTypes t ≠ []) (hd : d.isPlain = true)
    (htop : ∃ top ∈ arrayTops, top.name = d.name) :
    ∃ top ∈ arrayTops, top.name = d.name ∧ env.supertype t d = .ok (.cls top) ∧
      env.Climb 1 start (.cls top) := by
  obtain ⟨top, hmem, hname, hview, hclimb⟩ := viewAs_of_arrayTop hstart harray hbelow htop
  have hopen := closed_of_viewStart hstart
  refine ⟨top, hmem, hname, ?_, hclimb⟩
  refine (supertype_closed_iff hopen (ClassRef.isPlain_iff.mp hd).1).mpr ⟨?_, hview⟩
  rw [someRawBelow_congr hd (arrayTop_isPlain hmem) hname.symm]
  exact someRawBelow_arrayTop hopen harray hraws hmem

end

variable (hacyclic : ∀ n, ¬env.RawPath (n + 1) (env.erase t) (env.erase t))
  (hplain : env.classes.PlainEdges)

include hacyclic hplain

/-- A supertype of a supertype of an array is found from the array, if it is one that all
arrays have. -/
theorem supertype_trans_array (hcoherent : env.Coherent start)
    (hu : env.supertype t middle = .ok u) (hmiddle : middle.isArray = false)
    (hform : env.viewStart u = some u)
    (htops : ∀ n d, env.RawPath n middle d → ∃ top ∈ arrayTops, top.name = d.name)
    (hupper : upper.isArray = false) (hprimitive : upper.isPrimitive = true → u = t)
    (hw : env.supertype u upper = .ok w) :
    ∃ v, env.supertype t upper = .ok v ∧ (v == w) = true := by
  have hopen := closed_of_viewStart hstart
  have hbelow := arrayTop_name_ne harray hacyclic
  obtain ⟨hraw, hfound⟩ := (supertype_closed_iff hopen hmiddle).mp hu
  have hraws : env.rawTypes t ≠ [] := by
    intro hnone
    rw [someRawBelow, hnone] at hraw
    cases hraw
  obtain ⟨top, htop, hname, hview, hclimb⟩ :=
    viewAs_of_arrayTop hstart harray hbelow (htops 0 middle rfl)
  obtain rfl : u = .cls top := by
    rw [hview] at hfound
    cases hfound
    rfl
  have htopArray := (ClassRef.isPlain_iff.mp (arrayTop_isPlain htop)).1
  have hupperPlain : upper.isPlain = true := by
    refine ClassRef.isPlain_iff.mpr ⟨hupper, ?_⟩
    rw [← Bool.not_eq_true]
    intro h
    rw [← hprimitive h, erase_of_raw? (c := top) rfl, htopArray] at harray
    cases harray
  have hseen (h : ∃ top ∈ arrayTops, top.name = upper.name) :=
    supertype_of_arrayTop hstart harray hbelow hraws hupperPlain h
  rcases supertype_cases (c := top) hplain rfl htopArray hform hw with
    ⟨rfl, hself⟩ | ⟨hobject, rfl, -⟩ | ⟨hobject, -, n, hrest, hup⟩
  · obtain ⟨a, -, haname, hfind, -⟩ := hseen ⟨top, htop, hself⟩
    exact ⟨.cls a, hfind, ClassRef.beq_iff_name.mpr (haname.trans hself.symm)⟩
  · have hroot : ClassRef.object.name = upper.name := (beq_iff_eq.mp hobject).symm
    obtain ⟨a, -, haname, hfind, -⟩ := hseen ⟨.object, List.mem_cons_self, hroot⟩
    exact ⟨.cls a, hfind, ClassRef.beq_iff_name.mpr (haname.trans hroot.symm)⟩
  · obtain ⟨r, hr, hpath⟩ := hrest.rawPath hplain (c := top) rfl
    rw [erase_of_raw? hr, ClassRef.beq_iff_name] at hup
    obtain ⟨a, -, haname, hfind, hshort⟩ := hseen
      (htops _ _ (RawPath.source hplain hmiddle htopArray hname.symm (hpath.target hup)))
    refine ⟨.cls a, hfind, hcoherent _ _ _ _ hshort (hclimb.trans hrest) ?_⟩
    rw [erase_of_raw? (c := a) rfl, erase_of_raw? hr, ClassRef.beq_iff_name]
    exact haname.trans hup.symm

end

end Env

end Generics
