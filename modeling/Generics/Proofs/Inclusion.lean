import Generics.Proofs.Closure
import Generics.Proofs.Composition

/-!
The closure of a supertype is in the closure of the type. What a closure holds beside the
type itself is found above it along declared edges; and what is so found above a supertype is
found above the type.

Without a declared edge the closures differ: the closure of an interface has no root class.
-/

namespace Generics

namespace Token

open Env

variable {env : Env} {token u : Token} {middle d d' : ClassRef} {v : Ty}

/-- Handles of one name have one supertype. -/
theorem supertype_congr (hopen : env.upperBounds? token.type = none) (hd : d.isPlain = true)
    (hd' : d'.isPlain = true) (hname : d.name = d'.name)
    (h : env.supertype token.type d = .ok v) : env.supertype token.type d' = .ok v := by
  obtain ⟨hbelow, hview⟩ := (supertype_closed_iff hopen (ClassRef.isPlain_iff.mp hd).1).mp h
  rw [someRawBelow_congr hd hd' hname] at hbelow
  rw [viewAs_congr hd hd' hname] at hview
  exact (supertype_closed_iff hopen (ClassRef.isPlain_iff.mp hd').1).mpr ⟨hbelow, hview⟩

section

variable (hplain : env.classes.PlainEdges) (hopen : env.upperBounds? token.type = none)
  (hacyclic : ∀ n, ¬env.RawPath (n + 1) (token.rawType env) (token.rawType env))
  (hlow : env.Low Limits.closureDepth (token.rawType env))
  (hattempts : (token.collection env).guard.attempts ≤ Limits.attempts)

include hplain hopen hacyclic hlow hattempts

/-- A supertype along declared edges is in the closure. -/
theorem mem_closure_of_rawPath (hc : (token.rawType env).isPlain = true)
    (huncut : env.Uncut token.type) (hd : d.isPlain = true) {n : Nat}
    (hpath : env.RawPath (n + 1) (token.rawType env) d) (h : env.supertype token.type d = .ok v) :
    token.derive v ∈ (token.closure env).types := by
  obtain ⟨members, hcollected, hedges, hmem⟩ :=
    exists_collected hplain hopen hacyclic hlow hattempts
  obtain ⟨a, ha, hname⟩ := exists_ancestor hpath
  have hfound := supertype_congr hopen hd (ha.plain hplain) hname.symm h
  have helement : token.elementAt? env a = some (token.derive v) :=
    (elementAt?_iff (ha.name_ne hplain hacyclic)).mpr (supertype_iff.mpr ⟨v, hfound, rfl⟩)
  have hall := hcollected.hasElement hedges
    (fun _ hd => hd.exists_element hplain hopen hc huncut) ha
  exact (hmem _).mpr (Or.inr (hall _ helement))

/-- A supertype that all arrays have is in the closure of an array. -/
theorem mem_closure_of_arrayTop (harray : (token.rawType env).isArray = true)
    (hd : d.isPlain = true) (htop : ∃ top ∈ arrayTops, top.name = d.name)
    (h : env.supertype token.type d = .ok v) : token.derive v ∈ (token.closure env).types := by
  obtain ⟨members, -, hedges, hmem⟩ := exists_collected hplain hopen hacyclic hlow hattempts
  obtain ⟨a, ha, hname⟩ := htop
  have hedge : a ∈ env.rawSupertypes (token.rawType env) := by
    rw [rawSupertypes_array harray]
    exact ha
  have hfound := supertype_congr hopen hd (arrayTop_isPlain ha) hname.symm h
  have helement : token.elementAt? env a = some (token.derive v) :=
    (elementAt?_iff ((Ancestor.edge hedge).name_ne hplain hacyclic)).mpr
      (supertype_iff.mpr ⟨v, hfound, rfl⟩)
  exact (hmem _).mpr (Or.inr (hedges a hedge _ helement))

omit hopen hacyclic hlow hattempts in
/-- What is in the closure of a type that has a class: the type, or what is found above it. -/
theorem cases_of_mem_closure {r : ClassRef} (hr : u.type.raw? = some r) (hrarray : r.isArray = false)
    (hlow : env.Low Limits.closureDepth r)
    (hattempts : (u.collection env).guard.attempts ≤ Limits.attempts) {x : Token}
    (hx : x ∈ (u.closure env).types) :
    x = u ∨ ∃ n d, d.isPlain = true ∧ env.RawPath (n + 1) r d ∧
      env.supertype u.type d = .ok x.type := by
  have hraw : u.rawType env = r := erase_of_raw? hr
  rw [← hraw] at hlow hrarray ⊢
  have hacyclic := hlow.acyclic hplain hrarray
  obtain ⟨members, hcollected, -, hmem⟩ :=
    exists_collected hplain (upperBounds?_of_raw? hr) hacyclic hlow hattempts
  rcases (hmem x).mp hx with rfl | ⟨m, hm, rfl⟩
  · exact Or.inl rfl
  · obtain ⟨d, hd, helement⟩ := hcollected.element m hm
    obtain ⟨n, hpath⟩ := hd.path hplain
    obtain ⟨v, hv, heq⟩ := supertype_iff.mp
      ((elementAt?_iff (hd.name_ne hplain hacyclic)).mp helement)
    exact Or.inr ⟨n, d, hd.plain hplain, hpath, heq ▸ hv⟩

end

/-! ## Where a class is, or leads -/

section

variable {c r : ClassRef} (hplain : env.classes.PlainEdges) (hc : c.isArray = false)
  (hrarray : r.isArray = false) (hway : c.name = r.name ∨ ∃ n, env.RawPath (n + 1) c r)

include hplain hc hrarray hway

theorem rawPath_of_way {n : Nat} (hpath : env.RawPath (n + 1) r d) :
    ∃ k, env.RawPath (k + 1) c d := by
  rcases hway with hname | ⟨m, hfirst⟩
  · exact ⟨n, RawPath.source hplain hc hrarray hname hpath⟩
  · have hboth := hfirst.trans hc hrarray hplain hpath
    exact ⟨m + 1 + n, hboth⟩

/-- No long way leads up from a class above one that has none. -/
theorem low_of_way {k : Nat} (hlow : env.Low k c) : env.Low k r := by
  rcases hway with hname | ⟨n, hpath⟩
  · exact fun d hd => hlow d (RawPath.source hplain hc hrarray hname hd)
  · have hpath : env.RawPath (n + 1) ((ofType (.cls c)).rawType env) r := hpath
    obtain ⟨a, ha, hname⟩ := exists_ancestor hpath
    exact fun d hd => ha.low hlow d (RawPath.source hplain (ha.isArray hplain) hrarray hname hd)

end

/-- What is found above a class, other than the class itself, is not primitive. -/
theorem isPlain_of_supertype {c : ClassRef} {n : Nat} (hraw : token.type.raw? = some c)
    (hc : (token.rawType env).isArray = false) (hclass : token.rawType env = c)
    (hacyclic : ¬env.RawPath (n + 1) (token.rawType env) (token.rawType env))
    (hmiddle : middle.isArray = false) (hpath : env.RawPath (n + 1) (token.rawType env) middle)
    (hv : env.supertype token.type middle = .ok v) : middle.isPlain = true := by
  obtain ⟨-, hsub, -⟩ := viewAs_of_supertype hraw (hclass ▸ hc) hv
  have hne : c.name ≠ middle.name := by
    intro hname
    rw [hclass] at hpath hacyclic
    exact hacyclic (hpath.target hname.symm)
  exact ClassRef.isPlain_iff.mpr ⟨hmiddle, (isPrimitive_of_isSubclass hsub hne).2⟩

theorem contains_of_mem {set : Closure} {x : Token} (hx : x ∈ set.types)
    (h : (x.type == v) = true) : set.contains v = true :=
  List.any_eq_true.mpr ⟨x, hx, h⟩

section

variable (hplain : env.classes.PlainEdges)
  (hacyclic : ∀ n, ¬env.RawPath (n + 1) (token.rawType env) (token.rawType env))
  (hlow : env.Low Limits.closureDepth (token.rawType env))
  (hattempts : (token.collection env).guard.attempts ≤ Limits.attempts)
  (hattempts' : (u.collection env).guard.attempts ≤ Limits.attempts)
  (hmiddle : middle.isArray = false) (hu : token.supertype env middle = .ok u)
  (hform : env.viewStart u.type = some u.type) {x : Token} (hx : x ∈ (u.closure env).types)

include hplain hacyclic hlow hattempts hattempts' hmiddle hu hform hx

/-- What is above a supertype of an instance is above the instance. -/
theorem contains_of_instance (hedges : env.InstanceEdges) (ht : env.Instance token.type)
    (hcoherent : env.Coherent token.type) (huncut : env.Uncut token.type)
    (hroot : middle.isObject = true → ∃ n, env.RawPath n (token.rawType env) middle) :
    (token.closure env).contains x.type = true := by
  obtain ⟨v, hv, rfl⟩ := supertype_iff.mp hu
  by_cases hself : v = token.type
  · subst hself
    exact contains_of_mem hx BEq.rfl
  obtain ⟨c, hraw, hc, -⟩ := ht.raw
  have hclass : token.rawType env = c := erase_of_raw? hraw
  have hopen : env.upperBounds? token.type = none := upperBounds?_of_raw? hraw
  have hcprimitive := ht.isPrimitive_of_supertype hplain hraw hv hform hself
  have hcplain : (token.rawType env).isPlain = true :=
    hclass ▸ ClassRef.isPlain_iff.mpr ⟨hc, hcprimitive⟩
  obtain ⟨r, hr, hrarray, hrname, hway⟩ := ht.class_of_supertype hplain hraw hv hform hself
    (hclass ▸ hroot)
  rw [← hclass] at hway hc
  have hlow' := low_of_way hplain hc hrarray (hway.imp_left And.left) hlow
  rcases cases_of_mem_closure hplain hr hrarray hlow' hattempts' hx with
    rfl | ⟨n, d, hd, hpath, hfound⟩
  · rcases hway with ⟨-, hsame⟩ | ⟨n, hpath⟩
    · obtain ⟨_, -, -, hmem⟩ := exists_collected hplain hopen hacyclic hlow hattempts
      exact contains_of_mem ((hmem token).mpr (Or.inl rfl)) hsame
    · have hpath := hpath.target hrname
      have hmiddlePlain := isPlain_of_supertype hraw hc hclass (hacyclic n) hmiddle hpath hv
      exact contains_of_mem (mem_closure_of_rawPath hplain hopen hacyclic hlow hattempts hcplain
        huncut hmiddlePlain hpath hv) BEq.rfl
  · obtain ⟨k, hall⟩ := rawPath_of_way hplain hc hrarray (hway.imp_left And.left) hpath
    have hbelow : env.someRawBelow token.type d = true := by
      have hsub := isSubclass_of_rawPath hplain hcplain hd hall
      rw [someRawBelow, rawTypes_of_raw? hraw, ← hclass, List.any_cons, hsub]
      rfl
    obtain ⟨w, hw, hsame⟩ := ht.supertype_trans hplain hedges hcoherent hv hmiddle hform
      (fun hobject => Or.inr (hroot hobject)) (ClassRef.isPlain_iff.mp hd).1
      (fun h => absurd h (by simp [(ClassRef.isPlain_iff.mp hd).2]))
      (huncut _ d hd hall hbelow) hfound
    exact contains_of_mem (mem_closure_of_rawPath hplain hopen hacyclic hlow hattempts hcplain
      huncut hd hall hw) hsame

/-- What is above a supertype of an array is above the array, if all arrays have it. -/
theorem contains_of_array {start : Ty} (hstart : env.viewStart token.type = some start)
    (harray : (token.rawType env).isArray = true) (hcoherent : env.Coherent start)
    (htops : ∀ n d, env.RawPath n middle d → ∃ top ∈ arrayTops, top.name = d.name) :
    (token.closure env).contains x.type = true := by
  obtain ⟨v, hv, rfl⟩ := supertype_iff.mp hu
  have hopen := closed_of_viewStart hstart
  obtain ⟨hbelow, hfound⟩ := (supertype_closed_iff hopen hmiddle).mp hv
  have hraws : env.rawTypes token.type ≠ [] := by
    intro hnone
    rw [someRawBelow, hnone] at hbelow
    cases hbelow
  have hnames := arrayTop_name_ne harray hacyclic
  obtain ⟨top, htop, hname, hview, -⟩ :=
    viewAs_of_arrayTop hstart harray hnames (htops 0 middle rfl)
  obtain rfl : v = .cls top := by
    rw [hview] at hfound
    cases hfound
    rfl
  have htopPlain := arrayTop_isPlain htop
  have htopArray := (ClassRef.isPlain_iff.mp htopPlain).1
  have hlow' : env.Low Limits.closureDepth top := by
    refine hlow.step ?_
    rw [rawSupertypes_array harray]
    exact htop
  rcases cases_of_mem_closure (r := top) hplain rfl htopArray hlow' hattempts' hx with
    rfl | ⟨n, d, hd, hpath, hfound⟩
  · obtain ⟨a, -, haname, hw, -⟩ := supertype_of_arrayTop hstart harray hnames hraws htopPlain
      ⟨top, htop, rfl⟩
    exact contains_of_mem (mem_closure_of_arrayTop hplain hopen hacyclic hlow hattempts harray
      htopPlain ⟨top, htop, rfl⟩ hw) (ClassRef.beq_iff_name.mpr haname)
  · have hdtop := htops _ _ (RawPath.source hplain hmiddle htopArray hname.symm hpath)
    obtain ⟨w, hw, hsame⟩ := supertype_trans_array hstart harray hacyclic hplain
      hcoherent hv hmiddle hform htops (ClassRef.isPlain_iff.mp hd).1
      (fun h => absurd h (by simp [(ClassRef.isPlain_iff.mp hd).2])) hfound
    exact contains_of_mem (mem_closure_of_arrayTop hplain hopen hacyclic hlow hattempts harray
      hd hdtop hw) hsame

end

/-- The form of an array class is an array of this class. -/
theorem array_of_isInstance {t : Ty} {c : ClassRef} (h : env.classes.IsInstance c t)
    (hc : c.isArray = true) :
    (∃ start, env.viewStart t = some start) ∧ (env.erase t).isArray = true := by
  obtain ⟨σ, -, rfl⟩ := h
  cases c with
  | named _ _ => cases hc
  | array name component =>
      have harray := Registry.arrayOf_formWithin env.classes
        (env.classes.formSteps env.classes.size) component σ
      rcases Registry.formWithin_array env.classes (env.classes.formSteps env.classes.size) name
        component with ⟨-, hform⟩ | ⟨hne, hform⟩
      · rw [show env.classes.genericForm (.array name component) = _ from hform]
        exact ⟨⟨_, rfl⟩, rfl⟩
      · rw [show env.classes.genericForm (.array name component) = _ from hform, Ty.subst_array,
          harray.resolve_left hne]
        exact ⟨⟨_, rfl⟩, rfl⟩

/-- What navigation upwards relies on: the edges are no raw uses, ancestry has no cycle through
the class of the type, and all sequences of steps from the type to one class agree. -/
structure Composing (env : Env) (token : Token) : Prop where
  plain : env.classes.PlainEdges
  instances : env.InstanceEdges
  form : ∃ c, env.classes.IsInstance c token.type
  acyclic : ∀ n, ¬env.RawPath (n + 1) (token.rawType env) (token.rawType env)
  coherent : ∀ start ∈ env.viewStart token.type, env.Coherent start

/-- Navigation upwards composes along declared edges. What is found above a supertype of a
type, other than a raw use, is found above the type, and is in its closure. Above the root
class, if the type leads there over no edge, and above the classes that all arrays have, if it
is an array, nothing else may be declared; and no class but the type's own is above a
primitive. -/
theorem supertype_composes (h : Composing env token) (hmiddle : middle.isArray = false)
    (hu : token.supertype env middle = .ok u) (hform : env.viewStart u.type = some u.type)
    (htops : (token.rawType env).isArray = true →
      ∀ n d, env.RawPath n middle d → ∃ top ∈ arrayTops, top.name = d.name) :
    ((middle.isObject = true → env.classes.directSupertypes middle = [] ∨
        ∃ n, env.RawPath n (token.rawType env) middle) →
      ∀ upper w, upper.isArray = false → (upper.isPrimitive = true → u = token) →
        env.viewAs token.type upper ≠ .outOfSteps → u.supertype env upper = .ok w →
        ∃ v, token.supertype env upper = .ok v ∧ (v == w) = true) ∧
    ((middle.isObject = true → ∃ n, env.RawPath n (token.rawType env) middle) →
      (∀ d, ¬env.RawPath 64 (token.rawType env) d) →
      (token.collection env).guard.attempts ≤ Limits.attempts →
      (u.collection env).guard.attempts ≤ Limits.attempts → env.Uncut token.type →
      ∀ x ∈ (u.closure env).types, (token.closure env).contains x.type = true) := by
  obtain ⟨hplain, hedges, ⟨c, hinstance⟩, hacyclic, hcoherent⟩ := h
  cases hc : c.isArray with
  | false =>
      have ht : env.Instance token.type := ⟨c, hc, hinstance⟩
      have hstart := hcoherent _ ht.viewStart
      constructor
      · intro hroot upper w hupper hprimitive hcut hw
        obtain ⟨y, hy, rfl⟩ := supertype_iff.mp hu
        obtain ⟨z, hz, rfl⟩ := supertype_iff.mp hw
        obtain ⟨v, hv, hsame⟩ := ht.supertype_trans hplain hedges hstart hy hmiddle hform hroot
          hupper (fun h => congrArg Token.type (hprimitive h)) hcut hz
        exact ⟨token.derive v, supertype_iff.mpr ⟨v, hv, rfl⟩, hsame⟩
      · intro hroot hlow hattempts hattempts' huncut x hx
        exact contains_of_instance hplain hacyclic hlow hattempts hattempts' hmiddle hu hform hx
          hedges ht hstart huncut hroot
  | true =>
      obtain ⟨⟨start, hstart⟩, harray⟩ := array_of_isInstance hinstance hc
      constructor
      · intro _ upper w hupper hprimitive _ hw
        obtain ⟨y, hy, rfl⟩ := supertype_iff.mp hu
        obtain ⟨z, hz, rfl⟩ := supertype_iff.mp hw
        obtain ⟨v, hv, hsame⟩ := supertype_trans_array hstart harray hacyclic hplain
          (hcoherent _ hstart) hy hmiddle hform (htops harray) hupper
          (fun h => congrArg Token.type (hprimitive h)) hz
        exact ⟨token.derive v, supertype_iff.mpr ⟨v, hv, rfl⟩, hsame⟩
      · intro _ hlow hattempts hattempts' _ x hx
        exact contains_of_array hplain hacyclic hlow hattempts hattempts' hmiddle hu hform hx
          hstart harray (hcoherent _ hstart) (htops harray)

/-! ## Two ways to one interface -/

def sourceClass : ClassRef := .named "Source" .interface

def leftClass : ClassRef := .named "Left" .interface

def rightClass : ClassRef := .named "Right" .interface

def joinClass : ClassRef := .named "Join" .ordinary

def sourceVar : TyVar := ⟨0, .ofClass sourceClass, "S"⟩

def leftVar : TyVar := ⟨1, .ofClass leftClass, "L"⟩

def rightVar : TyVar := ⟨2, .ofClass rightClass, "R"⟩

def joinVar : TyVar := ⟨3, .ofClass joinClass, "J"⟩

/-- A class with two interfaces that extend a third one. -/
def joinEnv : Env :=
  ⟨[(ClassDecl.of sourceClass).withParameters [sourceVar],
    ((ClassDecl.of leftClass).withParameters [leftVar]).implementing
      (.param none sourceClass [.var leftVar]),
    ((ClassDecl.of rightClass).withParameters [rightVar]).implementing
      (.param none sourceClass [.var rightVar]),
    (((ClassDecl.of joinClass).withParameters [joinVar]).implementing
      (.param none leftClass [.var joinVar])).implementing
        (.param none rightClass [.var joinVar])].foldl Registry.register .core, .empty⟩

def joinType : Ty := .param none joinClass [stringType]

/-- An interface of one parameter with an argument in its place. -/
theorem isInstance_single {registry : Registry} {c : ClassRef} {v : TyVar} {arg : Ty}
    (hform : registry.genericForm c = .param none c [.var v]) (harg : arg.Writable) :
    registry.IsInstance c (.param none c [arg]) := by
  refine ⟨⟨[(v, arg)]⟩, ?_, ?_⟩
  · intro w t hget
    obtain ⟨_, hmem, -⟩ := Substitution.mem_of_get? hget
    rw [(Prod.mk.inj (List.mem_singleton.mp hmem)).2]
    exact harg
  · rw [hform, Ty.subst_param, List.map_singleton, Ty.subst_var, Substitution.get?_cons,
      if_pos BEq.rfl]
    rfl

theorem joinEnv_instances : joinEnv.InstanceEdges := by
  have hall : joinEnv.classes.decls.toList.flatMap (fun entry => entry.2.supertypes) =
      [.object, .param none leftClass [.var joinVar], .param none rightClass [.var joinVar],
        .param none sourceClass [.var leftVar], .param none sourceClass [.var rightVar]] := rfl
  refine fun c hc => Registry.forall_edges (Registry.forall_supertypes hall ?_) hc
  have hvar {c : ClassRef} {v w : TyVar}
      (hform : joinEnv.classes.genericForm c = .param none c [.var v]) :
      ∃ d, joinEnv.classes.IsInstance d (.param none c [.var w]) :=
    ⟨c, isInstance_single hform (.var trivial)⟩
  simp only [List.forall_mem_cons]
  exact ⟨⟨.object, (Registry.isInstance_cls rfl).mpr rfl⟩, hvar rfl, hvar rfl, hvar rfl, hvar rfl,
    List.forall_mem_nil _⟩

theorem joinType_coherent : joinEnv.Coherent joinType := by
  apply coherent_of_closed
    (P := fun t => t = joinType ∨ t = .object ∨ t = .param none leftClass [stringType] ∨
      t = .param none rightClass [stringType] ∨ t = .param none sourceClass [stringType])
    (Or.inl rfl)
  · rintro t (rfl | rfl | rfl | rfl | rfl) edge hedge
    · have hedges : edge ∈ [Ty.object, .param none leftClass [.var joinVar],
        .param none rightClass [.var joinVar]] := hedge
      simp only [List.mem_cons, List.not_mem_nil, or_false] at hedges
      rcases hedges with rfl | rfl | rfl
      · exact Or.inr (Or.inl rfl)
      · exact Or.inr (Or.inr (Or.inl rfl))
      · exact Or.inr (Or.inr (Or.inr (Or.inl rfl)))
    · exact absurd (show edge ∈ [] from hedge) List.not_mem_nil
    · obtain rfl := List.mem_singleton.mp
        (show edge ∈ [.param none sourceClass [.var leftVar]] from hedge)
      exact Or.inr (Or.inr (Or.inr (Or.inr rfl)))
    · obtain rfl := List.mem_singleton.mp
        (show edge ∈ [.param none sourceClass [.var rightVar]] from hedge)
      exact Or.inr (Or.inr (Or.inr (Or.inr rfl)))
    · exact absurd (show edge ∈ [] from hedge) List.not_mem_nil
  · rintro u v (rfl | rfl | rfl | rfl | rfl) (rfl | rfl | rfl | rfl | rfl) <;> decide

/-- The class lies above its two interfaces, these above the third one. -/
def joinRank (name : String) : Nat :=
  if name == joinClass.name then 2
  else if name == leftClass.name || name == rightClass.name then 1 else 0

theorem joinEnv_low {c : ClassRef} (hc : c.isArray = false) : joinEnv.Low 64 c := by
  refine low_of_rank joinRank (by decide) (by decide) hc ?_
  unfold joinRank
  split
  · decide
  · split <;> decide

theorem joinType_composing : Composing joinEnv (ofType joinType) where
  plain := by decide
  instances := joinEnv_instances
  form := ⟨joinClass, isInstance_single rfl (.cls trivial)⟩
  acyclic := (joinEnv_low (c := joinClass) rfl).acyclic (by decide) rfl
  coherent := by
    intro start hstart
    obtain rfl := Option.some.inj hstart
    exact joinType_coherent

/-- The third interface is found by way of either of the two. -/
theorem supertype_composes_join :
    ∃ u w, (ofType joinType).supertype joinEnv rightClass = .ok u ∧
      u.supertype joinEnv sourceClass = .ok w ∧
      (∃ v, (ofType joinType).supertype joinEnv sourceClass = .ok v ∧ (v == w) = true) ∧
      ∀ x ∈ (u.closure joinEnv).types,
        ((ofType joinType).closure joinEnv).contains x.type = true := by
  have hcut (d : ClassRef) : joinEnv.viewAs joinType d ≠ .outOfSteps :=
    viewAs_ne_outOfSteps (t := joinType) joinType_composing.plain rfl rfl joinType_coherent
      (edgesBelow_of_edgeBound (by decide)) d
  let u := ofType (.param none rightClass [stringType])
  have hu : (ofType joinType).supertype joinEnv rightClass = .ok u := rfl
  obtain ⟨htrans, hclosure⟩ := supertype_composes joinType_composing rfl hu rfl
    (fun h => absurd h (by decide))
  refine ⟨u, ofType (.param none sourceClass [stringType]), hu, rfl, ?_, ?_⟩
  · exact htrans (fun h => absurd h (by decide)) sourceClass _ rfl (fun h => absurd h (by decide))
      (hcut _) rfl
  · exact hclosure (fun h => absurd h (by decide)) (joinEnv_low (c := joinClass) rfl)
      (by decide) (by decide) fun _ d _ _ _ => hcut d

/-! ## Relations that no edge declares -/

def copyClass : ClassRef := .named "Copy" .interface

/-- An interface above one that all arrays have. -/
def copyEnv : Env :=
  ⟨(Registry.core.register (.of copyClass)).register
    ((ClassDecl.of .cloneable).implementing (.cls copyClass)), .empty⟩

def stringArray : Ty := .cls (.arrayOf (.named "java.lang.String" .ordinary))

theorem copyEnv_supertypes :
    copyEnv.classes.decls.toList.flatMap (fun entry => entry.2.supertypes) = [.cls copyClass] := rfl

theorem copyEnv_instances : copyEnv.InstanceEdges := by
  refine fun c hc => Registry.forall_edges (Registry.forall_supertypes copyEnv_supertypes ?_) hc
  exact List.forall_mem_singleton.mpr ⟨copyClass, (Registry.isInstance_cls rfl).mpr rfl⟩

theorem copyEnv_scoped : copyEnv.ScopedEdges :=
  scopedEdges_of_check (by decide)
    (Registry.forall_supertypes copyEnv_supertypes (List.forall_mem_singleton.mpr (.cls _)))

/-- How far a class is below the interface, with the array below all of them. -/
def copyRank (name : String) : Nat :=
  if name == (ClassRef.arrayOf (.named "java.lang.String" .ordinary)).name then 2
  else if name == ClassRef.cloneableName then 1 else 0

theorem copyEnv_rank : ∀ entry ∈ copyEnv.classes.decls.toList, ∀ e ∈ entry.2.supertypes,
    copyRank (copyEnv.erase e).name < copyRank entry.1 := by decide

theorem copyEnv_acyclic (c : ClassRef) (n : Nat) (hc : c.isArray = false) :
    ¬copyEnv.RawPath (n + 1) c c := by
  intro hpath
  have hdown := rank_of_rawPath (by decide) copyEnv_rank hc hpath
  omega

theorem stringArray_composing : Composing copyEnv (ofType stringArray) where
  plain := by decide
  instances := copyEnv_instances
  form := ⟨_, (Registry.isInstance_cls rfl).mpr rfl⟩
  acyclic := by
    rintro n ⟨above, habove, hpath⟩
    have htop : above ∈ arrayTops := habove
    have hdown := rank_of_rawPath (by decide) copyEnv_rank
      (ClassRef.isPlain_iff.mp (arrayTop_isPlain htop)).1 hpath
    simp only [List.mem_cons, List.not_mem_nil, or_false] at htop
    have hrank : copyRank above.name < 2 := by rcases htop with rfl | rfl | rfl <;> decide
    exact absurd (hrank.trans_le (Nat.le_add_right 2 n)) (not_lt.mpr hdown)
  coherent := by
    intro start hstart
    obtain rfl := Option.some.inj hstart
    apply coherent_of_closed
      (P := fun t => t = stringArray ∨ t = .object ∨ t = .cls .cloneable ∨
        t = .cls .serializable ∨ t = .cls copyClass) (Or.inl rfl)
    · rintro t (rfl | rfl | rfl | rfl | rfl) edge hedge
      · have hedges : edge ∈ [Ty.object, .cls .cloneable, .cls .serializable] := hedge
        simp only [List.mem_cons, List.not_mem_nil, or_false] at hedges
        rcases hedges with rfl | rfl | rfl
        · exact Or.inr (Or.inl rfl)
        · exact Or.inr (Or.inr (Or.inl rfl))
        · exact Or.inr (Or.inr (Or.inr (Or.inl rfl)))
      · exact absurd (show edge ∈ [] from hedge) List.not_mem_nil
      · obtain rfl := List.mem_singleton.mp (show edge ∈ [.cls copyClass] from hedge)
        exact Or.inr (Or.inr (Or.inr (Or.inr rfl)))
      · exact absurd (show edge ∈ [] from hedge) List.not_mem_nil
      · exact absurd (show edge ∈ [] from hedge) List.not_mem_nil
    · rintro u v (rfl | rfl | rfl | rfl | rfl) (rfl | rfl | rfl | rfl | rfl) <;> decide

/-- Where no step can be taken there is nothing to agree on. -/
theorem coherent_of_top {t : Ty} (h : env.classes.directSupertypes (env.erase t) = []) :
    env.Coherent t := by
  refine coherent_of_closed (P := fun s => s = t) rfl ?_ ?_
  · rintro s rfl edge hedge
    rw [h] at hedge
    cases hedge
  · rintro u v rfl rfl _
    exact Ty.same_refl _

theorem copyType_composing : Composing copyEnv (ofType (.cls copyClass)) where
  plain := by decide
  instances := copyEnv_instances
  form := ⟨copyClass, (Registry.isInstance_cls rfl).mpr rfl⟩
  acyclic := fun n => copyEnv_acyclic copyClass n rfl
  coherent := by
    intro start hstart
    obtain rfl := Option.some.inj hstart
    exact coherent_of_top rfl

/-- An array is not seen as an interface above one that it has, and the closure of an interface
has no root class. -/
theorem supertype_composes_lost :
    (¬∀ (env : Env) (token u w : Token) (middle upper : ClassRef), Composing env token →
      env.ScopedEdges → (∀ c n, c.isArray = false → ¬env.RawPath (n + 1) c c) →
      middle.isArray = false → upper.isArray = false →
      token.supertype env middle = .ok u → u.supertype env upper = .ok w →
      env.viewAs token.type upper ≠ .outOfSteps →
      ∃ v, token.supertype env upper = .ok v ∧ (v == w) = true) ∧
    ¬∀ (env : Env) (token u : Token) (middle : ClassRef), Composing env token →
      env.ScopedEdges → (∀ c n, c.isArray = false → ¬env.RawPath (n + 1) c c) →
      middle.isArray = false → token.supertype env middle = .ok u →
      (∀ d, ¬env.RawPath 64 (token.rawType env) d) → (∀ d, ¬env.RawPath 64 (u.rawType env) d) →
      (token.collection env).guard.attempts ≤ Limits.attempts →
      (u.collection env).guard.attempts ≤ Limits.attempts →
      env.Uncut token.type → env.Uncut u.type →
      ∀ x ∈ (u.closure env).types, (token.closure env).contains x.type = true := by
  constructor
  · intro hclaim
    have hview : copyEnv.viewAs stringArray copyClass = .found (.cls copyClass) := rfl
    obtain ⟨v, hv, -⟩ := hclaim copyEnv (ofType stringArray) (ofType (.cls .cloneable))
      (ofType (.cls copyClass)) .cloneable copyClass stringArray_composing copyEnv_scoped
      copyEnv_acyclic rfl rfl rfl rfl (fun h => nomatch hview.symm.trans h)
    have hfails : ((ofType stringArray).supertype copyEnv copyClass).isOk = false := by
      decide
    rw [hv] at hfails
    cases hfails
  · intro hclaim
    have hlow (c : ClassRef) (hc : c.isArray = false) : copyEnv.Low 64 c := by
      refine low_of_rank copyRank (by decide) copyEnv_rank hc ?_
      unfold copyRank
      split
      · decide
      · split <;> decide
    have huncut {c : ClassRef} (hc : c.isArray = false)
        (htop : copyEnv.classes.directSupertypes c = [])
        (hform : copyEnv.classes.genericForm c = .cls c) : copyEnv.Uncut (.cls c) := by
      intro n d _ _ _
      refine viewAs_ne_outOfSteps (t := .cls c) (by decide) rfl hc ?_
        (edgesBelow_of_edgeBound (by decide)) d
      rw [climbStart, hform]
      exact coherent_of_top htop
    have hcontains := hclaim copyEnv (ofType (.cls copyClass)) (ofType .object) .object
      copyType_composing copyEnv_scoped copyEnv_acyclic rfl rfl (hlow copyClass rfl)
      (hlow .object rfl) (by decide) (by decide) (huncut rfl rfl rfl)
      (huncut rfl rfl rfl)
    have hmem : ofType .object ∈ ((ofType .object).closure copyEnv).types := List.mem_cons_self
    exact absurd (hcontains _ hmem) (by decide)

end Token

end Generics
