import Generics.Proofs.Canonical
import Generics.Proofs.Composition
import Generics.Proofs.Resolvers
import Generics.Proofs.Scopes

/-!
Two ways to a direct supertype. A token resolves the declared edges of its class with the
covariant bindings of its type, which come from a visit through everything above;
navigation to the class of an edge takes one step of a walk. No ancestor of a class binds
the parameters of the class, so whatever the visit finds further up, it leaves to the edges
of the class what the type itself says.

The two part where navigation does not look at edges: a primitive is below itself alone,
everything else is below the root class without arguments, and an array without a raw type
is below nothing. They part, too, where there are no bindings: then an edge is left as it is
written, while a step of the walk builds the arrays in it anew.
-/

namespace Generics

namespace Env

open Ty (Same Occurs)

variable {env : Env} {t x : Ty} {c d : ClassRef} {v p : TyVar} {σ τ : Substitution}

/-- Edges that lead to one class once, to classes and to types without owners, that mention
parameters of their own classes only, and that do not lead back. -/
structure DirectEdges (env : Env) : Prop where
  plain : env.classes.PlainEdges
  ownerless : ∀ c, c.isArray = false → ∀ e ∈ env.classes.directSupertypes c, e.Ownerless
  own : ∀ c, c.isArray = false → ∀ e ∈ env.classes.directSupertypes c,
    ∀ v, Occurs v e → ∃ p ∈ env.classes.parameters c, (p == v) = true
  once : ∀ c, c.isArray = false → (env.classes.directSupertypes c).Pairwise fun e e' =>
    (env.erase e == env.erase e') = false
  apart : env.classes.ApartParameters
  acyclic : ∀ c n, c.isArray = false → ¬env.RawPath (n + 1) c c

/-- Edges that lead to one class are one edge. -/
theorem DirectEdges.unique (h : env.DirectEdges) (hc : c.isArray = false) {e e' : Ty}
    (he : e ∈ env.classes.directSupertypes c) (he' : e' ∈ env.classes.directSupertypes c)
    (hname : (env.erase e == env.erase e') = true) : e = e' := by
  by_contra hne
  have hsymm : Std.Symm fun e e' : Ty => (env.erase e == env.erase e') = false := by
    refine ⟨fun a b hab => ?_⟩
    rw [← Bool.not_eq_true] at hab ⊢
    exact fun hba => hab (BEq.symm hba)
  have hdifferent := (h.once c hc).forall he he' hne
  rw [hname] at hdifferent
  cases hdifferent

/-- A check of the declarations, with a rank that falls along the edges. -/
theorem directEdges_of_check (rank : String → Nat) (hplain : env.classes.PlainEdges)
    (hownerless : ∀ entry ∈ env.classes.decls.toList, ∀ e ∈ entry.2.supertypes, e.Ownerless)
    (hown : ∀ entry ∈ env.classes.decls.toList, ∀ e ∈ entry.2.supertypes,
      e.isWritten (fun _ => true) (fun v => entry.2.parameters.any (· == v)) = true)
    (honce : ∀ entry ∈ env.classes.decls.toList, entry.2.supertypes.Pairwise fun e e' =>
      (env.erase e == env.erase e') = false)
    (hapart : ∀ entry ∈ env.classes.decls.toList, ∀ entry' ∈ env.classes.decls.toList,
      ∀ p ∈ entry.2.parameters, ∀ q ∈ entry'.2.parameters, (p == q) = true → entry.1 = entry'.1)
    (hrank : ∀ entry ∈ env.classes.decls.toList, ∀ e ∈ entry.2.supertypes,
      rank (env.erase e).name < rank entry.1) : env.DirectEdges where
  plain := hplain
  ownerless _ hc := Registry.forall_edges hownerless hc
  own := own_of_check hown
  once c hc := by
    obtain ⟨name, kind, rfl⟩ := ClassRef.exists_named hc
    rw [Registry.directSupertypes_named]
    cases hd : env.classes.decls[name]? with
    | none => exact .nil
    | some d => exact honce (name, d) (Std.TreeMap.mem_toList_iff_getElem?_eq_some.mpr hd)
  apart c d p q hp hq hpq := by
    obtain ⟨first, hfirst, heq⟩ := Registry.mem_parameters hp
    obtain ⟨second, hsecond, heq'⟩ := Registry.mem_parameters hq
    exact hapart _ hfirst _ hsecond p (heq ▸ hp) q (heq' ▸ hq) hpq
  acyclic c n hc hpath := by
    have hdown := rank_of_rawPath hplain hrank hc hpath
    omega

/-- A class has no other edges to the root class than the bare ones. -/
def BareRoot (env : Env) (c : ClassRef) : Prop :=
  ∀ e ∈ env.classes.directSupertypes c, (env.erase e).isObject = true → Same e .object

instance (env : Env) (c : ClassRef) : Decidable (env.BareRoot c) :=
  inferInstanceAs (Decidable (∀ e ∈ env.classes.directSupertypes c,
    (env.erase e).isObject = true → Same e .object))

/-! ## What ancestors leave alone -/

/-- Bindings that give the parameters of a class the same values. -/
def AgreeOn (env : Env) (c : ClassRef) (σ τ : Substitution) : Prop :=
  ∀ p ∈ env.classes.parameters c, ∀ v, (p == v) = true → τ.get? v = σ.get? v

/-- A type of a class above another one. -/
structure Over (env : Env) (c : ClassRef) (x : Ty) : Prop where
  ownerless : x.Ownerless
  above : ∃ d, x.raw? = some d ∧ d.isArray = false ∧ env.Under c d

theorem get?_records_of_ne {bindings : List (TyVar × Ty)}
    (h : ∀ binding ∈ bindings, (binding.1 == v) = false) :
    (bindings.foldl record σ).get? v = σ.get? v := by
  cases hget : (bindings.foldl record σ).get? v with
  | none =>
      cases hold : σ.get? v with
      | none => rfl
      | some a =>
          rw [partOf_records σ bindings v a hold] at hget
          cases hget
  | some a =>
      rcases mem_of_records hget with hold | ⟨q, hmem, hqv⟩
      · exact hold.symm
      · have hne := h _ hmem
        rw [hqv] at hne
        cases hne

section

variable (h : env.DirectEdges)

include h

theorem over_edge (hd : d.isArray = false)
    (hcd : Relation.ReflTransGen (fun c d => d ∈ env.rawSupertypes c) c d) {e : Ty}
    (he : e ∈ env.classes.directSupertypes d) (σ : Substitution) : env.Over c (e.subst σ) := by
  obtain ⟨r, hr, hrplain, herase⟩ := raw?_edge h.plain he
  refine ⟨?_, r, raw?_subst hr σ, (ClassRef.isPlain_iff.mp hrplain).1,
    .tail' hcd (List.mem_map.mpr ⟨e, he, herase⟩)⟩
  have hownerless := h.ownerless d hd e he
  cases e with
  | param owner raw args =>
      obtain rfl : owner = none := hownerless
      rw [Ty.subst_param]
      exact rfl
  | cls _ => exact trivial
  | _ => cases hr

/-- The parameters of a class above are none of its own. -/
theorem ne_of_under (hc : c.isArray = false) (hcd : env.Under c d)
    (hp : p ∈ env.classes.parameters c) (hpv : (p == v) = true) {q : TyVar}
    (hq : q ∈ env.classes.parameters d) : (q == v) = false := by
  rw [← Bool.not_eq_true]
  intro hqv
  obtain ⟨n, hpath⟩ := hcd.rawPath
  exact h.acyclic c n hc
    (hpath.target (h.apart _ _ _ _ hp hq (BEq.trans hpv (BEq.symm hqv))).symm)

omit h in
theorem visitEdges_agreeOn {visit : Ty → Visit Substitution → Visit Substitution}
    (hvisit : ∀ x s, env.Over c x → env.AgreeOn c σ s.acc → env.AgreeOn c σ (visit x s).acc)
    (hover : ∀ e ∈ env.classes.directSupertypes d, ∀ σ, env.Over c (e.subst σ))
    {s : Visit Substitution} (hs : env.AgreeOn c σ s.acc) :
    env.AgreeOn c σ (env.visitEdges visit d s).acc := by
  unfold visitEdges
  generalize env.classes.directSupertypes d = edges at hover
  induction edges generalizing s with
  | nil => exact hs
  | cons e edges ih =>
      obtain ⟨he, hrest⟩ := List.forall_mem_cons.mp hover
      exact ih (hvisit _ s (he s.acc) hs) hrest

/-- A visit above a class leaves the parameters of the class as they are bound. -/
theorem within_agreeOn (hc : c.isArray = false) (levels : Nat) (hx : env.Over c x)
    {s : Visit Substitution} (hs : env.AgreeOn c σ s.acc) :
    env.AgreeOn c σ (Visit.within env.covariantHandler levels x s).acc := by
  refine Visit.within_preserves partOf_growth (covariantHandler_adds env) ?_ levels hx hs
  rintro visit - hvisit x s ⟨hownerless, d, hraw, hd, hcd⟩ hs
  have hover := fun e he => over_edge h (e := e) hd hcd.to_reflTransGen he
  cases x with
  | cls d' =>
      obtain rfl := Option.some.inj hraw
      exact visitEdges_agreeOn hvisit hover hs
  | param owner raw args =>
      obtain rfl := Option.some.inj hraw
      -- there is no owner to visit, which might be of the class below
      obtain rfl : owner = none := hownerless
      refine visitEdges_agreeOn hvisit (s := s.modify _) hover ?_
      intro p hp v hpv
      have hforeign : ∀ binding ∈ (env.classes.parameters raw).zip args,
          (binding.1 == v) = false := fun binding hmem =>
        ne_of_under h hc hcd hp hpv (List.of_mem_zip hmem).1
      exact (get?_records_of_ne hforeign).trans (hs p hp v hpv)
  | _ => cases hraw

/-! ## What a type says itself -/

omit h in
/-- The arguments of a type for the parameters of its class. -/
def recorded (env : Env) : Ty → Substitution
  | .param _ raw args => recordArgs .empty (env.classes.parameters raw) args
  | _ => .empty

/-- The covariant bindings of a type give the parameters of its class what it says itself. -/
theorem covariantly_agreeOn (hraw : t.raw? = some c) (hc : c.isArray = false)
    (hownerless : t.Ownerless) : env.AgreeOn c (env.recorded t) (env.covariantly t) := by
  have hover := fun e he => over_edge h (e := e) hc .refl he
  have habove : ∀ x s, env.Over c x → env.AgreeOn c (env.recorded t) s.acc →
      env.AgreeOn c (env.recorded t)
        (Visit.within env.covariantHandler Limits.visitDepth x s).acc :=
    fun _ _ hx hs => within_agreeOn h hc Limits.visitDepth hx hs
  have hrefl (σ : Substitution) : env.AgreeOn c σ σ := fun _ _ _ _ => rfl
  -- the type itself is entered first, and its edges are visited one level below
  cases t with
  | cls d =>
      obtain rfl := Option.some.inj hraw
      exact visitEdges_agreeOn (s := (Visit.start .visit .empty).opened (.cls d)) habove hover
        (hrefl _)
  | param owner raw args =>
      obtain rfl := Option.some.inj hraw
      obtain rfl : owner = none := hownerless
      exact visitEdges_agreeOn
        (s := ((Visit.start .visit .empty).opened (.param none raw args)).modify
          fun σ => recordArgs σ (env.classes.parameters raw) args) habove hover (hrefl _)
  | _ => cases hraw

omit h in
/-- Recording arguments leaves out those that are their own parameters, which changes no type. -/
theorem same_recordArgs {ps : List TyVar} (hps : ps.Pairwise fun p q => (p == q) = false)
    (args : List Ty) (v : TyVar) :
    Same ((Ty.var v).subst ⟨ps.zip args⟩) ((Ty.var v).subst (recordArgs .empty ps args)) := by
  rw [Ty.subst_var, Ty.subst_var]
  have hmem : ∀ {b}, (recordArgs .empty ps args).get? v = some b →
      ∃ q, (q, b) ∈ ps.zip args ∧ (q == v) = true := fun hget =>
    (mem_of_records hget).resolve_left nofun
  cases hcarried : Substitution.get? ⟨ps.zip args⟩ v with
  | none =>
      cases hget : (recordArgs .empty ps args).get? v with
      | none => exact Ty.same_refl _
      | some b =>
          obtain ⟨q, hq, hqv⟩ := hmem hget
          obtain ⟨u, hu⟩ := Substitution.exists_get? hq hqv
          rw [hcarried] at hu
          cases hu
  | some a =>
      obtain ⟨q, hq, hqv⟩ := Substitution.mem_of_get? hcarried
      cases hget : (recordArgs .empty ps args).get? v with
      | some b =>
          obtain ⟨r, hr, hrv⟩ := hmem hget
          exact zip_unique hps (List.forall₂_same.mpr fun a _ => Ty.same_refl a) hq hr
            (BEq.trans hqv (BEq.symm hrv))
      | none =>
          have hvar : Substitution.isVariable q a = true := by
            by_contra hne
            have hsome := isSome_of_records (σ := .empty) hq ((Bool.not_eq_true _).mp hne)
            rw [← recordArgs_eq, Substitution.get?_of_beq _ hqv, hget] at hsome
            cases hsome
          cases a with
          | var w => exact Ty.same_var.mpr ⟨v, rfl, BEq.trans hvar hqv⟩
          | _ => cases hvar

omit h in
/-- What the walk starts from carries what the type says itself. -/
theorem same_carried (hdistinct : env.classes.DistinctParameters) (hraw : t.raw? = some c)
    (hc : c.isArray = false) (hownerless : t.Ownerless) (hp : p ∈ env.classes.parameters c)
    (hpv : (p == v) = true) :
    Same ((Ty.var v).subst (env.carried (env.climbStart t)))
      ((Ty.var v).subst (env.recorded t)) := by
  cases t with
  | cls d =>
      obtain rfl := Option.some.inj hraw
      have hform : env.climbStart (.cls d) = .cls d ∨ ∃ owner, env.climbStart (.cls d) =
          .param owner d ((env.classes.parameters d).map Ty.var) :=
        Registry.formWithin_raw env.classes _ hc
      rcases hform with hform | ⟨owner, hform⟩
      · rw [hform]
        exact Ty.same_refl _
      · rw [hform]
        obtain ⟨a, ha⟩ := exists_zip (List.length_map Ty.var) hp
        obtain ⟨q, u, hget, hmem, hqv⟩ := exists_carried_param owner ha hpv
        rw [← List.map_prod_left_eq_zip] at hmem
        obtain ⟨q', -, heq⟩ := List.mem_map.mp hmem
        cases heq
        rw [Ty.subst_var, hget]
        exact Ty.same_var.mpr ⟨v, rfl, hqv⟩
  | param owner raw args =>
      obtain rfl := Option.some.inj hraw
      obtain rfl : owner = none := hownerless
      have hcarried : (Ty.var v).subst (env.carried (.param none raw args)) =
          (Ty.var v).subst ⟨(env.classes.parameters raw).zip args⟩ := by
        rw [Ty.subst_var, Ty.subst_var, get?_carried]
        rfl
      exact hcarried ▸ same_recordArgs (Registry.parameters_distinct hdistinct raw) args v
  | _ => cases hraw

/-- An edge is given the same arguments on the visit and on the walk. -/
theorem same_edge (hdistinct : env.classes.DistinctParameters) (hraw : t.raw? = some c)
    (hc : c.isArray = false) (hownerless : t.Ownerless) (ht : t.Writable) {e : Ty}
    (hwritable : e.Writable) (he : e ∈ env.classes.directSupertypes c) :
    Same (e.subst (env.covariantly t)) (e.subst (env.carried (env.climbStart t))) := by
  have hstart : (env.climbStart t).Writable := by
    cases t with
    | cls d => exact Registry.writable_genericForm d
    | _ => exact ht
  have himage : ∀ v, Occurs v e →
      ((Ty.var v).subst (env.carried (env.climbStart t))).Writable := fun v _ =>
    carried_writable hstart v
  refine Ty.same_symm (Ty.writable_subst hwritable himage) (Ty.same_subst hwritable himage ?_)
  intro v hv
  obtain ⟨p, hp, hpv⟩ := h.own c hc e he v hv
  have hcovariant : (Ty.var v).subst (env.covariantly t) = (Ty.var v).subst (env.recorded t) := by
    rw [Ty.subst_var, Ty.subst_var, covariantly_agreeOn h hraw hc hownerless p hp v hpv]
  rw [hcovariant]
  exact same_carried hdistinct hraw hc hownerless hp hpv

/-! ## What the edges say -/

omit h in
/-- A parameterized type that is handled records its arguments. -/
theorem within_recorded {levels : Nat} {y : Ty} {s : Visit Substitution}
    (hquiet : (Visit.within env.covariantHandler (levels + 1) y s).guard.refusals =
      s.guard.refusals)
    (hfree : s.guard.held.contains y = false) :
    env.Recorded (Visit.within env.covariantHandler (levels + 1) y s).acc y := by
  obtain ⟨heq, -, -⟩ := Visit.within_of_quiet hquiet hfree
  rw [heq]
  cases y with
  | param owner raw args =>
      have hgrows := Visit.within_grows partOf_growth (covariantHandler_adds env) levels
      let s' := (s.opened (.param owner raw args)).modify fun σ =>
        recordArgs σ (env.classes.parameters raw) args
      have hedges : Visit.Grows Substitution.PartOf s'
          (env.visitEdges (Visit.within env.covariantHandler levels) raw s') :=
        visitEdges_grows hgrows raw s'
      have hrest := hedges.trans partOf_growth
        (Visit.all_grows partOf_growth hgrows owner.toList _)
      exact (recorded_param s.acc owner raw args).mono hrest.acc_le
  | _ =>
      intro _ _ _ hy
      cases hy

/-- A visit of the edges of a class that meets no limit records the arguments of each, as they
are when it is met. -/
theorem visitEdges_recorded (hc : c.isArray = false) (hraw : t.raw? = some c) {levels : Nat}
    {s : Visit Substitution} (hheld : s.guard.held = [t])
    (hquiet : (env.visitEdges (Visit.within env.covariantHandler (levels + 1)) c s).guard.refusals =
      s.guard.refusals) {e : Ty} (he : e ∈ env.classes.directSupertypes c) :
    ∃ σ, env.Recorded
      (env.visitEdges (Visit.within env.covariantHandler (levels + 1)) c s).acc (e.subst σ) := by
  have hgrows := Visit.within_grows partOf_growth (covariantHandler_adds env) (levels + 1)
  obtain ⟨s', hbefore, hafter⟩ := Visit.foldl_splits partOf_growth
    (fun s (e : Ty) => hgrows (e.subst s.acc) s) he s
  refine ⟨s'.acc, (within_recorded ?_ ?_).mono hafter.acc_le⟩
  · exact Visit.quiet_between hbefore (hgrows _ _) hafter hquiet
  · -- only the type itself is held, and no edge leads back to its class
    rw [hbefore.held_eq, hheld, ← Bool.not_eq_true, List.contains_iff_exists_mem_beq]
    rintro ⟨z, hz, hsame⟩
    obtain rfl := List.mem_singleton.mp hz
    obtain ⟨d, hd, -, herase⟩ := raw?_edge h.plain he
    obtain ⟨c', hc', hname⟩ := raw?_of_same hsame (raw?_subst hd s'.acc)
    obtain rfl := Option.some.inj (hraw.symm.trans hc')
    exact h.acyclic c 0 hc ⟨d, List.mem_map.mpr ⟨e, he, herase⟩, hname⟩

theorem covariantly_recorded (hc : c.isArray = false) (hraw : t.raw? = some c)
    (hownerless : t.Ownerless) (hquiet : (env.covariantVisit t).guard.refusals = 0) {e : Ty}
    (he : e ∈ env.classes.directSupertypes c) :
    ∃ σ, env.Recorded (env.covariantly t) (e.subst σ) := by
  have hvisit : env.covariantVisit t = Visit.within env.covariantHandler (Limits.visitDepth + 1) t
      (.start .visit .empty) := rfl
  rw [covariantly]
  rw [hvisit] at hquiet ⊢
  obtain ⟨heq, hquietHandler, -⟩ := Visit.within_of_quiet hquiet rfl
  rw [heq]
  cases t with
  | cls d =>
      obtain rfl := Option.some.inj hraw
      exact visitEdges_recorded h hc hraw rfl hquietHandler he
  | param owner raw args =>
      obtain rfl := Option.some.inj hraw
      obtain rfl : owner = none := hownerless
      exact visitEdges_recorded h hc hraw (s := Visit.modify _ _) rfl hquietHandler he
  | _ => cases hraw

omit h in
theorem isVariable_subst {a : Ty} (ha : ∀ v, a ≠ .var v) :
    Substitution.isVariable p (a.subst σ) = false := by
  cases a with
  | array component =>
      rw [Ty.subst_array]
      cases component.subst σ <;> rfl
  | var v => exact absurd rfl (ha v)
  | _ => rfl

omit h in
theorem resolve_of_isSome (hsome : (σ.get? p).isSome = true) (e : Ty) :
    σ.resolve e = e.subst σ := by
  unfold Substitution.resolve
  split
  · rename_i hempty
    rw [Substitution.get?, List.isEmpty_iff.mp hempty] at hsome
    cases hsome
  · rfl

omit h in
/-- Bindings that record the arguments of a type replace its variables: they are empty only if
the arguments are variables, and then there is nothing to build anew. -/
theorem resolve_of_recorded {e : Ty} (hplain : e.isPlain = true) (hownerless : e.Ownerless)
    (hshaped : env.Shaped e) (hrecorded : env.Recorded σ (e.subst τ)) :
    σ.resolve e = e.subst σ := by
  cases e with
  | cls d =>
      have hformed : (Ty.cls d).Formed fun _ => True := .cls trivial
      exact Ty.resolve_eq_subst hformed σ
  | param owner raw args =>
      obtain rfl : owner = none := hownerless
      by_cases hvars : ∀ a ∈ args, ∃ v, a = .var v
      · have hformed : (Ty.param none raw args).Formed fun _ => True := by
          refine .param nofun trivial fun a ha => ?_
          obtain ⟨v, rfl⟩ := hvars a ha
          exact .var v
        exact Ty.resolve_eq_subst hformed σ
      · push Not at hvars
        obtain ⟨a, ha, hne⟩ := hvars
        have hlength : args.length = (env.classes.parameters raw).length := by
          cases hshaped with
          | bare hargs => exact hargs
        have hargs : ((env.classes.parameters raw).zip args).map Prod.snd = args :=
          List.map_snd_zip hlength.le
        rw [← hargs] at ha
        obtain ⟨⟨q, a⟩, hmem, rfl⟩ := List.mem_map.mp ha
        have hmem' : (q, a.subst τ) ∈ (env.classes.parameters raw).zip (args.map (Ty.subst τ)) := by
          rw [List.zip_map_right]
          exact List.mem_map.mpr ⟨(q, a), hmem, rfl⟩
        rw [Ty.subst_param] at hrecorded
        exact resolve_of_isSome (hrecorded _ _ _ rfl _ hmem' (isVariable_subst hne)) _
  | _ => cases hplain

/-- An edge as the constructors build it, or with as many arguments as its class has parameters,
where the visit meets no limit. -/
def Resolvable (env : Env) (t e : Ty) : Prop :=
  e.Formed (fun _ => True) ∨
    e.Writable ∧ env.Shaped e ∧ (env.covariantVisit t).guard.refusals = 0

omit h in
theorem Resolvable.writable {e : Ty} (he : env.Resolvable t e) : e.Writable := by
  rcases he with hformed | ⟨hwritable, -⟩
  · exact hformed.writable
  · exact hwritable

/-- The covariant bindings replace the parameters in an edge, unless there is nothing to replace
with and the edge is left as it is written. -/
theorem resolve_edge (hc : c.isArray = false) (hraw : t.raw? = some c) (hownerless : t.Ownerless)
    {e : Ty} (he : e ∈ env.classes.directSupertypes c) (hbuilt : env.Resolvable t e) :
    (env.covariantly t).resolve e = e.subst (env.covariantly t) := by
  rcases hbuilt with hformed | ⟨-, hshaped, hquiet⟩
  · exact Ty.resolve_eq_subst hformed _
  · obtain ⟨σ, hrecorded⟩ := covariantly_recorded h hc hraw hownerless hquiet he
    exact resolve_of_recorded (Registry.directSupertypes_plain h.plain c e he)
      (h.ownerless c hc e he) hshaped hrecorded

/-! ## One step of the walk -/

omit h in
theorem isRawUse_climbStart (hc : c.isArray = false) (hraw : t.raw? = some c) :
    env.isRawUse (env.climbStart t) = false := by
  cases t with
  | cls d =>
      obtain rfl := Option.some.inj hraw
      exact isRawUse_of_isInstance (Registry.isInstance_genericForm d) hc
  | param _ _ _ => rfl
  | _ => cases hraw

/-- The class of an edge is navigated to over this edge, unless it is the root class. -/
theorem supertype_edge (hraw : t.raw? = some c) (hc : c.isPlain = true) {e : Ty}
    (he : e ∈ env.classes.directSupertypes c) :
    ((env.erase e).isObject = true ∧ env.supertype t (env.erase e) = .ok .object) ∨
      env.supertype t (env.erase e) = .ok (e.subst (env.carried (env.climbStart t))) := by
  obtain ⟨harray, hprimitive⟩ := ClassRef.isPlain_iff.mp hc
  obtain ⟨d, hd, hdplain, herase⟩ := raw?_edge h.plain he
  have hdarray := (ClassRef.isPlain_iff.mp hdplain).1
  have hpath : env.RawPath 1 c d := ⟨d, List.mem_map.mpr ⟨e, he, herase⟩, rfl⟩
  have hstart : env.viewStart t = some (env.climbStart t) := viewStart_eq_climbStart hraw harray
  have hstartRaw : env.erase (env.climbStart t) = c := erase_of_raw? (raw?_climbStart hraw harray)
  rw [herase]
  have hbelow : env.someRawBelow t d = true := by
    rw [someRawBelow, rawTypes_of_raw? hraw, List.any_cons,
      isSubclass_of_rawPath h.plain hc hdplain hpath]
    rfl
  have hview {u : Ty} (hfound : env.viewAs t d = .found u) : env.supertype t d = .ok u :=
    (supertype_closed_iff (upperBounds?_of_raw? hraw) hdarray).mpr ⟨hbelow, hfound⟩
  cases hobject : d.isObject with
  | true =>
      left
      refine ⟨rfl, hview ?_⟩
      rw [viewAs, hobject, isPrimitive_of_raw? hraw hprimitive]
      rfl
  | false =>
      right
      apply hview
      have hne : (env.erase (env.climbStart t) == d) = false := by
        rw [hstartRaw, ← Bool.not_eq_true, ClassRef.beq_iff_name]
        exact fun hname => h.acyclic c 0 harray (hpath.target hname.symm)
      rw [← hstartRaw] at he
      obtain ⟨u, hgoal⟩ := viewStep_reaches he (isSubclass_of_name (herase ▸ rfl))
        (ClassRef.beq_iff_name.mpr (congrArg ClassRef.name herase))
      -- what the step finds is an edge to the class, and there is no second one
      obtain ⟨e', he', rfl, hname⟩ := viewStep_goal hgoal
      rw [hstartRaw] at he he'
      obtain rfl := h.unique harray he' he (by rw [herase]; exact hname)
      rw [instantiated, isRawUse_climbStart harray hraw] at hgoal
      simp only [viewAs, hobject, hstart, hne, Bool.false_and, Bool.false_eq_true, if_false]
      exact search_of_goal 9999 hgoal

end

end Env

namespace Token

open Ty (Same Occurs)
open Env

variable {env : Env} {token : Token}

/-- A token is what navigation to the class of an edge finds, in the same scope. -/
def IsSupertype (env : Env) (token : Token) (e : Ty) (direct : Token) : Prop :=
  ∃ found, token.supertype env (env.erase e) = .ok found ∧ (direct == found) = true ∧
    direct.scope = found.scope

theorem isSupertype_of_same {e t u : Ty} (hu : env.supertype token.type (env.erase e) = .ok u)
    (hsame : Same t u) : token.IsSupertype env e (token.derive t) :=
  ⟨token.derive u, supertype_iff.mpr ⟨u, hu, rfl⟩, hsame, rfl⟩

/-- The covariant bindings resolve an edge of the class of a token to what navigation finds. -/
theorem edge_isSupertype (h : env.DirectEdges) (hdistinct : env.classes.DistinctParameters)
    (htoken : token.type.Writable)
    (hopen : env.upperBounds? token.type = none) (hownerless : token.type.Ownerless)
    (hacyclic : ∀ n, ¬env.RawPath (n + 1) (token.rawType env) (token.rawType env))
    (hprimitive : (token.rawType env).isPrimitive = false) (hraws : env.rawTypes token.type ≠ [])
    (hroot : env.BareRoot (token.rawType env)) {e : Ty}
    (he : e ∈ env.classes.directSupertypes (token.rawType env))
    (hbuilt : env.Resolvable token.type e) :
    token.IsSupertype env e (token.derive ((env.covariantly token.type).resolve e)) := by
  cases harray : (token.rawType env).isArray with
  | true =>
      obtain ⟨start, hstart⟩ := exists_viewStart hopen
      obtain ⟨htops, -⟩ := array_step harray
      have he : e ∈ env.classes.directSupertypes (env.erase token.type) := he
      rw [htops] at he
      obtain ⟨top, htop, rfl⟩ := List.mem_map.mp he
      obtain ⟨top', -, hname, hfound, -⟩ := supertype_of_arrayTop hstart harray
        (arrayTop_name_ne harray hacyclic) hraws (arrayTop_isPlain htop) ⟨top, htop, rfl⟩
      have hformed : (Ty.cls top).Formed fun _ => True := .cls trivial
      rw [Ty.resolve_eq_subst hformed]
      exact isSupertype_of_same hfound (ClassRef.beq_iff_name.mpr hname.symm)
  | false =>
      have hraw : token.type.raw? = some (token.rawType env) := raw?_of_closed hopen harray
      rw [resolve_edge h harray hraw hownerless he hbuilt]
      rcases supertype_edge h hraw (ClassRef.isPlain_iff.mpr ⟨harray, hprimitive⟩) he with
        ⟨hobject, hfound⟩ | hfound
      · have hsame := hroot e he hobject
        obtain ⟨d, rfl, -⟩ := Ty.same_cls.mp (Ty.same_symm hbuilt.writable hsame)
        exact isSupertype_of_same hfound hsame
      · exact isSupertype_of_same hfound
          (same_edge h hdistinct hraw harray hownerless htoken hbuilt.writable he)

/-- Where edges are plainly declared, the superclass and the interfaces of a token, raw uses
among them, are its supertypes for the classes of the declared ones, in their order. -/
theorem direct_isSupertype (h : env.DirectEdges) (hdistinct : env.classes.DistinctParameters)
    (hbuilt : ∀ e ∈ env.classes.directSupertypes (token.rawType env),
      env.Resolvable token.type e)
    (htoken : token.type.Writable) (hopen : env.upperBounds? token.type = none) (hownerless : token.type.Ownerless)
    (hacyclic : ∀ n, ¬env.RawPath (n + 1) (token.rawType env) (token.rawType env))
    (hprimitive : (token.rawType env).isPrimitive = false) (hraws : env.rawTypes token.type ≠ [])
    (hroot : env.BareRoot (token.rawType env)) :
    Option.Rel (token.IsSupertype env) (env.classes.superclass? (token.rawType env))
        (token.superclass? env) ∧
      List.Forall₂ (token.IsSupertype env) (env.classes.interfaces (token.rawType env))
        (token.interfaces env) := by
  have hedge : ∀ e ∈ env.classes.directSupertypes (token.rawType env),
      token.IsSupertype env e (token.resolveDirect (env.covariantly token.type) (.edge e)) :=
    fun e he => edge_isSupertype h hdistinct htoken hopen hownerless hacyclic hprimitive hraws
      hroot he (hbuilt e he)
  rw [Registry.directSupertypes, List.forall_mem_append] at hedge
  obtain ⟨hsuper, hinterfaces⟩ := hedge
  constructor
  · rw [superclass?, directSuperclass?, hopen]
    cases hdeclared : env.classes.superclass? (token.rawType env) with
    | none => exact .none
    | some e => exact .some (hsuper e (by simp [hdeclared]))
  · rw [interfaces, directInterfaces, hopen, List.map_map, List.forall₂_map_right_iff,
      List.forall₂_same]
    exact hinterfaces

/-- The superclass and the interface of a list of strings are found by navigation, too. -/
theorem direct_isSupertype_list :
    let token := ofType stringList
    (token.superclass? listEnv).map Token.type = some .object ∧
      (token.interfaces listEnv).map Token.type = [.param none listClass [stringType]] ∧
      Option.Rel (token.IsSupertype listEnv) (some .object) (token.superclass? listEnv) ∧
      List.Forall₂ (token.IsSupertype listEnv) [listOf arrayListVar]
        (token.interfaces listEnv) := by
  let rank (name : String) : Nat := if name == "java.util.ArrayList" then 1 else 0
  have hedges : listEnv.DirectEdges := directEdges_of_check rank (by decide) (by decide) (by decide)
    (by decide) (by decide) (by decide)
  have hlist : stringList.Writable :=
    Ty.Written.param nofun trivial (List.forall_mem_singleton.mpr (.cls trivial))
  have hbuilt : ∀ e ∈ listEnv.classes.directSupertypes arrayListClass,
      listEnv.Resolvable stringList e := fun e he =>
    Or.inl (listEnv_formed.classes.edge ClassRef.family_all he)
  exact ⟨rfl, rfl, direct_isSupertype hedges (by decide) hbuilt hlist rfl rfl
    (fun n => hedges.acyclic _ n rfl) (by decide) (List.cons_ne_nil _ _) (by decide)⟩

/-! ## Where navigation does not follow -/

/-- Direct supertypes are what navigation finds, for edges that are plainly declared and tokens
that meet a condition, where the visit meets no limit. -/
def DirectAgree (condition : Env → Token → Prop) : Prop :=
  ∀ (env : Env) (token : Token), env.DirectEdges →
    token.type.Formed (fun _ => True) → env.upperBounds? token.type = none →
    token.type.Ownerless →
    (∀ n, ¬env.RawPath (n + 1) (token.rawType env) (token.rawType env)) →
    (env.covariantVisit token.type).guard.refusals = 0 → condition env token →
    Option.Rel (token.IsSupertype env) (env.classes.superclass? (token.rawType env))
        (token.superclass? env) ∧
      List.Forall₂ (token.IsSupertype env) (env.classes.interfaces (token.rawType env))
        (token.interfaces env)

theorem exists_supertype {e : Ty} {direct : Token}
    (h : Option.Rel (token.IsSupertype env) (some e) (some direct)) :
    ∃ u, env.supertype token.type (env.erase e) = .ok u ∧ Same direct.type u := by
  cases h with
  | some h =>
      obtain ⟨found, hfound, hsame, -⟩ := h
      obtain ⟨u, hu, rfl⟩ := supertype_iff.mp hfound
      exact ⟨u, hu, hsame⟩

/-- A registry in which the root class has a parameter, and a class passes strings to it. -/
def rootEnv : Env :=
  ⟨[(ClassDecl.of .object).withParameters [⟨0, .ofClass .object, "T"⟩],
    (ClassDecl.of baseClass).extending (.param none .object [stringType])].foldl
      Registry.register .core, .empty⟩

/-- A registry in which a class declares one parameter twice, and passes it on. -/
def twiceEnv : Env :=
  ⟨[(ClassDecl.of baseClass).withParameters [baseVar],
    ((ClassDecl.of ownerClass).withParameters [ownerVar, ownerVar]).extending
      (.param none baseClass [.var ownerVar])].foldl Registry.register .core, .empty⟩

/-- A registry in which a class passes an array over a class to one that has no parameter. -/
def looseEnv : Env :=
  ⟨[ClassDecl.of baseClass, (ClassDecl.of ownerClass).extending
      (.param none baseClass [.array stringType])].foldl Registry.register .core, .empty⟩

def twiceType : Ty := .param none ownerClass [.var ownerVar, stringType]

theorem not_directAgree_primitive :
    ¬DirectAgree fun env _ => env.classes.Formed (fun _ => True) := by
  intro hclaim
  let rank (name : String) : Nat :=
    if name == "int" then 2 else if name == "java.lang.Number" then 1 else 0
  have hedges : intEnv.DirectEdges := directEdges_of_check rank (by decide) (by decide)
    (by decide) (by decide) (by decide) (by decide)
  have hformed : intEnv.classes.Formed fun _ => True := by
    refine Registry.formed_of_supertypes (Registry.forall_supertypes
      (show _ = [Ty.cls numberClass, .object] from rfl) ?_)
    exact List.forall_mem_cons.mpr ⟨.cls trivial, List.forall_mem_singleton.mpr (.cls trivial)⟩
  obtain ⟨u, hu, -⟩ := exists_supertype (hclaim intEnv (ofType intType) hedges (.cls trivial)
    rfl trivial (fun n => hedges.acyclic _ n rfl) (by decide) hformed).1
  have hfails : (intEnv.supertype intType numberClass).isOk = false := by decide
  rw [show intEnv.supertype intType numberClass = .ok u from hu] at hfails
  cases hfails

theorem not_directAgree_root : ¬DirectAgree fun env token =>
    env.classes.Formed (fun _ => True) ∧ (token.rawType env).isPrimitive = false ∧ env.rawTypes token.type ≠ [] ∧
      env.classes.DistinctParameters := by
  intro hclaim
  let rank (name : String) : Nat := if name == "Base" then 1 else 0
  have hedges : rootEnv.DirectEdges := directEdges_of_check rank (by decide) (by decide)
    (by decide) (by decide) (by decide) (by decide)
  have hformed : rootEnv.classes.Formed fun _ => True := by
    refine Registry.formed_of_supertypes (Registry.forall_supertypes
      (show _ = [Ty.param none .object [stringType]] from rfl) ?_)
    exact List.forall_mem_singleton.mpr
      (.param nofun trivial (List.forall_mem_singleton.mpr (.cls trivial)))
  obtain ⟨u, hu, hsame⟩ := exists_supertype (hclaim rootEnv (ofType (.cls baseClass)) hedges
    (.cls trivial) rfl trivial (fun n => hedges.acyclic _ n rfl) (by decide)
    ⟨hformed, rfl, List.cons_ne_nil _ _, by decide⟩).1
  have hfound : rootEnv.supertype (.cls baseClass) .object = .ok .object := rfl
  obtain rfl := Except.ok.inj (hfound.symm.trans hu)
  exact absurd hsame (by decide)

theorem not_directAgree_array : ¬DirectAgree fun env token =>
    env.classes.Formed (fun _ => True) ∧ (token.rawType env).isPrimitive = false ∧ env.BareRoot (token.rawType env) ∧
      env.classes.DistinctParameters := by
  intro hclaim
  let array : Ty := .array (.var Subtyping.swapVars.1)
  have hedges : Subtyping.swapEnv.DirectEdges := directEdges_of_check (fun _ => 0) (by decide)
    (by decide) (by decide) (by decide) (by decide) (by decide)
  have htops : ∀ top ∈ arrayTops, Subtyping.swapEnv.rawSupertypes top = [] ∧
      top.name ≠ (ClassRef.arrayOf .object).name := by decide
  have hacyclic : ∀ n, ¬Subtyping.swapEnv.RawPath (n + 1) (.arrayOf .object)
      (.arrayOf .object) := by
    rintro (_ | n) ⟨top, htop, hpath⟩
    · exact (htops top htop).2 hpath
    · obtain ⟨above, habove, -⟩ := hpath
      rw [(htops top htop).1] at habove
      cases habove
  obtain ⟨u, hu, -⟩ := exists_supertype (hclaim Subtyping.swapEnv (ofType array) hedges
    (.array (.var _) rfl rfl) rfl trivial hacyclic (by decide)
    ⟨Registry.formed_core ClassRef.family_all, rfl, by decide, by decide⟩).1
  have hfails : (Subtyping.swapEnv.supertype array .object).isOk = false := by decide
  rw [show Subtyping.swapEnv.supertype array .object = .ok u from hu] at hfails
  cases hfails

theorem not_directAgree_twice : ¬DirectAgree fun env token =>
    env.classes.Formed (fun _ => True) ∧ (token.rawType env).isPrimitive = false ∧ env.BareRoot (token.rawType env) ∧
      env.rawTypes token.type ≠ [] := by
  intro hclaim
  let rank (name : String) : Nat :=
    if name == "Outer" then 2 else if name == "Base" then 1 else 0
  have hedges : twiceEnv.DirectEdges := directEdges_of_check rank (by decide) (by decide)
    (by decide) (by decide) (by decide) (by decide)
  have hformed : twiceEnv.classes.Formed fun _ => True := by
    refine Registry.formed_of_supertypes (Registry.forall_supertypes
      (show _ = [Ty.object, .param none baseClass [.var ownerVar]] from rfl) ?_)
    exact List.forall_mem_cons.mpr ⟨.cls trivial, List.forall_mem_singleton.mpr
      (.param nofun trivial (List.forall_mem_singleton.mpr (.var _)))⟩
  have htype : (ofType twiceType).type.Formed fun _ => True := by
    refine .param nofun trivial (List.forall_mem_cons.mpr ⟨.var _, ?_⟩)
    exact List.forall_mem_singleton.mpr (.cls trivial)
  obtain ⟨u, hu, hsame⟩ := exists_supertype (hclaim twiceEnv (ofType twiceType) hedges htype
    rfl rfl (fun n => hedges.acyclic _ n rfl) (by decide) ⟨hformed, rfl, by decide, List.cons_ne_nil _ _⟩).1
  have hfound : twiceEnv.supertype twiceType baseClass =
      .ok (.param none baseClass [.var ownerVar]) := rfl
  obtain rfl := Except.ok.inj (hfound.symm.trans hu)
  exact absurd hsame (by decide)

theorem not_directAgree_loose : ¬DirectAgree fun env token =>
    (token.rawType env).isPrimitive = false ∧ env.BareRoot (token.rawType env) ∧
      env.rawTypes token.type ≠ [] ∧ env.classes.DistinctParameters := by
  intro hclaim
  let rank (name : String) : Nat :=
    if name == "Outer" then 2 else if name == "Base" then 1 else 0
  have hedges : looseEnv.DirectEdges := directEdges_of_check rank (by decide) (by decide)
    (by decide) (by decide) (by decide) (by decide)
  obtain ⟨u, hu, hsame⟩ := exists_supertype (hclaim looseEnv (ofType (.cls ownerClass)) hedges
    (.cls trivial) rfl trivial (fun n => hedges.acyclic _ n rfl) (by decide)
    ⟨rfl, by decide, List.cons_ne_nil _ _, by decide⟩).1
  have hfound : looseEnv.supertype (.cls ownerClass) baseClass =
      .ok (.param none baseClass [stringType.arrayOf]) := rfl
  obtain rfl := Except.ok.inj (hfound.symm.trans hu)
  exact absurd hsame (by decide)

/-- Navigation does not follow the edges of a primitive. For other tokens it parts from the
declared edges where the root class has arguments, where an array has no raw type, where a
parameter is declared twice, and where an array over a class, which no constructor writes, is
passed to a class without parameters. -/
theorem direct_isSupertype_conditions :
    (¬DirectAgree fun env _ => env.classes.Formed (fun _ => True)) ∧
    (¬DirectAgree fun env token => env.classes.Formed (fun _ => True) ∧
      (token.rawType env).isPrimitive = false ∧ env.rawTypes token.type ≠ [] ∧
      env.classes.DistinctParameters) ∧
    (¬DirectAgree fun env token => env.classes.Formed (fun _ => True) ∧
      (token.rawType env).isPrimitive = false ∧ env.BareRoot (token.rawType env) ∧
      env.classes.DistinctParameters) ∧
    (¬DirectAgree fun env token => env.classes.Formed (fun _ => True) ∧
      (token.rawType env).isPrimitive = false ∧ env.BareRoot (token.rawType env) ∧
      env.rawTypes token.type ≠ []) ∧
    ¬DirectAgree fun env token => (token.rawType env).isPrimitive = false ∧
      env.BareRoot (token.rawType env) ∧ env.rawTypes token.type ≠ [] ∧
      env.classes.DistinctParameters :=
  ⟨not_directAgree_primitive, not_directAgree_root, not_directAgree_array, not_directAgree_twice,
    not_directAgree_loose⟩

end Token

end Generics
