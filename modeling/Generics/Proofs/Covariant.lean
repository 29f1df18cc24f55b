import Generics.Proofs.Matching
import Generics.Proofs.Shapes
import Generics.Proofs.Uses
import Generics.Proofs.Visiting
import Generics.Token.Basic

/-!
What a type says about the parameters of its supertypes. The visit goes through
the edges of a type before it goes to the owner, and resolves each edge with
the bindings found until then. Where the edges of a class mention no parameters
but those of the class itself, the bindings that an edge needs are there when
it is visited; and where one class is met with one list of arguments only, over
edges and owners, the first binding of a parameter is the one that the
supertype has.

An edge that mentions a parameter of an enclosing class is visited before the
owner that binds it, and leaves the parameter in its place.
-/

namespace Generics

namespace Env

open Ty (Same Occurs)

variable {env : Env} {s t u x y : Ty} {c d : ClassRef} {v p : TyVar} {σ τ : Substitution}

/-! ## Recording arguments -/

/-- Adds a binding, unless it maps a variable to itself or to a second type. -/
def record (σ : Substitution) (binding : TyVar × Ty) : Substitution :=
  if Substitution.isVariable binding.1 binding.2 then σ
  else σ.insertIfNew binding.1 binding.2

theorem recordArgs_eq (σ : Substitution) (parameters : List TyVar) (args : List Ty) :
    recordArgs σ parameters args = (parameters.zip args).foldl record σ := rfl

theorem partOf_record (σ : Substitution) (binding : TyVar × Ty) :
    σ.PartOf (record σ binding) := by
  intro v t h
  unfold record
  split
  · exact h
  · rw [Substitution.get?_insertIfNew_or, h]
    rfl

theorem partOf_records (σ : Substitution) (bindings : List (TyVar × Ty)) :
    σ.PartOf (bindings.foldl record σ) := by
  induction bindings generalizing σ with
  | nil => exact fun _ _ h => h
  | cons binding bindings ih => exact (partOf_record σ binding).trans (ih (record σ binding))

/-- What is mapped after recording was mapped before or is recorded. -/
theorem mem_of_records {bindings : List (TyVar × Ty)}
    (h : (bindings.foldl record σ).get? v = some t) :
    σ.get? v = some t ∨ ∃ p, (p, t) ∈ bindings ∧ (p == v) = true := by
  induction bindings generalizing σ with
  | nil => exact Or.inl h
  | cons binding bindings ih =>
      obtain ⟨p, u⟩ := binding
      rcases ih h with hfirst | ⟨q, hmem, hq⟩
      · unfold record at hfirst
        split at hfirst
        · exact Or.inl hfirst
        · rw [Substitution.get?_insertIfNew_or, Option.or_eq_some_iff] at hfirst
          rcases hfirst with hold | ⟨-, hnew⟩
          · exact Or.inl hold
          · split at hnew
            · rename_i hpv
              cases hnew
              exact Or.inr ⟨p, List.mem_cons_self, hpv⟩
            · cases hnew
      · exact Or.inr ⟨q, List.mem_cons_of_mem _ hmem, hq⟩

/-- A parameter is mapped after its argument was recorded, unless the argument
is the parameter. -/
theorem isSome_of_records {bindings : List (TyVar × Ty)} (hmem : (p, t) ∈ bindings)
    (hvar : Substitution.isVariable p t = false) :
    ((bindings.foldl record σ).get? p).isSome = true := by
  induction bindings generalizing σ with
  | nil => cases hmem
  | cons binding bindings ih =>
      rcases List.mem_cons.mp hmem with rfl | hrest
      · have hfirst : ∃ u, (record σ (p, t)).get? p = some u := by
          simp only [record, hvar, Bool.false_eq_true, if_false]
          rw [Substitution.get?_insertIfNew_or, if_pos BEq.rfl]
          cases σ.get? p with
          | none => exact ⟨t, rfl⟩
          | some u => exact ⟨u, rfl⟩
        obtain ⟨u, hu⟩ := hfirst
        exact Option.isSome_iff_exists.mpr ⟨u, partOf_records _ bindings p u hu⟩
      · exact ih hrest

theorem partOf_growth : Growth Substitution.PartOf where
  refl _ := fun _ _ h => h
  trans := Substitution.PartOf.trans

theorem visitEdges_grows {visit : Ty → Visit Substitution → Visit Substitution}
    (hvisit : ∀ t s, Visit.Grows Substitution.PartOf s (visit t s)) (c : ClassRef)
    (s : Visit Substitution) : Visit.Grows Substitution.PartOf s (env.visitEdges visit c s) := by
  unfold visitEdges
  exact Visit.foldl_grows partOf_growth (fun s (e : Ty) => hvisit (e.subst s.acc) s) _ s

theorem covariantHandler_adds (env : Env) :
    Handler.Adds Substitution.PartOf env.covariantHandler := by
  intro visit hvisit t s
  cases t with
  | cls c => exact visitEdges_grows hvisit c s
  | param owner raw args =>
      have hrecorded : Visit.Grows Substitution.PartOf s
          (s.modify fun σ => recordArgs σ (env.classes.parameters raw) args) :=
        Visit.grows_modify (partOf_records s.acc _)
      exact (hrecorded.trans partOf_growth (visitEdges_grows hvisit raw _)).trans partOf_growth
        (Visit.all_grows partOf_growth hvisit _ _)
  | array component => exact .refl partOf_growth s
  | wild upper lower => exact Visit.all_grows partOf_growth hvisit upper s
  | var v => exact Visit.all_grows partOf_growth hvisit _ s

/-! ## Types that are met -/

/-- The types on the edges and owners of a type. An edge of a bare class
leaves the parameters in their places. -/
inductive Met (env : Env) (t : Ty) : Ty → Prop where
  | start : Met env t t
  | edge {x c e} (hx : Met env t x) (hc : x.raw? = some c)
      (he : e ∈ env.classes.directSupertypes c) : Met env t (e.subst (env.carried x))
  | owner {owner raw args} (h : Met env t (.param (some owner) raw args)) : Met env t owner

/-- Each class is met as one type. -/
def MetOnce (env : Env) (t : Ty) : Prop :=
  ∀ x y c d, env.Met t x → env.Met t y → x.raw? = some c → y.raw? = some d →
    c.name = d.name → Same x y

/-- Types that are met once: a list of them, closed under edges and owners,
without two different types of one class. -/
theorem metOnce_of_closed (ts : List Ty) (ht : t ∈ ts)
    (hedge : ∀ x ∈ ts, ∀ c, x.raw? = some c →
      ∀ e ∈ env.classes.directSupertypes c, e.subst (env.carried x) ∈ ts)
    (howner : ∀ owner raw args, Ty.param (some owner) raw args ∈ ts → owner ∈ ts)
    (honce : ∀ x ∈ ts, ∀ y ∈ ts, (env.erase x == env.erase y) = true → Same x y) :
    env.MetOnce t := by
  have hmem : ∀ x, env.Met t x → x ∈ ts := by
    intro x hx
    induction hx with
    | start => exact ht
    | edge _ hc he ih => exact hedge _ ih _ hc _ he
    | owner _ ih => exact howner _ _ _ ih
  intro x y c d hx hy hc hd hname
  apply honce x (hmem x hx) y (hmem y hy)
  rw [erase_of_raw? hc, erase_of_raw? hd]
  exact ClassRef.beq_iff_name.mpr hname

/-- The types that are met from a type of good shape have it as well. -/
theorem Met.good (hedges : env.OwnEdges) (ht : env.Shaped t ∧ t.Writable) (h : env.Met t x) :
    env.Shaped x ∧ x.Writable := by
  induction h with
  | start => exact ht
  | edge _ _ he ih =>
      have hedge := hedges.edge he
      exact ⟨(hedge.shaped.subst _).1,
        Ty.writable_subst hedge.writable fun v _ => carried_writable ih.2 v⟩
  | owner _ ih =>
      obtain ⟨hshaped, hwritable⟩ := ih
      cases hshaped with
      | owned howner _ =>
          cases hwritable with
          | param hownerWritable _ _ => exact ⟨howner, hownerWritable _ rfl⟩

/-- What is met from a type is of good shape and gives equal parameters equal arguments.
Edges mention parameters of their own classes only, and a parameter belongs to one class,
which is met as one type. -/
structure Orderly (env : Env) (t : Ty) : Prop where
  shaped : ∀ x, env.Met t x → env.Shaped x
  writable : ∀ x, env.Met t x → x.Writable
  edge : ∀ x c, env.Met t x → x.raw? = some c → ∀ e ∈ env.classes.directSupertypes c,
    env.OwnEdge c e
  parallel : ∀ owner raw args, env.Met t (.param owner raw args) →
    ∀ pair ∈ (env.classes.parameters raw).zip args,
      ∀ pair' ∈ (env.classes.parameters raw).zip args,
        (pair.1 == pair'.1) = true → Same pair.2 pair'.2
  apart : env.classes.ApartParameters
  once : env.MetOnce t

theorem orderly_of_edges (hedges : env.OwnEdges) (hdistinct : env.classes.DistinctParameters)
    (ht : env.Shaped t ∧ t.Writable) (honce : env.MetOnce t) : env.Orderly t where
  shaped _ hx := (hx.good hedges ht).1
  writable _ hx := (hx.good hedges ht).2
  edge _ _ _ _ _ he := hedges.edge he
  parallel _ raw _ _ _ hpair _ hpair' hpq :=
    zip_unique (Registry.parameters_distinct hdistinct raw)
      (List.forall₂_same.mpr fun a _ => Ty.same_refl a) hpair hpair' hpq
  apart _ _ _ _ := Registry.declaring_unique hdistinct
  once := honce

/-- A parameter has equal arguments in types of one class. -/
theorem Orderly.same_argument (h : env.Orderly t) {owner owner' : Option Ty} {raw raw' : ClassRef}
    {args args' : List Ty} (hx : env.Met t (.param owner raw args))
    (hy : env.Met t (.param owner' raw' args')) (hname : raw.name = raw'.name) {p q : TyVar}
    {a b : Ty} (ha : (p, a) ∈ (env.classes.parameters raw).zip args)
    (hb : (q, b) ∈ (env.classes.parameters raw').zip args') (hpq : (p == q) = true) :
    Same a b := by
  obtain ⟨_, _, _, heq, -, -, hargs⟩ := Ty.same_param.mp (h.once _ _ _ _ hx hy rfl rfl hname)
  cases heq
  rw [← Registry.parameters_of_name hname] at hb
  obtain ⟨a', ha', hsame⟩ := zip_same_right hargs hb
  exact Ty.same_trans (h.parallel _ _ _ hx _ ha _ ha' hpq) hsame

/-! ## Bindings that come from what is met -/

/-- Every binding is an argument of a type that is met. -/
def Sound (env : Env) (t : Ty) (σ : Substitution) : Prop :=
  ∀ v b, σ.get? v = some b → ∃ owner raw args p a, env.Met t (.param owner raw args) ∧
    (p, a) ∈ (env.classes.parameters raw).zip args ∧ (p == v) = true ∧ Same a b

/-- The parameters of a type are mapped, apart from those that are their own arguments. -/
def Recorded (env : Env) (σ : Substitution) (y : Ty) : Prop :=
  ∀ owner raw args, y = .param owner raw args →
    ∀ pair ∈ (env.classes.parameters raw).zip args,
      Substitution.isVariable pair.1 pair.2 = false → (σ.get? pair.1).isSome = true

theorem Recorded.mono (h : env.Recorded σ y) (hστ : σ.PartOf τ) : env.Recorded τ y := by
  intro owner raw args hy pair hpair hvar
  obtain ⟨b, hb⟩ := Option.isSome_iff_exists.mp (h owner raw args hy pair hpair hvar)
  exact Option.isSome_iff_exists.mpr ⟨b, hστ _ _ hb⟩

theorem recorded_cls (σ : Substitution) (c : ClassRef) : env.Recorded σ (.cls c) := by
  intro owner raw args h
  cases h

theorem recorded_param (σ : Substitution) (owner : Option Ty) (raw : ClassRef) (args : List Ty) :
    env.Recorded (recordArgs σ (env.classes.parameters raw) args) (.param owner raw args) := by
  intro owner' raw' args' h pair hpair hvar
  cases h
  exact isSome_of_records hpair hvar

theorem sound_recordArgs {owner : Option Ty} {raw : ClassRef} {args : List Ty}
    (hx : env.Met t x) (hlike : Like x (.param owner raw args)) (hσ : env.Sound t σ) :
    env.Sound t (recordArgs σ (env.classes.parameters raw) args) := by
  intro v b hget
  rw [recordArgs_eq] at hget
  rcases mem_of_records hget with hold | ⟨p, hmem, hp⟩
  · exact hσ v b hold
  · cases hlike with
    | bare hargs =>
        obtain ⟨a, ha, hab⟩ := zip_same_right hargs hmem
        exact ⟨_, _, _, p, a, hx, ha, hp, hab⟩
    | owned _ hargs =>
        obtain ⟨a, ha, hab⟩ := zip_same_right hargs hmem
        exact ⟨_, _, _, p, a, hx, ha, hp, hab⟩

/-! ## Edges as they are resolved -/

section

variable (h : env.Orderly t)

include h

/-- The bindings found until then give an edge what its class carries. -/
theorem carried_agrees_param {owner : Option Ty} {raw : ClassRef} {args args' : List Ty}
    (hx : env.Met t (.param owner raw args))
    (hlength : args.length = (env.classes.parameters raw).length)
    (hargs : List.Forall₂ Same args args')
    (hrecorded : ∀ pair ∈ (env.classes.parameters raw).zip args',
      Substitution.isVariable pair.1 pair.2 = false → (σ.get? pair.1).isSome = true)
    (hσ : env.Sound t σ) (hp : p ∈ env.classes.parameters raw) (hpv : (p == v) = true) :
    Same ((Ty.var v).subst (env.carried (.param owner raw args))) ((Ty.var v).subst σ) := by
  obtain ⟨a, ha⟩ := exists_zip hlength hp
  obtain ⟨r, a', hcarried, ha', hrv⟩ := exists_carried_param owner ha hpv
  rw [Ty.subst_var, Ty.subst_var, hcarried, Option.getD_some]
  cases hget : σ.get? v with
  | some b =>
      obtain ⟨owner', raw', args'', q, b', hmet, hmem, hqv, hsame⟩ := hσ v b hget
      have hname := h.apart _ _ _ _ hp (List.of_mem_zip hmem).1 (BEq.trans hpv (BEq.symm hqv))
      exact Ty.same_trans (h.same_argument hx hmet hname ha' hmem (BEq.trans hrv (BEq.symm hqv)))
        hsame
  | none =>
      obtain ⟨⟨q, b⟩, hmem, heq, hab⟩ := forall₂_mem_left
        (zip_same (env.classes.parameters raw) hargs) ha'
      obtain rfl : r = q := heq
      cases hvar : Substitution.isVariable r b with
      | true =>
          cases b with
          | var w =>
              have hwv : (w == v) = true := BEq.trans hvar hrv
              exact Ty.same_trans hab (Ty.same_var.mpr ⟨v, rfl, hwv⟩)
          | _ => cases hvar
      | false =>
          have hsome := hrecorded _ hmem hvar
          rw [Substitution.get?_of_beq σ hrv, hget] at hsome
          cases hsome

theorem carried_agrees (hx : env.Met t x) (hlike : Like x y)
    (hc : x.raw? = some c) (hσ : env.Sound t σ) (hrecorded : env.Recorded σ y)
    (hp : p ∈ env.classes.parameters c) (hpv : (p == v) = true) :
    Same ((Ty.var v).subst (env.carried x)) ((Ty.var v).subst σ) := by
  have hshaped := h.shaped x hx
  cases hlike with
  | cls d =>
      obtain rfl := Option.some.inj hc
      have hnone : σ.get? v = none := by
        by_contra hsome
        obtain ⟨b, hb⟩ := Option.ne_none_iff_exists'.mp hsome
        obtain ⟨owner, raw, args, q, a, hmet, hmem, hqv, -⟩ := hσ v b hb
        have hname := h.apart _ _ _ _ hp (List.of_mem_zip hmem).1 (BEq.trans hpv (BEq.symm hqv))
        obtain ⟨_, heq, -⟩ := Ty.same_cls.mp (h.once _ _ _ _ hx hmet rfl rfl hname)
        cases heq
      rw [Ty.subst_var, Ty.subst_var, hnone, get?_carried]
      exact Ty.same_refl _
  | bare hargs =>
      obtain rfl := Option.some.inj hc
      cases hshaped with
      | bare hlength =>
          exact carried_agrees_param h hx hlength hargs (hrecorded _ _ _ rfl) hσ hp hpv
  | owned _ hargs =>
      obtain rfl := Option.some.inj hc
      cases hshaped with
      | owned _ hlength =>
          exact carried_agrees_param h hx hlength hargs (hrecorded _ _ _ rfl) hσ hp hpv
  | array _ => cases hc

theorem like_edge (hx : env.Met t x) (hlike : Like x y) (hc : x.raw? = some c)
    (hσ : env.Sound t σ) (hrecorded : env.Recorded σ y) {e : Ty}
    (he : e ∈ env.classes.directSupertypes c) :
    Like (e.subst (env.carried x)) (e.subst σ) := by
  have hedge := h.edge x c hx hc e he
  apply hedge.shaped.like_subst hedge.writable fun v _ => carried_writable (h.writable x hx) v
  intro v hv
  obtain ⟨p, hp, hpv⟩ := hedge.own v hv
  exact carried_agrees h hx hlike hc hσ hrecorded hp hpv

/-! ## Visits record what is met -/

section

variable {visit : Ty → Visit Substitution → Visit Substitution}
  (hgrows : ∀ t s, Visit.Grows Substitution.PartOf s (visit t s))
  (hsound : ∀ y s, (∃ x, env.Met t x ∧ Like x y) → env.Sound t s.acc →
    env.Sound t (visit y s).acc)

include hgrows hsound

/-- While edges are visited, the bindings that the next one needs stay in place. -/
theorem edges_sound (hx : env.Met t x) (hlike : Like x y) (hc : x.raw? = some c)
    (edges : List Ty) (hsub : ∀ e ∈ edges, e ∈ env.classes.directSupertypes c)
    {s : Visit Substitution} (hs : env.Sound t s.acc) (hrecorded : env.Recorded s.acc y) :
    env.Sound t (edges.foldl (fun s e => visit (e.subst s.acc) s) s).acc ∧
      env.Recorded (edges.foldl (fun s e => visit (e.subst s.acc) s) s).acc y := by
  induction edges generalizing s with
  | nil => exact ⟨hs, hrecorded⟩
  | cons e edges ih =>
      have he := hsub e List.mem_cons_self
      have hlikeEdge := like_edge h hx hlike hc hs hrecorded he
      exact ih (fun e' he' => hsub e' (List.mem_cons_of_mem e he'))
        (hsound _ s ⟨_, .edge hx hc he, hlikeEdge⟩ hs)
        (hrecorded.mono (hgrows _ s).acc_le)

theorem visitEdges_sound (hx : env.Met t x) (hlike : Like x y) (hc : x.raw? = some c)
    {s : Visit Substitution} (hs : env.Sound t s.acc) (hrecorded : env.Recorded s.acc y) :
    env.Sound t (env.visitEdges visit c s).acc :=
  (edges_sound h hgrows hsound hx hlike hc _ (fun _ h => h) hs
    hrecorded).1

theorem covariantHandler_sound (hx : env.Met t x) (hlike : Like x y)
    {s : Visit Substitution} (hs : env.Sound t s.acc) :
    env.Sound t (env.covariantHandler visit y s).acc := by
  cases hlike with
  | cls c =>
      exact visitEdges_sound h hgrows hsound hx (.cls c) rfl hs
        (recorded_cls _ c)
  | bare hargs =>
      exact visitEdges_sound h hgrows hsound hx (.bare hargs) rfl
        (s := s.modify _) (sound_recordArgs hx (.bare hargs) hs) (recorded_param s.acc _ _ _)
  | @owned owner owner' raw args args' howner hargs =>
      let s' := s.modify fun σ => recordArgs σ (env.classes.parameters raw) args'
      have hedgesSound : env.Sound t (env.visitEdges visit raw s').acc :=
        visitEdges_sound h hgrows hsound hx (.owned howner hargs) rfl
          (sound_recordArgs hx (.owned howner hargs) hs) (recorded_param s.acc _ _ _)
      exact hsound owner' _ ⟨owner, .owner hx, howner⟩ hedgesSound
  | array _ => exact hs

end

/-- Whatever is met on a visit, the bindings are arguments of types that are met. -/
theorem Orderly.within_sound (levels : Nat) (hx : env.Met t x) (hlike : Like x y)
    {s : Visit Substitution} (hs : env.Sound t s.acc) :
    env.Sound t (Visit.within env.covariantHandler levels y s).acc := by
  refine Visit.within_preserves (P := env.Sound t) (Q := fun y => ∃ x, env.Met t x ∧ Like x y)
    partOf_growth (covariantHandler_adds env) ?_ levels ⟨x, hx, hlike⟩ hs
  rintro visit hgrows hsound y s ⟨x, hx, hlike⟩ hs
  exact covariantHandler_sound h hgrows hsound hx hlike hs

/-! ## Visits reach what is above -/

omit h

/-- One or more edges lead from a class to another one. -/
def Under (env : Env) : ClassRef → ClassRef → Prop :=
  Relation.TransGen fun c d => d ∈ env.rawSupertypes c

theorem Under.rawPath (h : env.Under c d) : ∃ n, env.RawPath (n + 1) c d := by
  induction h using Relation.TransGen.head_induction_on with
  | single hedge => exact ⟨0, d, hedge, rfl⟩
  | head hedge _ ih =>
      obtain ⟨n, hpath⟩ := ih
      exact ⟨n + 1, _, hedge, hpath⟩

/-- A type is on the way up from another one, over edges of classes that are no arrays. -/
inductive Way (env : Env) : Ty → Ty → Prop where
  | refl (x : Ty) : Way env x x
  | edge {x u c e} (hc : x.raw? = some c) (harray : c.isArray = false)
      (he : e ∈ env.classes.directSupertypes c) (h : Way env (e.subst (env.carried x)) u) :
      Way env x u

theorem Way.met (h : env.Way x u) (hx : env.Met t x) : env.Met t u := by
  induction h with
  | refl _ => exact hx
  | edge hc _ he _ ih => exact ih (.edge hx hc he)

theorem Way.exists_raw? (h : env.Way x u) (hu : ∃ c, u.raw? = some c) : ∃ c, x.raw? = some c := by
  cases h with
  | refl _ => exact hu
  | edge hc _ _ _ => exact ⟨_, hc⟩

/-- A traversal in which nothing is held that is not below a class. -/
structure Below (env : Env) (s : Visit Substitution) (c : ClassRef) (levels : Nat) : Prop where
  held : ∀ z ∈ s.guard.held, ∃ d, z.raw? = some d ∧ d.isArray = false ∧ env.Under d c
  maxDepth_eq : s.guard.maxDepth = Limits.visitDepth
  length_le : s.guard.held.length ≤ Limits.visitDepth
  levels_eq : s.guard.held.length + levels = Limits.visitDepth + 1

/-- One step up: the type itself is held, and lies below what comes next. -/
theorem Below.step {levels : Nat} {s s' : Visit Substitution} (h : env.Below s c (levels + 1))
    (harray : c.isArray = false) (hy : y.raw? = some c) (hstep : d ∈ env.rawSupertypes c)
    (hdepth : s.guard.held.length < s.guard.maxDepth) (hheld : s'.guard.held = y :: s.guard.held)
    (hmax : s'.guard.maxDepth = s.guard.maxDepth) : env.Below s' d levels where
  held := by
    intro z hz
    rw [hheld] at hz
    rcases List.mem_cons.mp hz with rfl | hz
    · exact ⟨c, hy, harray, .single hstep⟩
    · obtain ⟨f, hf, hfarray, hunder⟩ := h.held z hz
      exact ⟨f, hf, hfarray, hunder.tail hstep⟩
  maxDepth_eq := hmax.trans h.maxDepth_eq
  length_le := by
    rw [hheld, List.length_cons]
    rw [h.maxDepth_eq] at hdepth
    omega
  levels_eq := by
    have hlevels := h.levels_eq
    rw [hheld, List.length_cons]
    omega

theorem isVariable_same {a b : Ty} (h : Same a b) (hvar : Substitution.isVariable p a = false) :
    Substitution.isVariable p b = false := by
  rw [← Bool.not_eq_true] at hvar ⊢
  intro hb
  apply hvar
  cases b with
  | var w =>
      cases a with
      | var w' =>
          obtain ⟨_, heq, hw⟩ := Ty.same_var.mp h
          cases heq
          exact BEq.trans hw hb
      | _ => simp [Same, BEq.beq, Ty.beq] at h
  | _ => cases hb

include h

/-- Edges visited one after the other: the one that leads to a supertype
records the arguments that it has. -/
theorem visitEdges_records {visit : Ty → Visit Substitution → Visit Substitution}
    (hgrows : ∀ t s, Visit.Grows Substitution.PartOf s (visit t s))
    (hsound : ∀ y s, (∃ x, env.Met t x ∧ Like x y) → env.Sound t s.acc →
      env.Sound t (visit y s).acc)
    (hx : env.Met t x) (hlike : Like x y) (hc : x.raw? = some c) {e : Ty}
    (he : e ∈ env.classes.directSupertypes c) {s : Visit Substitution}
    (hs : env.Sound t s.acc) (hrecorded : env.Recorded s.acc y)
    (hquiet : (env.visitEdges visit c s).guard.refusals = s.guard.refusals)
    (hreach : ∀ y' s', Like (e.subst (env.carried x)) y' → s'.guard.held = s.guard.held →
      s'.guard.maxDepth = s.guard.maxDepth → env.Sound t s'.acc →
      (visit y' s').guard.refusals = s'.guard.refusals →
      ((visit y' s').acc.get? p).isSome = true) :
    ((env.visitEdges visit c s).acc.get? p).isSome = true := by
  obtain ⟨before, after, hsplit⟩ := List.append_of_mem he
  have hfold : env.visitEdges visit c s =
      after.foldl (fun s e => visit (e.subst s.acc) s)
        (visit (e.subst (before.foldl (fun s e => visit (e.subst s.acc) s) s).acc)
          (before.foldl (fun s e => visit (e.subst s.acc) s) s)) := by
    rw [visitEdges, hsplit, List.foldl_append, List.foldl_cons]
  have hgrowsEdges := Visit.foldl_grows partOf_growth
    (fun s (e : Ty) => hgrows (e.subst s.acc) s)
  have hfirst := hgrowsEdges before s
  obtain ⟨hsFirst, hrecordedFirst⟩ := edges_sound h hgrows hsound hx
    hlike hc before
    (fun e' he' => by rw [hsplit]; exact List.mem_append_left _ he') hs hrecorded
  have hlikeEdge := like_edge h hx hlike hc hsFirst hrecordedFirst he
  rw [hfold] at hquiet ⊢
  generalize before.foldl (fun s e => visit (e.subst s.acc) s) s = s' at *
  have hvisit := hgrows (e.subst s'.acc) s'
  have hlast := hgrowsEdges after (visit (e.subst s'.acc) s')
  have hquietVisit := Visit.quiet_between hfirst hvisit hlast hquiet
  obtain ⟨b, hb⟩ := Option.isSome_iff_exists.mp (hreach _ s' hlikeEdge hfirst.held_eq
    hfirst.maxDepth_eq hsFirst hquietVisit)
  exact Option.isSome_iff_exists.mpr ⟨b, hlast.acc_le p b hb⟩

omit h in
/-- What a type records and what its edges record is recorded when it was handled. -/
theorem covariantHandler_records {visit : Ty → Visit Substitution → Visit Substitution}
    (hgrows : ∀ t s, Visit.Grows Substitution.PartOf s (visit t s))
    (hx : env.Met t x) (hlike : Like x y) (hc : x.raw? = some c) {s : Visit Substitution}
    (hs : env.Sound t s.acc)
    (hquiet : (env.covariantHandler visit y s).guard.refusals = s.guard.refusals)
    (owner : Option Ty) (raw : ClassRef) (args : List Ty) {b : Ty}
    (hmem : (p, b) ∈ (env.classes.parameters raw).zip args)
    (hvar : Substitution.isVariable p b = false)
    (hreach : x = .param owner raw args ∨ ∀ s' : Visit Substitution,
      s'.guard.held = s.guard.held → s'.guard.maxDepth = s.guard.maxDepth →
      env.Sound t s'.acc → env.Recorded s'.acc y →
      (env.visitEdges visit c s').guard.refusals = s'.guard.refusals →
      ((env.visitEdges visit c s').acc.get? p).isSome = true) :
    ((env.covariantHandler visit y s).acc.get? p).isSome = true := by
  -- a parameterized type first records its arguments, and visits its owner last
  have hparam : ∀ {ownerX ownerY : Option Ty} {argsX argsY : List Ty},
      x = .param ownerX c argsX → y = .param ownerY c argsY →
      List.Forall₂ Same argsX argsY →
      ((env.covariantHandler visit y s).acc.get? p).isSome = true := by
    rintro ownerX ownerY argsX argsY rfl rfl hargs
    let s' := s.modify fun σ => recordArgs σ (env.classes.parameters c) argsY
    have hfirst : Visit.Grows Substitution.PartOf s s' :=
      Visit.grows_modify (partOf_records s.acc _)
    have hedgesGrow : Visit.Grows Substitution.PartOf s' (env.visitEdges visit c s') :=
      visitEdges_grows hgrows c s'
    have howner := Visit.all_grows partOf_growth hgrows ownerY.toList
      (env.visitEdges visit c s')
    have hquietEdges := Visit.quiet_between hfirst hedgesGrow howner hquiet
    have hsome : ((env.visitEdges visit c s').acc.get? p).isSome = true := by
      rcases hreach with heq | hedges
      · cases heq
        obtain ⟨⟨q, b'⟩, hmem', heq, hsame⟩ := forall₂_mem_left
          (zip_same (env.classes.parameters c) hargs) hmem
        obtain rfl : p = q := heq
        obtain ⟨a, ha⟩ := Option.isSome_iff_exists.mp
          (isSome_of_records (σ := s.acc) hmem' (isVariable_same hsame hvar))
        exact Option.isSome_iff_exists.mpr ⟨a, hedgesGrow.acc_le p a ha⟩
      · exact hedges s' rfl rfl (sound_recordArgs hx hlike hs) (recorded_param s.acc _ _ _)
          hquietEdges
    obtain ⟨a, ha⟩ := Option.isSome_iff_exists.mp hsome
    exact Option.isSome_iff_exists.mpr ⟨a, howner.acc_le p a ha⟩
  cases hlike with
  | cls d =>
      obtain rfl := Option.some.inj hc
      rcases hreach with heq | hedges
      · cases heq
      · exact hedges s rfl rfl hs (recorded_cls _ _) hquiet
  | bare hargs =>
      obtain rfl := Option.some.inj hc
      exact hparam rfl rfl hargs
  | owned _ hargs =>
      obtain rfl := Option.some.inj hc
      exact hparam rfl rfl hargs
  | array _ => cases hc

/-- A visit that meets no limit records the arguments of every type on the way up. -/
theorem Orderly.within_records (hacyclic : ∀ c n, c.isArray = false → ¬env.RawPath (n + 1) c c)
    (levels : Nat) {owner : Option Ty} {raw : ClassRef} {args : List Ty} {b : Ty}
    {s : Visit Substitution} (hx : env.Met t x) (hlike : Like x y) (hraw : x.raw? = some c)
    (hbelow : env.Below s c levels) (hs : env.Sound t s.acc)
    (hquiet : (Visit.within env.covariantHandler levels y s).guard.refusals = s.guard.refusals)
    (hway : env.Way x (.param owner raw args))
    (hmem : (p, b) ∈ (env.classes.parameters raw).zip args)
    (hvar : Substitution.isVariable p b = false) :
    ((Visit.within env.covariantHandler levels y s).acc.get? p).isSome = true := by
  induction levels generalizing x y c s with
  | zero =>
      have hlength := hbelow.length_le
      have hlevels := hbelow.levels_eq
      omega
  | succ levels ih =>
      have hrawLike : y.raw? = some c := hlike.raw?.symm.trans hraw
      -- what is held lies below, so it is none of the classes further up
      have hfree : s.guard.held.contains y = false := by
        rw [← Bool.not_eq_true, List.contains_iff_exists_mem_beq]
        rintro ⟨z, hz, hsame⟩
        obtain ⟨d, hd, hdarray, hunder⟩ := hbelow.held z hz
        obtain ⟨d', hd', hname⟩ := raw?_of_same hsame hrawLike
        obtain rfl := Option.some.inj (hd.symm.trans hd')
        obtain ⟨k, hpath⟩ := hunder.rawPath
        exact hacyclic d k hdarray (hpath.target hname)
      obtain ⟨heq, hquietHandler, hdepth⟩ := Visit.within_of_quiet hquiet hfree
      rw [heq]
      have hgrows := Visit.within_grows partOf_growth (covariantHandler_adds env) levels
      refine covariantHandler_records hgrows hx hlike hraw (s := s.opened y) hs hquietHandler
        owner raw args hmem hvar ?_
      cases hway with
      | refl _ => exact Or.inl rfl
      | @edge _ _ c' e hc harray he hrest =>
          right
          intro s' hheld hmax hs' hrecorded hquietEdges
          obtain rfl := Option.some.inj (hraw.symm.trans hc)
          obtain ⟨d, hd⟩ := hrest.exists_raw? ⟨raw, rfl⟩
          have hstep : d ∈ env.rawSupertypes c := by
            rw [(h.edge x c hx hraw e he).shaped.raw?_subst] at hd
            exact List.mem_map.mpr ⟨e, he, erase_of_raw? hd⟩
          apply visitEdges_records h hgrows ?_ hx hlike hraw he hs' hrecorded hquietEdges
          · intro y' s'' hlike' hheld' hmax' hs'' hquiet''
            exact ih (.edge hx hraw he) hlike' hd
              (hbelow.step harray hrawLike hstep hdepth (hheld'.trans hheld) (hmax'.trans hmax))
              hs'' hquiet'' hrest
          · rintro y s ⟨x, hx, hlike⟩ hs
            exact h.within_sound levels hx hlike hs

end

/-! ## Steps as edges that are met -/

section

variable (hedges : env.OwnEdges) (hdistinct : env.classes.DistinctParameters)
  (ht : env.Shaped t ∧ t.Writable) (honce : env.MetOnce t)

include hedges

/-- An edge of an instance leads to an instance of a class above. -/
theorem instance_of_edge (hplain : env.classes.PlainEdges) (hx : x.Writable)
    (harray : c.isArray = false) {e : Ty} (he : e ∈ env.classes.directSupertypes c) :
    ∃ d, d.isArray = false ∧ env.classes.IsInstance d (e.subst (env.carried x)) := by
  obtain ⟨d, hd, hdplain, herase⟩ := raw?_edge hplain he
  have hdarray := (ClassRef.isPlain_iff.mp hdplain).1
  obtain ⟨d', hinstance⟩ := hedges.instances c harray e he
  obtain rfl := raw_of_isInstance hinstance hd
  exact ⟨d', hdarray, hinstance.subst (carried_isWritable hx)⟩

/-- Steps of instances go over edges. -/
theorem way_of_climb (hplain : env.classes.PlainEdges) {n : Nat} (hx : x.Writable)
    (hinstance : env.classes.IsInstance c x) (harray : c.isArray = false) (h : env.Climb n x u) :
    env.Way x u := by
  induction n generalizing x c with
  | zero =>
      obtain rfl : x = u := h
      exact .refl x
  | succ n ih =>
      obtain ⟨e, he, hrest⟩ := h
      have hraw := Vocabulary.raw?_of_isInstance hinstance harray
      rw [erase_of_raw? hraw] at he
      rw [instantiated, isRawUse_of_isInstance hinstance harray] at hrest
      obtain ⟨d, hdarray, hinstanceEdge⟩ := instance_of_edge hedges hplain hx harray he
      exact .edge hraw harray he (ih (writable_of_isInstance hinstanceEdge) hinstanceEdge hdarray
        hrest)

include ht

/-- What is reached by steps is met. -/
theorem met_of_climb (hplain : env.classes.PlainEdges) {n : Nat} (hx : env.Met t x)
    (hinstance : env.classes.IsInstance c x) (harray : c.isArray = false)
    (h : env.Climb n x u) : env.Met t u :=
  (way_of_climb hedges hplain (hx.good hedges ht).2 hinstance harray h).met hx

include hdistinct honce

theorem within_sound (levels : Nat) (hx : env.Met t x) (hlike : Like x y)
    {s : Visit Substitution} (hs : env.Sound t s.acc) :
    env.Sound t (Visit.within env.covariantHandler levels y s).acc :=
  (orderly_of_edges hedges hdistinct ht honce).within_sound levels hx hlike hs

/-- A visit that meets no limit records the arguments of every supertype. -/
theorem within_records (hplain : env.classes.PlainEdges)
    (hacyclic : ∀ c n, c.isArray = false → ¬env.RawPath (n + 1) c c) (levels : Nat) {n : Nat}
    {owner : Option Ty} {raw : ClassRef} {args : List Ty} {b : Ty} {s : Visit Substitution}
    (hx : env.Met t x) (hlike : Like x y) (hinstance : env.classes.IsInstance c x)
    (harray : c.isArray = false) (hbelow : env.Below s c levels) (hs : env.Sound t s.acc)
    (hquiet : (Visit.within env.covariantHandler levels y s).guard.refusals = s.guard.refusals)
    (hclimb : env.Climb n x (.param owner raw args))
    (hmem : (p, b) ∈ (env.classes.parameters raw).zip args)
    (hvar : Substitution.isVariable p b = false) :
    ((Visit.within env.covariantHandler levels y s).acc.get? p).isSome = true :=
  (orderly_of_edges hedges hdistinct ht honce).within_records hacyclic levels hx hlike
    (Vocabulary.raw?_of_isInstance hinstance harray) hbelow hs hquiet
    (way_of_climb hedges hplain (hx.good hedges ht).2 hinstance harray hclimb) hmem hvar

end

/-! ## Supertypes and bindings -/

/-- A variable is mapped to a type, or it is this type and not mapped. -/
def Gives (σ : Substitution) (p : TyVar) (b : Ty) : Prop :=
  match σ.get? p with
  | some a => Same a b
  | none => Substitution.isVariable p b = true

/-- A token without a scope resolves a variable to what its type gives for it. -/
theorem resolveType_of_gives {b : Ty} (h : Gives (env.covariantly t) p b) :
    Same ((Token.ofType t).resolveType env (.var p)).type b := by
  have hresolve : ((Token.ofType t).resolveType env (.var p)).type =
      (env.covariantly t).resolve (.var p) := rfl
  have hvar : (env.covariantly t).resolve (.var p) =
      ((env.covariantly t).get? p).getD (.var p) := by
    unfold Substitution.resolve
    split
    · rename_i hempty
      rw [Substitution.isEmpty, List.isEmpty_iff] at hempty
      rw [Substitution.get?, hempty]
      rfl
    · exact Ty.subst_var p
  rw [hresolve, hvar]
  unfold Gives at h
  cases hget : (env.covariantly t).get? p with
  | some a =>
      rw [hget] at h
      exact h
  | none =>
      rw [hget] at h
      cases b with
      | var w => exact Ty.same_var.mpr ⟨w, rfl, BEq.symm h⟩
      | _ => cases h

/-- What is on the way up from a type, a visit that meets no limit binds to its arguments. -/
theorem Orderly.gives (h : env.Orderly t)
    (hacyclic : ∀ c n, c.isArray = false → ¬env.RawPath (n + 1) c c)
    (hquiet : (env.covariantVisit t).guard.refusals = 0) {owner : Option Ty} {raw : ClassRef}
    {args : List Ty} {b : Ty} (hway : env.Way t (.param owner raw args))
    (hmem : (p, b) ∈ (env.classes.parameters raw).zip args) : Gives (env.covariantly t) p b := by
  have hlike := (h.shaped t .start).like_refl
  have hempty : env.Sound t .empty := fun _ _ => nofun
  have hmet : env.Met t (.param owner raw args) := hway.met .start
  unfold Gives
  cases hget : (env.covariantly t).get? p with
  | some x =>
      have hsound : env.Sound t (env.covariantly t) := h.within_sound _ .start hlike hempty
      obtain ⟨owner', raw', args', q, a, hmet', hmem', hqp, hax⟩ := hsound p x hget
      have hname := h.apart _ _ _ _ (List.of_mem_zip hmem').1 (List.of_mem_zip hmem).1 hqp
      have hab := h.same_argument hmet' hmet hname hmem' hmem hqp
      cases h.writable _ hmet' with
      | param _ _ hwritable =>
          exact Ty.same_trans (Ty.same_symm (hwritable a (List.of_mem_zip hmem').2) hax) hab
  | none =>
      by_contra hvar
      rw [Bool.not_eq_true] at hvar
      obtain ⟨c, hraw⟩ := hway.exists_raw? ⟨raw, rfl⟩
      have hbelow : env.Below (.start .visit .empty) c (Limits.visitDepth + 1) :=
        ⟨fun _ => nofun, rfl, Nat.zero_le _, Nat.zero_add _⟩
      have hsome : ((env.covariantly t).get? p).isSome = true :=
        h.within_records hacyclic _ .start hlike hraw hbelow hempty hquiet hway hmem hvar
      rw [hget] at hsome
      cases hsome

theorem climb_of_supertype (hplain : env.classes.PlainEdges) {A : ClassRef}
    (hc : c.isArray = false) (ht : env.classes.IsInstance c t) {owner : Option Ty}
    {raw : ClassRef} {args : List Ty} (h : env.supertype t A = .ok (.param owner raw args)) :
    raw.name = A.name ∧ ∃ n, env.Climb n t (.param owner raw args) := by
  have hraw := Vocabulary.raw?_of_isInstance ht hc
  have hclimbStart : env.climbStart t = t := by
    rcases ht.cases hc with ⟨hform, rfl⟩ | ⟨_, _, rfl, -⟩
    · exact hform
    · rfl
  have hstart : env.viewStart t = some t := by
    rw [viewStart_eq_climbStart hraw hc, hclimbStart]
  obtain ⟨-, -, hfound⟩ := viewAs_of_supertype hraw hc h
  cases view_of_raw? (rawEdges_of_plain hplain) hraw hc hfound with
  | start _ hs hsame =>
      obtain rfl := Option.some.inj (hstart.symm.trans hs)
      exact ⟨ClassRef.beq_iff_name.mp hsame, 0, rfl⟩
  | walk _ hs _ hnearest =>
      obtain rfl := Option.some.inj (hstart.symm.trans hs)
      obtain ⟨n, hfirst, -⟩ := hnearest
      obtain ⟨hclimb, hsame⟩ := climb_of_firstAt hplain hfirst
      exact ⟨ClassRef.beq_iff_name.mp hsame, n + 1, hclimb⟩

/-- The covariant bindings of a type are the arguments of its supertypes, and a
token resolves the parameters of a supertype to them. -/
theorem covariantly_supertype (hplain : env.classes.PlainEdges) (hedges : env.OwnEdges)
    (hdistinct : env.classes.DistinctParameters)
    (hacyclic : ∀ c n, c.isArray = false → ¬env.RawPath (n + 1) c c)
    (hc : c.isArray = false) (ht : env.classes.IsInstance c t) (honce : env.MetOnce t)
    (hquiet : (env.covariantVisit t).guard.refusals = 0) {A : ClassRef} {owner : Option Ty}
    {raw : ClassRef} {args : List Ty} (h : env.supertype t A = .ok (.param owner raw args)) :
    ∀ pair ∈ (env.classes.parameters A).zip args,
      Gives (env.covariantly t) pair.1 pair.2 ∧
        Same ((Token.ofType t).resolveType env (.var pair.1)).type pair.2 := by
  rintro ⟨p, b⟩ hmem
  have hgood : env.Shaped t ∧ t.Writable := ⟨shaped_of_isInstance ht, writable_of_isInstance ht⟩
  obtain ⟨hname, n, hclimb⟩ := climb_of_supertype hplain hc ht h
  rw [← Registry.parameters_of_name hname] at hmem
  have hlike := hgood.1.like_refl
  have hempty : env.Sound t .empty := fun v b hget => by cases hget
  have hgives : Gives (env.covariantly t) p b := by
    have hsound : env.Sound t (env.covariantly t) :=
      within_sound hedges hdistinct hgood honce _ .start hlike hempty
    unfold Gives
    cases hget : (env.covariantly t).get? p with
    | some x =>
        obtain ⟨owner', raw', args', q, a, hmet, hmem', hqp, hax⟩ := hsound p x hget
        have hpq : (p == q) = true := BEq.symm hqp
        have hmetAbove := met_of_climb hedges hgood hplain .start ht hc hclimb
        have hraws := Registry.declaring_unique hdistinct (List.of_mem_zip hmem).1
          (List.of_mem_zip hmem').1 hpq
        obtain ⟨_, _, _, heq, -, -, hargs⟩ :=
          Ty.same_param.mp (honce _ _ _ _ hmetAbove hmet rfl rfl hraws)
        cases heq
        rw [← Registry.parameters_of_name hraws] at hmem'
        have hsame := Ty.same_trans
          (zip_unique (Registry.parameters_distinct hdistinct raw) hargs hmem hmem' hpq) hax
        cases (hmetAbove.good hedges hgood).2 with
        | param _ _ hwritable => exact Ty.same_symm (hwritable b (List.of_mem_zip hmem).2) hsame
    | none =>
        by_contra hvar
        rw [Bool.not_eq_true] at hvar
        have hbelow : env.Below (.start .visit .empty) c (Limits.visitDepth + 1) :=
          ⟨(fun z hz => by cases hz), rfl, Nat.zero_le _, Nat.zero_add _⟩
        have hsome : ((env.covariantly t).get? p).isSome = true :=
          within_records hedges hdistinct hgood honce hplain hacyclic _ .start hlike ht hc
            hbelow hempty hquiet hclimb hmem hvar
        rw [hget] at hsome
        cases hsome
  exact ⟨hgives, resolveType_of_gives hgives⟩

/-! ## An inner class -/

def baseClass : ClassRef := .named "Base" .ordinary

def ownerClass : ClassRef := .named "Outer" .ordinary

def partClass : ClassRef := .named "Inner" .ordinary

def textType : Ty := .cls (.named "Str" .ordinary)

def baseVar : TyVar := ⟨0, .ofClass baseClass, "P"⟩

def ownerVar : TyVar := ⟨1, .ofClass ownerClass, "T"⟩

def partVar : TyVar := ⟨2, .ofClass partClass, "U"⟩

/-- An inner class that passes a variable to its superclass. -/
def partEnv (v : TyVar) : Env :=
  ⟨[(ClassDecl.of baseClass).withParameters [baseVar],
    (ClassDecl.of ownerClass).withParameters [ownerVar],
    (((ClassDecl.of partClass).withParameters [partVar]).nestedIn ownerClass).extending
      (.param none baseClass [.var v])].foldl Registry.register .core, .empty⟩

/-- The inner class with different arguments for itself and for its owner. -/
def partType : Ty := .param (some (.param none ownerClass [textType])) partClass [.object]

/-- The declared edges of the example. -/
def PartEdges (v : TyVar) : Prop :=
  (partEnv v).classes.decls.toList.flatMap (fun entry => entry.2.supertypes) =
    [.object, .param none baseClass [.var v], .object]

theorem partEnv_plain (h : PartEdges v) : (partEnv v).classes.PlainEdges := by
  refine Registry.forall_supertypes h ?_
  simp only [List.forall_mem_cons]
  exact ⟨rfl, rfl, rfl, List.forall_mem_nil _⟩

theorem partEnv_instances (h : PartEdges v)
    (hobject : (partEnv v).classes.genericForm .object = .object)
    (hbase : (partEnv v).classes.genericForm baseClass = .param none baseClass [.var baseVar])
    (c : ClassRef) (hc : c.isArray = false) :
    ∀ e ∈ (partEnv v).classes.directSupertypes c, ∃ d, (partEnv v).classes.IsInstance d e := by
  refine Registry.forall_edges (Registry.forall_supertypes h ?_) hc
  have hroot : ∃ d, (partEnv v).classes.IsInstance d .object :=
    ⟨.object, (Registry.isInstance_cls hobject).mpr rfl⟩
  have hsuper : ∃ d, (partEnv v).classes.IsInstance d (.param none baseClass [.var v]) := by
    refine ⟨baseClass, ⟨[(baseVar, .var v)]⟩, ?_, by rw [hbase]; rfl⟩
    intro w t hget
    obtain ⟨_, hmem, -⟩ := Substitution.mem_of_get? hget
    rw [(Prod.mk.inj (List.mem_singleton.mp hmem)).2]
    exact .var trivial
  simp only [List.forall_mem_cons]
  exact ⟨hroot, hsuper, hroot, List.forall_mem_nil _⟩

theorem partType_isInstance (hpart : (partEnv v).classes.genericForm partClass =
      .param (some (.param none ownerClass [.var ownerVar])) partClass [.var partVar]) :
    (partEnv v).classes.IsInstance partClass partType := by
  refine ⟨⟨[(ownerVar, textType), (partVar, .object)]⟩, ?_, by rw [hpart]; rfl⟩
  intro w t hget
  obtain ⟨_, hmem, -⟩ := Substitution.mem_of_get? hget
  simp only [List.mem_cons, List.not_mem_nil, or_false, Prod.mk.injEq] at hmem
  rcases hmem with ⟨-, rfl⟩ | ⟨-, rfl⟩
  · exact .cls trivial
  · exact .cls trivial

/-- The inner class lies above the others, the root class below them. -/
def partRank (name : String) : Nat :=
  if name == "Inner" then 2 else if name == ClassRef.rootName then 0 else 1

theorem partEnv_acyclic (h : PartEdges v)
    (hrank : ∀ entry ∈ (partEnv v).classes.decls.toList, ∀ e ∈ entry.2.supertypes,
      partRank ((partEnv v).erase e).name < partRank entry.1) (c : ClassRef) (n : Nat)
    (hc : c.isArray = false) : ¬(partEnv v).RawPath (n + 1) c c := by
  intro hpath
  have hdown := rank_of_rawPath (partEnv_plain h) hrank hc hpath
  omega

theorem partType_metOnce : (partEnv partVar).MetOnce partType := by
  refine metOnce_of_closed [partType, .param none baseClass [.object],
    .param none ownerClass [textType], .object] List.mem_cons_self ?_ ?_ (by decide)
  · simp only [List.forall_mem_cons]
    refine ⟨?_, ?_, ?_, ?_, List.forall_mem_nil _⟩
    · rintro c ⟨⟩ e he
      obtain rfl := List.mem_singleton.mp
        (show e ∈ [Ty.param none baseClass [.var partVar]] from he)
      exact List.mem_cons_of_mem _ List.mem_cons_self
    · rintro c ⟨⟩ e he
      obtain rfl := List.mem_singleton.mp (show e ∈ [Ty.object] from he)
      simp [Ty.object]
    · rintro c ⟨⟩ e he
      obtain rfl := List.mem_singleton.mp (show e ∈ [Ty.object] from he)
      simp [Ty.object]
    · rintro c ⟨⟩ e he
      exact absurd (show e ∈ [] from he) List.not_mem_nil
  · intro owner raw args h
    simp only [partType, Ty.object, List.mem_cons, List.not_mem_nil, or_false, Ty.param.injEq,
      Option.some.injEq, reduceCtorEq, false_and] at h
    rw [h.1]
    simp

/-- What an inner class passes on of its own is found, whatever its owner is. -/
theorem covariantly_supertype_inner :
    let env := partEnv partVar
    env.supertype partType baseClass = .ok (.param none baseClass [.object]) ∧
      Gives (env.covariantly partType) baseVar .object := by
  have h : PartEdges partVar := rfl
  have hedges : (partEnv partVar).OwnEdges :=
    ⟨partEnv_instances h rfl rfl, own_of_check (by decide)⟩
  have hsuper : (partEnv partVar).supertype partType baseClass =
      .ok (.param none baseClass [.object]) := rfl
  have hgives := covariantly_supertype (partEnv_plain h) hedges (by decide)
    (partEnv_acyclic h (by decide)) rfl (partType_isInstance rfl) partType_metOnce
    (by decide) hsuper (baseVar, .object) List.mem_cons_self
  exact ⟨hsuper, hgives.1⟩

theorem partType_coherent : (partEnv ownerVar).Coherent partType := by
  apply coherent_of_closed
    (P := (· ∈ [partType, .param none baseClass [textType], .object])) List.mem_cons_self
  · simp only [List.mem_cons, List.not_mem_nil, or_false]
    rintro t (rfl | rfl | rfl) edge hedge
    · obtain rfl := List.mem_singleton.mp
        (show edge ∈ [Ty.param none baseClass [.var ownerVar]] from hedge)
      exact Or.inr (Or.inl rfl)
    · obtain rfl := List.mem_singleton.mp (show edge ∈ [Ty.object] from hedge)
      exact Or.inr (Or.inr rfl)
    · exact absurd (show edge ∈ [] from hedge) List.not_mem_nil
  · have honce : ∀ u ∈ [partType, .param none baseClass [textType], .object],
        ∀ v ∈ [partType, .param none baseClass [textType], .object],
          ((partEnv ownerVar).erase u == (partEnv ownerVar).erase v) = true →
            (u == v) = true := by
      decide
    exact fun u v hu hv => honce u hu v hv

/-- An edge that mentions a parameter of the enclosing class is resolved before
the owner is visited, and the parameter stays in its place. -/
theorem covariantly_supertype_outer : ¬∀ (env : Env) (t : Ty) (c A : ClassRef)
    (owner : Option Ty) (raw : ClassRef) (args : List Ty), env.classes.PlainEdges →
      (∀ d, d.isArray = false → ∀ e ∈ env.classes.directSupertypes d,
        (∃ e', env.classes.IsInstance e' e) ∧ ∀ v, Occurs v e → env.InScope d v) →
      env.classes.DistinctParameters →
      (∀ d n, d.isArray = false → ¬env.RawPath (n + 1) d d) →
      c.isArray = false → env.classes.IsInstance c t → env.Coherent t →
      (env.covariantVisit t).guard.refusals = 0 →
      env.supertype t A = .ok (.param owner raw args) →
      ∀ pair ∈ (env.classes.parameters A).zip args,
        Gives (env.covariantly t) pair.1 pair.2 := by
  intro hclaim
  have h : PartEdges ownerVar := rfl
  have hscope : ∀ d, d.isArray = false → ∀ e ∈ (partEnv ownerVar).classes.directSupertypes d,
      ∀ v, Occurs v e → (partEnv ownerVar).InScope d v := by
    refine (scopedEdges_of_check (by decide) (Registry.forall_supertypes h ?_)).scope
    simp only [List.forall_mem_cons]
    exact ⟨.cls _, .param (by simp) (by simp [Ty.Built.var]), .cls _, List.forall_mem_nil _⟩
  have hgives := hclaim (partEnv ownerVar) partType partClass baseClass none baseClass
    [textType] (partEnv_plain h) (fun d hd e he =>
      ⟨partEnv_instances h rfl rfl d hd e he, hscope d hd e he⟩) (by decide)
    (partEnv_acyclic h (by decide)) rfl (partType_isInstance rfl) partType_coherent
    (by decide) rfl (baseVar, textType) List.mem_cons_self
  have hleft : ((partEnv ownerVar).covariantly partType).get? baseVar = some (.var ownerVar) := rfl
  unfold Gives at hgives
  rw [hleft] at hgives
  exact absurd hgives (by decide)

end Env

end Generics
