import Generics.Proofs.Canonical
import Generics.Token.Navigation

/-!
What a program can obtain. A program has registries, the bounds that it gave to
variables, and types, substitutions and tokens; each step makes one more of these
from those at hand, declares a class, or gives a variable its bounds. Registries
stay at hand as they were before a class was declared in them, and the covariant
bindings of a token may be any substitution at hand, since a token keeps those that
it worked out first.

Every step keeps all types in their one form, whatever was declared and in whatever
order, and so does every run.
-/

namespace Generics

structure Session where
  registries : List Registry
  bounds : BoundTable
  types : List Ty
  resolvers : List Substitution
  tokens : List Token

namespace Session

/-- Nothing is declared by hand, and nothing is obtained yet. -/
def start : Session := ⟨[.core], .empty, [], [], []⟩

/-- A registry at hand, with the bounds of the variables. -/
def Sees (s : Session) (env : Env) : Prop := env.classes ∈ s.registries ∧ env.bounds = s.bounds

variable (admits : ClassRef → Prop) (s : Session)

/-- The class references at hand: those that a program writes down, and those that it reads
off a type or a registry. -/
inductive Names : ClassRef → Prop where
  | written {c} (h : admits c) : Names c
  | arrayOf {c} (h : Names c) : Names (.arrayOf c)
  | component {name c} (h : Names (.array name c)) : Names c
  | raw {env t} (henv : s.Sees env) (ht : t ∈ s.types) : Names (env.erase t)
  | registered {registry name c} (hr : registry ∈ s.registries) (h : registry.get? name = some c) :
      Names c
  | enclosing {registry c outer} (hr : registry ∈ s.registries)
      (h : registry.enclosing? c = some outer) : Names outer

/-- The types that one step makes. -/
inductive MakesType : Ty → Prop where
  | cls {c} (hc : s.Names admits c) : MakesType (.cls c)
  | var (v : TyVar) : MakesType (.var v)
  | parameterized {env raw args t} (henv : s.Sees env) (hraw : s.Names admits raw)
      (hargs : ∀ a ∈ args, a ∈ s.types) (h : env.parameterized raw args = .ok t) : MakesType t
  | parameterizedIn {env owner raw args t} (henv : s.Sees env) (howner : owner ∈ s.types)
      (hraw : s.Names admits raw) (hargs : ∀ a ∈ args, a ∈ s.types)
      (h : env.parameterizedIn owner raw args = .ok t) : MakesType t
  | arrayOf {t} (ht : t ∈ s.types) : MakesType t.arrayOf
  | subtypeOf {t u} (ht : t ∈ s.types) (h : t.subtypeOf = .ok u) : MakesType u
  | supertypeOf {t u} (ht : t ∈ s.types) (h : t.supertypeOf = .ok u) : MakesType u
  | unbounded : MakesType .unbounded
  | genericForm {registry c} (hr : registry ∈ s.registries) (hc : s.Names admits c) :
      MakesType (registry.genericForm c)
  | component {t u} (ht : t ∈ s.types) (h : t.component? = some u) : MakesType u
  | edge {registry c e} (hr : registry ∈ s.registries) (he : e ∈ registry.directSupertypes c) :
      MakesType e
  | bound {v b} (hb : b ∈ s.bounds.effective v) : MakesType b
  | resolved {σ t} (hσ : σ ∈ s.resolvers) (ht : t ∈ s.types) : MakesType (σ.resolve t)
  | ofToken {token} (h : token ∈ s.tokens) : MakesType token.type

/-- The substitutions that one step makes. -/
inductive MakesResolver : Substitution → Prop where
  | empty : MakesResolver .empty
  | bind {σ v t τ} (hσ : σ ∈ s.resolvers) (ht : t ∈ s.types) (h : σ.bind v t = .ok τ) :
      MakesResolver τ
  | bindAll {σ pairs τ} (hσ : σ ∈ s.resolvers) (hpairs : ∀ pair ∈ pairs, pair.2 ∈ s.types)
      (h : σ.bindAll pairs = .ok τ) : MakesResolver τ
  | absorb {σ τ} (hσ : σ ∈ s.resolvers) (hτ : τ ∈ s.resolvers) : MakesResolver (σ.absorb τ)
  | unify {σ shape actual τ} (hσ : σ ∈ s.resolvers) (hactual : actual ∈ s.types)
      (h : Substitution.unify shape actual σ = .ok τ) : MakesResolver τ
  | covariantly {env t} (henv : s.Sees env) (ht : t ∈ s.types) : MakesResolver (env.covariantly t)
  | scope {token} (h : token ∈ s.tokens) : MakesResolver token.scope

/-- The tokens that one step makes. -/
inductive MakesToken : Token → Prop where
  | ofType {t} (ht : t ∈ s.types) : MakesToken (.ofType t)
  | component {token token'} (h : token ∈ s.tokens) (hc : token.component? = some token') :
      MakesToken token'
  | supertype {env token target token'} (henv : s.Sees env) (h : token ∈ s.tokens)
      (hup : token.supertype env target = .ok token') : MakesToken token'
  | subtype {env token target token'} (henv : s.Sees env) (h : token ∈ s.tokens)
      (htarget : s.Names admits target) (hdown : token.subtype env target = .ok token') :
      MakesToken token'
  /-- The bindings are the covariant ones of the type, perhaps from before a declaration. -/
  | superclass {env token σ direct} (henv : s.Sees env) (h : token ∈ s.tokens)
      (hσ : σ ∈ s.resolvers) (hdirect : token.directSuperclass? env = some direct) :
      MakesToken (token.resolveDirect σ direct)
  | interface {env token σ direct} (henv : s.Sees env) (h : token ∈ s.tokens)
      (hσ : σ ∈ s.resolvers) (hdirect : direct ∈ token.directInterfaces env) :
      MakesToken (token.resolveDirect σ direct)
  | resolveType {token σ t} (h : token ∈ s.tokens) (hσ : σ ∈ s.resolvers) (ht : t ∈ s.types) :
      MakesToken (token.resolveTypeWith σ t)
  | replacing {token v t token'} (h : token ∈ s.tokens) (ht : t ∈ s.types)
      (hreplaced : token.replacing v t = .ok token') : MakesToken token'

/-- The declarations that can be written. A class that says nothing extends the root class. -/
structure Declares (d : ClassDecl) : Prop where
  ref : s.Names admits d.ref
  enclosing : ∀ c ∈ d.enclosing?, s.Names admits c
  supertypes : ∀ e ∈ d.supertypes, e ∈ s.types ∨ e = .object

/-- One thing more is obtained, a class is declared, or a variable is given bounds. -/
inductive Step : Session → Prop where
  | type {t} (h : s.MakesType admits t) : Step { s with types := t :: s.types }
  | resolver {σ} (h : s.MakesResolver σ) : Step { s with resolvers := σ :: s.resolvers }
  | token {token} (h : s.MakesToken admits token) : Step { s with tokens := token :: s.tokens }
  | registry : Step { s with registries := .core :: s.registries }
  | declareClass {registry d} (hr : registry ∈ s.registries) (hd : s.Declares admits d) :
      Step { s with registries := registry.register d :: s.registries }
  | declareVariable (declaration : Declaration) (name : String) :
      Step { s with bounds := (s.bounds.declare declaration name).2 }
  | installBounds {bounds} (v : TyVar) (hbounds : ∀ b ∈ bounds, b ∈ s.types) :
      Step { s with bounds := (s.bounds.install v bounds).2 }
  | artificialVariable {env declaration name bounds v env'} (henv : s.Sees env)
      (hbounds : ∀ b ∈ bounds, b ∈ s.types)
      (h : env.artificialVariable declaration name bounds = .ok (v, env')) :
      Step { s with bounds := env'.bounds }

inductive Reachable : Session → Prop where
  | start : Reachable start
  | step {s s'} (h : Reachable s) (hstep : s.Step admits s') : Reachable s'

/-- The types that a program obtains in any number of steps. -/
def Obtained (t : Ty) : Prop := ∃ s, Reachable admits s ∧ t ∈ s.types

end Session

/-! ## Tokens -/

section

variable {isClass : ClassRef → Prop} {env : Env} {token token' : Token} {σ : Substitution}

structure Token.Formed (isClass : ClassRef → Prop) (token : Token) : Prop where
  type : token.type.Formed isClass
  scope : token.scope.Binds (Ty.Formed isClass)

namespace Token

variable (hfamily : ClassRef.Family isClass) (h : token.Formed isClass)

include hfamily h

theorem formed_component (hc : token.component? = some token') : token'.Formed isClass := by
  obtain ⟨t, ht, rfl⟩ := Option.map_eq_some_iff.mp hc
  exact ⟨h.type.component hfamily ht, h.scope⟩

theorem formed_resolveTypeWith (hσ : σ.Binds (Ty.Formed isClass)) {t : Ty} (ht : t.Formed isClass) :
    (token.resolveTypeWith σ t).Formed isClass :=
  ⟨Ty.formed_resolve hfamily (hσ.absorb h.scope) ht, h.scope⟩

theorem formed_replacing {v : TyVar} {t : Ty} (ht : t.Formed isClass)
    (hreplaced : token.replacing v t = .ok token') : token'.Formed isClass := by
  unfold replacing at hreplaced
  split at hreplaced
  · cases hreplaced
    exact h
  · split at hreplaced
    · cases hreplaced
    · split at hreplaced
      · cases hreplaced
      · rename_i scope hscope
        cases hreplaced
        have hbinds := Substitution.keeps_bind h.scope v ht scope hscope
        exact ⟨Ty.formed_resolve hfamily hbinds h.type, hbinds⟩

variable (henv : env.Formed isClass)

include henv

theorem formed_supertype {target : ClassRef} (hup : token.supertype env target = .ok token') :
    token'.Formed isClass := by
  obtain ⟨u, hfound, rfl⟩ := supertype_iff.mp hup
  exact ⟨Env.formed_supertype henv hfamily h.type hfound, h.scope⟩

theorem formed_subtype {target : ClassRef} (htarget : isClass target)
    (hdown : token.subtype env target = .ok token') : token'.Formed isClass := by
  obtain ⟨u, hfound, rfl⟩ := subtype_iff.mp hdown
  exact ⟨Env.formed_subtype henv hfamily h.type htarget hfound, h.scope⟩

/-- The superclass and the interfaces are edges to resolve, or bounds as they stand. -/
theorem formed_resolveDirect (hσ : σ.Binds (Ty.Formed isClass)) {direct : DirectSupertype}
    (hdirect : token.directSuperclass? env = some direct ∨ direct ∈ token.directInterfaces env) :
    (token.resolveDirect σ direct).Formed isClass := by
  have hcases : (∃ e ∈ env.classes.directSupertypes (token.rawType env), direct = .edge e) ∨
      ∃ bounds, env.upperBounds? token.type = some bounds ∧ ∃ b ∈ bounds, direct = .bound b := by
    unfold directSuperclass? directInterfaces at hdirect
    cases hopen : env.upperBounds? token.type with
    | none =>
        simp only [hopen] at hdirect
        left
        rcases hdirect with hsuper | hinterface
        · obtain ⟨e, he, rfl⟩ := Option.map_eq_some_iff.mp hsuper
          exact ⟨e, List.mem_append_left _ (Option.mem_toList.mpr he), rfl⟩
        · obtain ⟨e, he, rfl⟩ := List.mem_map.mp hinterface
          exact ⟨e, List.mem_append_right _ he, rfl⟩
    | some bounds =>
        simp only [hopen] at hdirect
        right
        refine ⟨bounds, rfl, ?_⟩
        rcases hdirect with hsuper | hinterface
        · obtain ⟨b, hb, rfl⟩ := Option.map_eq_some_iff.mp hsuper
          exact ⟨b, List.mem_of_head? (Option.filter_eq_some_iff.mp hb).1, rfl⟩
        · obtain ⟨b, hb, rfl⟩ := List.mem_map.mp hinterface
          exact ⟨b, List.mem_of_mem_filter hb, rfl⟩
  rcases hcases with ⟨e, he, rfl⟩ | ⟨bounds, hopen, b, hb, rfl⟩
  · exact ⟨Ty.formed_resolve hfamily hσ (henv.classes.edge hfamily he), h.scope⟩
  · exact ⟨Env.formed_upperBounds henv hfamily h.type hopen b hb, h.scope⟩

end Token

end

/-! ## Steps and runs -/

namespace Session

variable {admits isClass : ClassRef → Prop} {s s' : Session}

/-- Everything at hand is made of given classes and types of the one form. -/
structure Sound (isClass : ClassRef → Prop) (s : Session) : Prop where
  registries : ∀ registry ∈ s.registries, registry.Formed isClass
  bounds : s.bounds.Formed isClass
  types : ∀ t ∈ s.types, t.Formed isClass
  resolvers : ∀ σ ∈ s.resolvers, σ.Binds (Ty.Formed isClass)
  tokens : ∀ token ∈ s.tokens, token.Formed isClass

theorem sound_start (hfamily : ClassRef.Family isClass) : start.Sound isClass where
  registries := List.forall_mem_singleton.mpr (Registry.formed_core hfamily)
  bounds := BoundTable.formed_empty
  types := List.forall_mem_nil _
  resolvers := List.forall_mem_nil _
  tokens := List.forall_mem_nil _

variable (h : s.Sound isClass)

include h

theorem Sound.env {env : Env} (henv : s.Sees env) : env.Formed isClass :=
  ⟨h.registries _ henv.1, henv.2 ▸ h.bounds⟩

variable (hfamily : ClassRef.Family isClass) (hadmits : ∀ c, admits c → isClass c)

include hfamily hadmits

theorem Sound.names {c : ClassRef} (hc : s.Names admits c) : isClass c := by
  induction hc with
  | written hc => exact hadmits _ hc
  | arrayOf _ ih => exact hfamily.arrayOf _ ih
  | component _ ih => exact hfamily.component _ _ ih
  | raw henv ht => exact Env.isClass_erase (h.env henv) hfamily (h.types _ ht)
  | registered hr hget => exact (h.registries _ hr).isClass_of_get? hget
  | enclosing hr houter => exact (h.registries _ hr).isClass_of_enclosing? houter

theorem Sound.makesType {t : Ty} (ht : s.MakesType admits t) : t.Formed isClass := by
  have names : ∀ {c}, s.Names admits c → isClass c := h.names hfamily hadmits
  cases ht with
  | cls hc => exact .cls (names hc)
  | var v => exact .var v
  | parameterized henv hraw hargs hmade =>
      exact Env.formed_parameterized (h.env henv) (names hraw) (fun a ha => h.types a (hargs a ha))
        hmade
  | parameterizedIn henv howner hraw hargs hmade =>
      exact Env.formed_parameterizedIn (h.types _ howner) (names hraw)
        (fun a ha => h.types a (hargs a ha)) hmade
  | arrayOf ht => exact Ty.formed_arrayOf hfamily (h.types _ ht)
  | subtypeOf ht hmade => exact Ty.formed_subtypeOf (h.types _ ht) hmade
  | supertypeOf ht hmade => exact Ty.formed_supertypeOf hfamily (h.types _ ht) hmade
  | unbounded => exact .wildUpper (.cls (hfamily.named _ _))
  | genericForm hr hc => exact (h.registries _ hr).genericForm hfamily (names hc)
  | component ht hc => exact (h.types _ ht).component hfamily hc
  | edge hr he => exact (h.registries _ hr).edge hfamily he
  | bound hb => exact h.bounds.effective hfamily _ hb
  | resolved hσ ht => exact Ty.formed_resolve hfamily (h.resolvers _ hσ) (h.types _ ht)
  | ofToken htoken => exact (h.tokens _ htoken).type

omit hadmits in
theorem Sound.makesResolver {σ : Substitution} (hσ : s.MakesResolver σ) :
    σ.Binds (Ty.Formed isClass) := by
  cases hσ with
  | empty => exact Substitution.binds_empty
  | bind hσ ht hmade => exact Substitution.keeps_bind (h.resolvers _ hσ) _ (h.types _ ht) _ hmade
  | bindAll hσ hpairs hmade =>
      exact Substitution.keeps_bindAll (h.resolvers _ hσ)
        (fun pair hpair => h.types _ (hpairs pair hpair)) _ hmade
  | absorb hσ hτ => exact (h.resolvers _ hσ).absorb (h.resolvers _ hτ)
  | unify hσ hactual hmade =>
      exact Substitution.keeps_unify (Substitution.descends_formed hfamily) (h.types _ hactual)
        (h.resolvers _ hσ) _ hmade
  | covariantly henv ht => exact Env.formed_covariantly (h.env henv) hfamily (h.types _ ht)
  | scope htoken => exact (h.tokens _ htoken).scope

theorem Sound.makesToken {token : Token} (htoken : s.MakesToken admits token) :
    token.Formed isClass := by
  cases htoken with
  | ofType ht => exact ⟨h.types _ ht, Substitution.binds_empty⟩
  | component htoken hc => exact Token.formed_component hfamily (h.tokens _ htoken) hc
  | supertype henv htoken hup =>
      exact Token.formed_supertype hfamily (h.tokens _ htoken) (h.env henv) hup
  | subtype henv htoken htarget hdown =>
      exact Token.formed_subtype hfamily (h.tokens _ htoken) (h.env henv)
        (h.names hfamily hadmits htarget) hdown
  | superclass henv htoken hσ hdirect =>
      exact Token.formed_resolveDirect hfamily (h.tokens _ htoken) (h.env henv) (h.resolvers _ hσ)
        (Or.inl hdirect)
  | interface henv htoken hσ hdirect =>
      exact Token.formed_resolveDirect hfamily (h.tokens _ htoken) (h.env henv) (h.resolvers _ hσ)
        (Or.inr hdirect)
  | resolveType htoken hσ ht =>
      exact Token.formed_resolveTypeWith hfamily (h.tokens _ htoken) (h.resolvers _ hσ)
        (h.types _ ht)
  | replacing htoken ht hreplaced =>
      exact Token.formed_replacing hfamily (h.tokens _ htoken) (h.types _ ht) hreplaced

theorem Sound.declares {d : ClassDecl} (hd : s.Declares admits d) : d.Formed isClass where
  ref := h.names hfamily hadmits hd.ref
  enclosing c hc := h.names hfamily hadmits (hd.enclosing c hc)
  supertypes e he := by
    rcases hd.supertypes e he with hmem | rfl
    · exact h.types e hmem
    · exact .cls (hfamily.named _ _)

/-- Every step keeps the form. -/
theorem Sound.step (hstep : s.Step admits s') : s'.Sound isClass := by
  cases hstep with
  | type ht =>
      have ht := h.makesType hfamily hadmits ht
      exact { h with types := List.forall_mem_cons.mpr ⟨ht, h.types⟩ }
  | resolver hσ =>
      have hσ := h.makesResolver hfamily hσ
      exact { h with resolvers := List.forall_mem_cons.mpr ⟨hσ, h.resolvers⟩ }
  | token htoken =>
      have htoken := h.makesToken hfamily hadmits htoken
      exact { h with tokens := List.forall_mem_cons.mpr ⟨htoken, h.tokens⟩ }
  | registry =>
      have hcore := Registry.formed_core hfamily
      exact { h with registries := List.forall_mem_cons.mpr ⟨hcore, h.registries⟩ }
  | declareClass hr hd =>
      have hregistry := (h.registries _ hr).register (h.declares hfamily hadmits hd)
      exact { h with registries := List.forall_mem_cons.mpr ⟨hregistry, h.registries⟩ }
  | declareVariable declaration name => exact { h with bounds := h.bounds.declare declaration name }
  | installBounds v hbounds =>
      exact { h with bounds := h.bounds.install v fun b hb => h.types b (hbounds b hb) }
  | artificialVariable henv hbounds hmade =>
      have hbounds := (h.env henv).artificialVariable (fun b hb => h.types b (hbounds b hb)) hmade
      exact { h with bounds := hbounds }

omit h in
/-- Every run keeps the form. -/
theorem sound_of_reachable (hs : Reachable admits s) : s.Sound isClass := by
  induction hs with
  | start => exact sound_start hfamily
  | step _ hstep ih => exact ih.step hfamily hadmits hstep

omit h in
theorem formed_of_obtained {t : Ty} (ht : Obtained admits t) : t.Formed isClass := by
  obtain ⟨s, hs, hmem⟩ := ht
  exact (sound_of_reachable hfamily hadmits hs).types t hmem

end Session

open Session

/-- Every type that a program obtains has its one form. Where the array classes are built over
their components, an array is the array over its component, and arrays with equal components
are equal. -/
theorem Session.obtained_canonical {admits : ClassRef → Prop} {t : Ty} (ht : Obtained admits t) :
    t.Canonical ∧ ((∀ c, admits c → c.ByArrayOf) → ∀ u, t.component? = some u →
      (u.arrayOf == t) = true ∧ ∀ t' u', Obtained admits t' → t'.component? = some u' →
        (u == u') = true → (t == t') = true) := by
  constructor
  · exact (formed_of_obtained ClassRef.family_all (fun _ _ => trivial) ht).canonical
  · intro hadmits u hu
    have hformed : ∀ s, Obtained admits s → s.Formed ClassRef.ByArrayOf :=
      fun _ => formed_of_obtained ClassRef.family_byArrayOf hadmits
    have ht := hformed t ht
    refine ⟨by rw [ht.arrayOf_component hu]; exact Ty.same_refl t, fun t' u' ht' hu' hsame => ?_⟩
    rw [← ht.arrayOf_component hu, ← (hformed t' ht').arrayOf_component hu']
    exact Ty.same_arrayOf (ht.component ClassRef.family_byArrayOf hu).writable hsame

namespace Session

def gridClass : ClassRef := .named "Grid" .ordinary

def gridVar : TyVar := ⟨0, .ofClass gridClass, "E"⟩

def lists : Registry :=
  Registry.core.register ((ClassDecl.of Env.listClass).withParameters [Env.listVar])

def rowType : Ty := .param none Env.listClass [.array (.var gridVar)]

/-- A grid is a list of its rows. -/
def grids : Registry :=
  lists.register (((ClassDecl.of gridClass).withParameters [gridVar]).implementing rowType)

def gridType : Ty := .param none gridClass [Env.stringType]

/-- A program declares lists and grids, and asks a grid of strings what it is a list of. -/
theorem obtained_row : Obtained ClassRef.ByArrayOf
    (((⟨grids, .empty⟩ : Env).covariantly gridType).resolve (.var Env.listVar)) := by
  have names : ∀ (s : Session) name kind, s.Names ClassRef.ByArrayOf (.named name kind) :=
    fun _ _ _ => .written trivial
  have harray : Reachable ClassRef.ByArrayOf
      ⟨[.core], .empty, [.array (.var gridVar), .var gridVar], [], []⟩ :=
    (Reachable.start.step (.type (.var gridVar))).step
      (.type (.arrayOf (t := .var gridVar) List.mem_cons_self))
  have hlists : Reachable ClassRef.ByArrayOf
      ⟨[lists, .core], .empty, [.array (.var gridVar), .var gridVar], [], []⟩ := by
    refine harray.step (.declareClass List.mem_cons_self ⟨names _ _ _, nofun, ?_⟩)
    intro e he
    cases he
  have hrow : (⟨lists, .empty⟩ : Env).parameterized Env.listClass [.array (.var gridVar)] =
      .ok rowType := rfl
  have hgrids : Reachable ClassRef.ByArrayOf
      ⟨[grids, lists, .core], .empty, [rowType, .array (.var gridVar), .var gridVar], [], []⟩ := by
    refine (hlists.step (.type (.parameterized ⟨List.mem_cons_self, rfl⟩ (names _ _ _)
      (List.forall_mem_singleton.mpr List.mem_cons_self) hrow))).step
      (.declareClass List.mem_cons_self ⟨names _ _ _, nofun, ?_⟩)
    intro e he
    have he : e ∈ [Ty.object, rowType] := he
    rcases List.mem_cons.mp he with rfl | hrest
    · exact Or.inr rfl
    · exact Or.inl (List.mem_singleton.mp hrest ▸ List.mem_cons_self)
  have hgrid : (⟨grids, .empty⟩ : Env).parameterized gridClass [Env.stringType] =
      .ok gridType := rfl
  have hsees : Sees ⟨[grids, lists, .core], .empty, [.object], [], []⟩ ⟨grids, .empty⟩ :=
    ⟨List.mem_cons_self, rfl⟩
  have hbindings := ((hgrids.step (.type (.cls (names _ "java.lang.String" .ordinary)))).step
    (.type (.parameterized hsees (names _ _ _)
      (List.forall_mem_singleton.mpr List.mem_cons_self) hgrid))).step
    (.resolver (.covariantly hsees List.mem_cons_self))
  have hrowVar := hbindings.step (.type (.var Env.listVar))
  exact ⟨_, hrowVar.step (.type (.resolved List.mem_cons_self List.mem_cons_self)),
    List.mem_cons_self⟩

theorem obtained_strings : Obtained ClassRef.ByArrayOf Env.stringType.arrayOf :=
  ⟨_, (Reachable.start.step (.type (.cls (.written trivial)))).step
    (.type (.arrayOf List.mem_cons_self)), List.mem_cons_self⟩

/-- A row of a grid of strings is an array of strings as it is made from strings. -/
theorem obtained_canonical_row :
    ∃ t, Obtained ClassRef.ByArrayOf t ∧
      t = ((⟨grids, .empty⟩ : Env).covariantly gridType).resolve (.var Env.listVar) ∧
      t.Canonical ∧ t.component? = some Env.stringType ∧ (Env.stringType.arrayOf == t) = true ∧
      (t == Env.stringType.arrayOf) = true := by
  obtain ⟨hcanonical, harray⟩ := obtained_canonical obtained_row
  have hcomponent : (((⟨grids, .empty⟩ : Env).covariantly gridType).resolve
      (.var Env.listVar)).component? = some Env.stringType := rfl
  obtain ⟨hown, hunique⟩ := harray (fun _ hc => hc) Env.stringType hcomponent
  exact ⟨_, obtained_row, rfl, hcanonical, hcomponent, hown,
    hunique _ Env.stringType obtained_strings rfl (Ty.same_refl _)⟩

end Session

end Generics
