import Generics.Proofs.Ascent
import Generics.Proofs.Covariant
import Generics.Proofs.Validity

/-!
One form for each type. A wildcard has an upper bound and no bound twice, and an
array of a class or of a wildcard is not written with an array constructor. What
the constructors build has this form and more: a wildcard never gets a second
upper or lower bound. Every operation that puts types together, or takes them
apart, keeps it.

Which array classes there are is left open: all of them, or those that are named
by their components. In the second case a component has one array over it.
-/

namespace Generics

namespace ClassRef

/-- Classes with all those among them that are no arrays, closed under arrays and components. -/
structure Family (isClass : ClassRef → Prop) : Prop where
  named : ∀ name kind, isClass (.named name kind)
  arrayOf : ∀ c, isClass c → isClass (.arrayOf c)
  component : ∀ name c, isClass (.array name c) → isClass c

theorem family_all : Family fun _ => True where
  named _ _ := trivial
  arrayOf _ _ := trivial
  component _ _ _ := trivial

/-- At every level an array class is named by its component. -/
def ByArrayOf : ClassRef → Prop
  | named _ _ => True
  | array name component => name = component.name ++ "[]" ∧ component.ByArrayOf

theorem family_byArrayOf : Family ByArrayOf where
  named _ _ := trivial
  arrayOf _ h := ⟨rfl, h⟩
  component _ _ h := h.2

theorem arrayOf_component? {c d : ClassRef} (h : c.ByArrayOf) (hd : c.component? = some d) :
    d.arrayOf = c := by
  cases c with
  | named _ _ => cases hd
  | array name component =>
      cases hd
      rw [arrayOf, ← h.1]

end ClassRef

namespace Ty

/-- No member of a list equals another one. -/
abbrev Distinct (ts : List Ty) : Prop := ts.Pairwise fun s t => (s == t) = false ∧ (t == s) = false

/-- At every depth a wildcard has an upper bound and no bound twice, and the component of an
array is neither a class nor a wildcard. -/
inductive Canonical : Ty → Prop where
  | cls (c : ClassRef) : Canonical (cls c)
  | param {owner raw args} (howner : ∀ t ∈ owner, Canonical t) (hargs : ∀ t ∈ args, Canonical t) :
      Canonical (param owner raw args)
  | array {component} (h : Canonical component) (hclass : component.class? = none)
      (hwild : component.isWildcard = false) : Canonical (array component)
  | wild {upper lower} (hupper : ∀ t ∈ upper, Canonical t) (hlower : ∀ t ∈ lower, Canonical t)
      (hne : upper ≠ []) (hupperOnce : Distinct upper) (hlowerOnce : Distinct lower) :
      Canonical (wild upper lower)
  | var (v : TyVar) : Canonical (var v)

/-- Canonical types over given classes with one upper bound and at most one lower bound in
each wildcard. -/
inductive Formed (isClass : ClassRef → Prop) : Ty → Prop where
  | cls {c} (hc : isClass c) : Formed isClass (cls c)
  | param {owner raw args} (howner : ∀ t ∈ owner, Formed isClass t) (hraw : isClass raw)
      (hargs : ∀ t ∈ args, Formed isClass t) : Formed isClass (param owner raw args)
  | array {component} (h : Formed isClass component) (hclass : component.class? = none)
      (hwild : component.isWildcard = false) : Formed isClass (array component)
  | wildUpper {upper} (hupper : Formed isClass upper) : Formed isClass (wild [upper] [])
  | wildLower {upper lower} (hupper : Formed isClass upper) (hlower : Formed isClass lower) :
      Formed isClass (wild [upper] [lower])
  | var (v : TyVar) : Formed isClass (var v)

variable {isClass : ClassRef → Prop} {σ : Substitution} {s t u : Ty}

theorem Formed.canonical (h : t.Formed isClass) : t.Canonical := by
  induction h with
  | cls _ => exact .cls _
  | param _ _ _ ihowner ihargs => exact .param ihowner ihargs
  | array _ hclass hwild ih => exact .array ih hclass hwild
  | wildUpper _ ih =>
      exact .wild (List.forall_mem_singleton.mpr ih) (List.forall_mem_nil _) (List.cons_ne_nil _ _)
        (List.pairwise_singleton _ _) .nil
  | wildLower _ _ ihupper ihlower =>
      exact .wild (List.forall_mem_singleton.mpr ihupper) (List.forall_mem_singleton.mpr ihlower)
        (List.cons_ne_nil _ _) (List.pairwise_singleton _ _) (List.pairwise_singleton _ _)
  | var v => exact .var v

theorem Formed.written (h : t.Formed isClass) : t.Written isClass fun _ => True := by
  induction h with
  | cls hc => exact .cls hc
  | param _ hraw _ ihowner ihargs => exact .param ihowner hraw ihargs
  | array _ _ _ ih => exact .array ih
  | wildUpper _ ih => exact .wildUpper ih
  | wildLower _ _ ihupper ihlower => exact .wildLower ihupper ihlower
  | var v => exact .var trivial

theorem Formed.writable (h : t.Formed isClass) : t.Writable :=
  h.written.mono (fun _ _ => trivial) fun _ => id

/-! ## Parts -/

theorem Formed.component (hfamily : ClassRef.Family isClass) (h : t.Formed isClass)
    (hu : t.component? = some u) : u.Formed isClass := by
  cases h with
  | @cls c hc =>
      cases c with
      | named _ _ => cases hu
      | array name component =>
          cases hu
          exact .cls (hfamily.component name component hc)
  | array h _ _ =>
      cases hu
      exact h
  | _ => cases hu

theorem Formed.bounds {upper lower : List Ty} (h : (wild upper lower).Formed isClass) :
    (∀ b ∈ upper, b.Formed isClass) ∧ ∀ b ∈ lower, b.Formed isClass := by
  cases h with
  | wildUpper hupper => exact ⟨List.forall_mem_singleton.mpr hupper, List.forall_mem_nil _⟩
  | wildLower hupper hlower =>
      exact ⟨List.forall_mem_singleton.mpr hupper, List.forall_mem_singleton.mpr hlower⟩

/-! ## Arrays -/

theorem formed_arrayOf (hfamily : ClassRef.Family isClass) (h : t.Formed isClass) :
    t.arrayOf.Formed isClass := by
  induction h with
  | cls hc => exact .cls (hfamily.arrayOf _ hc)
  | param howner hraw hargs _ _ => exact .array (.param howner hraw hargs) rfl rfl
  | array h hclass hwild _ => exact .array (.array h hclass hwild) rfl rfl
  | wildUpper _ ih => exact .wildUpper ih
  | wildLower _ _ ihupper ihlower => exact .wildLower ihupper ihlower
  | var v => exact .array (.var v) rfl rfl

/-- An array type is the array over its component, if an array class is named by its own. -/
theorem Canonical.arrayOf_component (h : t.Canonical) (hclass : ∀ c ∈ t.class?, c.ByArrayOf)
    (hu : t.component? = some u) : u.arrayOf = t := by
  cases h with
  | cls c =>
      obtain ⟨d, hd, rfl⟩ := Option.map_eq_some_iff.mp hu
      rw [arrayOf, ClassRef.arrayOf_component? (hclass c rfl) hd]
  | array _ hcomponent hwild =>
      cases hu
      cases u with
      | cls _ => cases hcomponent
      | wild _ _ => cases hwild
      | _ => rfl
  | _ => cases hu

theorem Formed.arrayOf_component (h : t.Formed ClassRef.ByArrayOf) (hu : t.component? = some u) :
    u.arrayOf = t := by
  refine h.canonical.arrayOf_component (fun c hc => ?_) hu
  cases h with
  | cls hclass =>
      cases hc
      exact hclass
  | _ => cases hc

/-! ## Wildcards -/

theorem formed_subtypeOf (ht : t.Formed isClass) (h : t.subtypeOf = .ok u) : u.Formed isClass := by
  unfold subtypeOf at h
  split at h
  · cases h
  · cases h
    exact .wildUpper ht

theorem formed_supertypeOf (hfamily : ClassRef.Family isClass) (ht : t.Formed isClass)
    (h : t.supertypeOf = .ok u) : u.Formed isClass := by
  unfold supertypeOf at h
  split at h
  · cases h
  · cases h
    exact .wildLower (.cls (hfamily.named _ _)) ht

/-! ## Substitution -/

/-- Substitution builds arrays anew, so that only what is put in has to be in this form. -/
theorem formed_subst (hfamily : ClassRef.Family isClass) (ht : t.Written isClass fun _ => True)
    (himage : ∀ v, ((var v).subst σ).Formed isClass) : (t.subst σ).Formed isClass := by
  induction ht with
  | cls hc => exact .cls hc
  | @param owner raw args _ hraw _ ihowner ihargs =>
      rw [subst_param]
      refine .param ?_ hraw ?_
      · intro t ht
        obtain ⟨o, ho, rfl⟩ := Option.map_eq_some_iff.mp ht
        exact ihowner o ho
      · intro t ht
        obtain ⟨a, ha, rfl⟩ := List.mem_map.mp ht
        exact ihargs a ha
  | array _ ih => exact formed_arrayOf hfamily ih
  | wildUpper _ ih => exact .wildUpper ih
  | wildLower _ _ ihupper ihlower => exact .wildLower ihupper ihlower
  | @var v _ => exact himage v

theorem formed_resolve (hfamily : ClassRef.Family isClass) (hσ : σ.Binds (Formed isClass))
    (ht : t.Formed isClass) : (σ.resolve t).Formed isClass := by
  unfold Substitution.resolve
  split
  · exact ht
  · exact formed_subst hfamily ht.written fun v => hσ.image (.var v)

end Ty

namespace Substitution

variable {isClass : ClassRef → Prop} {Q : Ty → Prop} {σ τ : Substitution}

/-! ## Bindings -/

theorem binds_empty : Substitution.empty.Binds Q := List.forall_mem_nil _

theorem Binds.insertIfNew (h : σ.Binds Q) (v : TyVar) {t : Ty} (ht : Q t) :
    (σ.insertIfNew v t).Binds Q := by
  cases hget : σ.get? v with
  | some _ => rwa [insertIfNew_of_mapped t hget]
  | none =>
      rw [insertIfNew_of_unmapped t hget]
      exact List.forall_mem_append.mpr ⟨h, List.forall_mem_singleton.mpr ht⟩

theorem Binds.insertAllNew (h : σ.Binds Q) {pairs : List (TyVar × Ty)}
    (hpairs : ∀ pair ∈ pairs, Q pair.2) : (σ.insertAllNew pairs).Binds Q := by
  induction pairs generalizing σ with
  | nil => exact h
  | cons pair pairs ih =>
      obtain ⟨hhead, htail⟩ := List.forall_mem_cons.mp hpairs
      exact ih (h.insertIfNew pair.1 hhead) htail

theorem Binds.absorb (hσ : σ.Binds Q) (hτ : τ.Binds Q) : (σ.absorb τ).Binds Q :=
  hσ.insertAllNew hτ

theorem keeps_bindAll (hσ : σ.Binds Q) {pairs : List (TyVar × Ty)}
    (hpairs : ∀ pair ∈ pairs, Q pair.2) : Keeps Q (σ.bindAll pairs) := by
  unfold bindAll
  induction pairs generalizing σ with
  | nil => exact keeps_ok hσ
  | cons pair pairs ih =>
      obtain ⟨hhead, htail⟩ := List.forall_mem_cons.mp hpairs
      rw [List.foldlM_cons]
      exact (keeps_bind hσ pair.1 hhead).bind fun θ hθ => ih hθ htail

theorem descends_formed (hfamily : ClassRef.Family isClass) :
    Descends (fun _ => Ty.Formed isClass) (Ty.Formed isClass) where
  component h hcomponent := h.component hfamily hcomponent
  argument h _ _ a ha := by
    cases h with
    | param _ _ hargs => exact hargs a ha
  owner h := by
    cases h with
    | param howner _ _ => exact howner _ rfl
  bound h := ⟨fun _ _ => h.bounds.1, fun _ _ => h.bounds.2⟩
  root := id

end Substitution

/-! ## Declarations -/

variable {isClass : ClassRef → Prop}

/-- A declaration by given classes and types of this form. -/
structure ClassDecl.Formed (isClass : ClassRef → Prop) (d : ClassDecl) : Prop where
  ref : isClass d.ref
  enclosing : ∀ c ∈ d.enclosing?, isClass c
  supertypes : ∀ e ∈ d.supertypes, e.Formed isClass

/-- A class that says nothing has the root class above it, if anything. -/
theorem ClassDecl.formed_of (hfamily : ClassRef.Family isClass) {c : ClassRef} (hc : isClass c) :
    (ClassDecl.of c).Formed isClass where
  ref := hc
  enclosing := nofun
  supertypes := by
    have hsuper : ∀ e ∈ (ClassDecl.of c).superclass?, e = .object := by
      unfold ClassDecl.of
      intro e he
      dsimp only at he
      split at he
      · split at he
        · cases he
        · exact (Option.some.inj he).symm
      · cases he
    intro e he
    have he : e ∈ (ClassDecl.of c).superclass?.toList ++ [] := he
    rw [List.append_nil] at he
    rw [hsuper e (Option.mem_toList.mp he)]
    exact .cls (hfamily.named _ _)

namespace Registry

variable {registry : Registry}

def Formed (isClass : ClassRef → Prop) (registry : Registry) : Prop :=
  ∀ (name : String) (d : ClassDecl), registry.decls[name]? = some d → d.Formed isClass

theorem Formed.register (h : registry.Formed isClass) {d : ClassDecl} (hd : d.Formed isClass) :
    (registry.register d).Formed isClass := by
  intro name d' hget
  have hget : (registry.decls.insert d.ref.name d)[name]? = some d' := hget
  rw [Std.TreeMap.getElem?_insert] at hget
  split at hget
  · cases hget
    exact hd
  · exact h name d' hget

theorem formed_of_supertypes (h : ∀ entry ∈ registry.decls.toList, ∀ e ∈ entry.2.supertypes,
    e.Formed fun _ => True) : registry.Formed fun _ => True := fun name d hget =>
  ⟨trivial, fun _ _ => trivial, h (name, d) (Std.TreeMap.mem_toList_iff_getElem?_eq_some.mpr hget)⟩

theorem formed_core (hfamily : ClassRef.Family isClass) : core.Formed isClass := by
  have hregister : ∀ (cs : List ClassRef) (registry : Registry), (∀ c ∈ cs, isClass c) →
      registry.Formed isClass →
      (cs.foldl (fun registry c => registry.register (.of c)) registry).Formed isClass := by
    intro cs
    induction cs with
    | nil => exact fun _ _ h => h
    | cons c cs ih =>
        intro registry hcs h
        obtain ⟨hc, hrest⟩ := List.forall_mem_cons.mp hcs
        exact ih _ hrest (h.register (ClassDecl.formed_of hfamily hc))
  refine hregister _ empty ?_ fun name d hget => ?_
  · intro c hc
    rcases List.mem_append.mp hc with htop | hprimitive
    · simp only [List.mem_cons, List.not_mem_nil, or_false] at htop
      rcases htop with rfl | rfl | rfl
      all_goals exact hfamily.named _ _
    · obtain ⟨p, -, rfl⟩ := List.mem_map.mp hprimitive
      exact hfamily.named _ _
  · simp [empty] at hget

variable (h : registry.Formed isClass)

include h

theorem Formed.isClass_of_get? {name : String} {c : ClassRef} (hc : registry.get? name = some c) :
    isClass c := by
  obtain ⟨d, hd, rfl⟩ := Option.map_eq_some_iff.mp hc
  exact (h name d hd).ref

theorem Formed.isClass_of_enclosing? {c outer : ClassRef}
    (houter : registry.enclosing? c = some outer) : isClass outer := by
  obtain ⟨d, hd, henclosing⟩ := Option.bind_eq_some_iff.mp houter
  exact (h c.name d hd).enclosing outer henclosing

theorem Formed.edge (hfamily : ClassRef.Family isClass) {c : ClassRef} {e : Ty}
    (he : e ∈ registry.directSupertypes c) : e.Formed isClass := by
  cases c with
  | array name component =>
      have htops : e ∈ [ClassRef.object, .cloneable, .serializable].map Ty.cls := he
      simp only [List.map_cons, List.map_nil, List.mem_cons, List.not_mem_nil, or_false] at htops
      rcases htops with rfl | rfl | rfl
      all_goals exact .cls (hfamily.named _ _)
  | named name kind =>
      rw [directSupertypes_named] at he
      cases hd : registry.decls[name]? with
      | none => simp [hd] at he
      | some d => exact (h name d hd).supertypes e (by simpa [hd] using he)

omit h

variable (henclosing : ∀ c outer, registry.enclosing? c = some outer → isClass outer)

include henclosing

/-- The form of a class over a generic component is no array class. -/
theorem formed_formWithin (hfamily : ClassRef.Family isClass) {outerForm : ClassRef → Ty}
    (houter : ∀ c, isClass c → (outerForm c).Formed isClass) {c : ClassRef} (hc : isClass c) :
    (registry.formWithin outerForm c).Formed isClass := by
  induction c with
  | array name component ih =>
      rcases formWithin_array registry outerForm name component with ⟨-, hform⟩ | ⟨hne, hform⟩
      · rw [hform]
        exact .cls hc
      · rw [hform]
        refine .array (ih (hfamily.component name component hc)) ?_
          (isWildcard_formWithin outerForm component)
        cases hcomponent : registry.formWithin outerForm component with
        | cls d =>
            obtain rfl := formWithin_cls hcomponent
            exact absurd hcomponent hne
        | _ => rfl
  | named name kind =>
      rw [formWithin_of_plain registry outerForm rfl]
      split
      · exact .cls hc
      · refine .param ?_ hc ?_
        · intro owner howner
          obtain ⟨outer, hget, rfl⟩ := Option.map_eq_some_iff.mp howner
          have hclass := henclosing _ outer hget
          split
          · exact .cls hclass
          · exact houter outer hclass
        · intro t ht
          obtain ⟨v, -, rfl⟩ := List.mem_map.mp ht
          exact .var v

theorem formed_genericForm (hfamily : ClassRef.Family isClass) {c : ClassRef} (hc : isClass c) :
    (registry.genericForm c).Formed isClass := by
  unfold Registry.genericForm
  induction registry.size + 1 generalizing c with
  | zero => exact .cls hc
  | succ hops ih => exact formed_formWithin henclosing hfamily (fun _ => ih) hc

omit henclosing

theorem Formed.genericForm (h : registry.Formed isClass) (hfamily : ClassRef.Family isClass)
    {c : ClassRef} (hc : isClass c) : (registry.genericForm c).Formed isClass :=
  formed_genericForm (fun _ _ => h.isClass_of_enclosing?) hfamily hc

end Registry

namespace BoundTable

variable {table : BoundTable}

def Formed (isClass : ClassRef → Prop) (table : BoundTable) : Prop :=
  ∀ bounds, some bounds ∈ table.cells → ∀ b ∈ bounds, b.Formed isClass

theorem formed_empty : empty.Formed isClass := by
  intro bounds hmem
  simp [empty] at hmem

theorem Formed.declare (h : table.Formed isClass) (declaration : Declaration) (name : String) :
    (table.declare declaration name).2.Formed isClass := by
  intro bounds hmem
  rcases Array.mem_push.mp hmem with hold | hnew
  · exact h bounds hold
  · cases hnew

theorem Formed.install (h : table.Formed isClass) (v : TyVar) {bounds : List Ty}
    (hbounds : ∀ b ∈ bounds, b.Formed isClass) : (table.install v bounds).2.Formed isClass := by
  by_cases hfree : table.cells[v.cell]? = some none
  · rw [install_of_free bounds hfree]
    intro bounds' hmem
    rcases Array.mem_or_eq_of_mem_setIfInBounds hmem with hold | heq
    · exact h bounds' hold
    · cases heq
      exact hbounds
  · rw [install_of_not_free bounds hfree]
    exact h

theorem Formed.declared (h : table.Formed isClass) {v : TyVar} {b : Ty}
    (hb : b ∈ table.declared v) : b.Formed isClass := by
  unfold BoundTable.declared at hb
  cases hcell : table.cells[v.cell]? with
  | none => simp [hcell] at hb
  | some cell =>
      cases cell with
      | none => simp [hcell] at hb
      | some bounds => exact h bounds (Array.mem_of_getElem? hcell) b (by simpa [hcell] using hb)

theorem Formed.effective (h : table.Formed isClass) (hfamily : ClassRef.Family isClass)
    {v : TyVar} : ∀ b ∈ table.effective v, b.Formed isClass := by
  intro b hb
  unfold BoundTable.effective at hb
  split at hb
  · rw [List.mem_singleton.mp hb]
    exact .cls (hfamily.named _ _)
  · exact h.declared hb

end BoundTable

namespace Env

open Ty (formed_arrayOf formed_subst)

variable {env : Env} {s t u : Ty} {c target : ClassRef}

structure Formed (isClass : ClassRef → Prop) (env : Env) : Prop where
  classes : env.classes.Formed isClass
  bounds : env.bounds.Formed isClass

variable (henv : env.Formed isClass) (hfamily : ClassRef.Family isClass)

include henv hfamily

theorem formed_upperBounds {bounds : List Ty} (ht : t.Formed isClass)
    (hopen : env.upperBounds? t = some bounds) : ∀ b ∈ bounds, b.Formed isClass := by
  cases t with
  | var v =>
      cases hopen
      exact henv.bounds.effective hfamily
  | wild upper lower =>
      cases hopen
      exact ht.bounds.1
  | _ => cases hopen

/-- The raw class of a type is one of the given classes. -/
theorem isClass_erase (ht : t.Formed isClass) : isClass (env.erase t) := by
  have hwithin : ∀ hops (t : Ty), t.Formed isClass → isClass (env.bounds.eraseWithin hops t) := by
    intro hops
    induction hops with
    | zero => exact fun _ _ => hfamily.named _ _
    | succ hops ih =>
        intro t ht
        cases ht with
        | cls hc => exact hc
        | param _ hraw _ => exact hraw
        | array h _ _ => exact hfamily.arrayOf _ (ih _ h)
        | wildUpper hupper => exact ih _ hupper
        | wildLower hupper _ => exact ih _ hupper
        | var v =>
            simp only [BoundTable.eraseWithin]
            split
            · exact hfamily.named _ _
            · rename_i bound rest hbounds
              exact ih _ (henv.bounds.declared (v := v) (by rw [hbounds]; exact List.mem_cons_self))
  exact hwithin _ t ht

/-! ## The factory -/

omit henv hfamily in
theorem formed_applied {owner : Option Ty} {args : List Ty} (howner : ∀ o ∈ owner, o.Formed isClass)
    (hc : isClass c) (hargs : ∀ a ∈ args, a.Formed isClass) (h : env.applied owner c args = .ok t) :
    t.Formed isClass := by
  unfold applied at h
  dsimp only at h
  split at h
  · cases h
  · split at h
    · cases h
    · split at h
      · cases h
      · split at h
        · cases h
          exact .cls hc
        · cases h
          exact .param howner hc hargs

omit hfamily in
theorem formed_parameterized {args : List Ty} (hc : isClass c)
    (hargs : ∀ a ∈ args, a.Formed isClass) (h : env.parameterized c args = .ok t) :
    t.Formed isClass := by
  unfold parameterized at h
  split at h
  · refine formed_applied ?_ hc hargs h
    rintro o ⟨⟩
  · rename_i outer houter
    split at h
    · cases h
    · refine formed_applied ?_ hc hargs h
      rintro o ⟨⟩
      exact .cls (henv.classes.isClass_of_enclosing? houter)

omit henv hfamily in
theorem formed_parameterizedIn {args : List Ty} (hs : s.Formed isClass) (hc : isClass c)
    (hargs : ∀ a ∈ args, a.Formed isClass) (h : env.parameterizedIn s c args = .ok t) :
    t.Formed isClass := by
  unfold parameterizedIn at h
  split at h
  · cases h
  · split at h
    · cases h
    · split at h
      · cases h
      · refine formed_applied ?_ hc hargs h
        rintro o ⟨⟩
        exact hs

omit hfamily in
theorem Formed.artificialVariable {declaration : Declaration} {name : String} {bounds : List Ty}
    {v : TyVar} {env' : Env} (hbounds : ∀ b ∈ bounds, b.Formed isClass)
    (h : env.artificialVariable declaration name bounds = .ok (v, env')) :
    env'.bounds.Formed isClass := by
  unfold Env.artificialVariable at h
  split at h
  · cases h
  · cases h
    exact (henv.bounds.declare declaration name).install _ hbounds

/-! ## Navigation -/

omit henv hfamily in
theorem formed_carried (ht : t.Formed isClass) (v : TyVar) :
    ((Ty.var v).subst (env.carried t)).Formed isClass := by
  refine carried_forall (carriedPairs_forall (fun owner raw args h => ?_) ht) (.var v)
  cases h with
  | param howner _ hargs => exact ⟨howner, hargs⟩

theorem formed_instantiated {e : Ty} (ht : t.Formed isClass) (he : e.Formed isClass) :
    (env.instantiated t e).Formed isClass := by
  unfold instantiated
  split
  · exact .cls (isClass_erase henv hfamily he)
  · exact formed_subst hfamily he.written (formed_carried ht)

theorem formed_viewStart (ht : t.Formed isClass) (h : env.viewStart t = some u) :
    u.Formed isClass := by
  cases t with
  | cls c =>
      cases h
      cases ht with
      | cls hc =>
          split
          · exact .cls hc
          · exact henv.classes.genericForm hfamily hc
  | param _ _ _ =>
      cases h
      exact ht
  | array _ =>
      cases h
      exact .cls (isClass_erase henv hfamily ht)
  | wild _ _ => cases h
  | var _ => cases h

theorem formed_supertype (ht : t.Formed isClass) (h : env.supertype t target = .ok u) :
    u.Formed isClass :=
  supertype_preserves (P := Ty.Formed isClass) (Q := Ty.Formed isClass) (R := Ty.Formed isClass)
    (fun _ _ hs hopen => formed_upperBounds henv hfamily hs hopen)
    (fun _ _ hs => hs.component hfamily) (fun _ _ hs => formed_viewStart henv hfamily hs)
    (fun _ hs _ he => formed_instantiated henv hfamily hs (henv.classes.edge hfamily he))
    (fun _ hs => hs) (.cls (hfamily.named _ _)) (fun _ hs => formed_arrayOf hfamily hs) ht h

theorem formed_plainSubtype (ht : t.Formed isClass) (htarget : isClass target)
    (h : env.plainSubtype t target = .ok u) : u.Formed isClass := by
  rcases inferSubtype_cases (inferSubtype_of_plainSubtype h).2 with
    rfl | ⟨-, shape, θ, -, hunify, rfl⟩
  · exact .cls htarget
  · have hθ := Substitution.keeps_unify (Substitution.descends_formed hfamily) ht
      Substitution.binds_empty θ hunify
    exact formed_subst hfamily (henv.classes.genericForm hfamily htarget).written
      fun v => hθ.image (.var v)

theorem formed_subtype (ht : t.Formed isClass) (htarget : isClass target)
    (h : env.subtype t target = .ok u) : u.Formed isClass := by
  induction target generalizing t u with
  | named name kind =>
      rcases subtype_cases h with ⟨-, hplain⟩ | ⟨_, _, _, _, heq, -⟩
      · exact formed_plainSubtype henv hfamily ht htarget hplain
      · cases heq
  | array name targetComponent ih =>
      rcases subtype_cases h with ⟨-, hplain⟩ | ⟨_, _, component, u', heq, hcomponent, hrec, rfl⟩
      · exact formed_plainSubtype henv hfamily ht htarget hplain
      · cases heq
        exact formed_arrayOf hfamily (ih (ht.component hfamily hcomponent)
          (hfamily.component name targetComponent htarget) hrec)

/-! ## Covariant bindings -/

/-- What a type and all its supertypes say about their parameters has this form. -/
theorem formed_covariantly (ht : t.Formed isClass) :
    (env.covariantly t).Binds (Ty.Formed isClass) := by
  refine Visit.within_preserves (P := fun σ : Substitution => σ.Binds (Ty.Formed isClass))
    (Q := Ty.Formed isClass) partOf_growth (covariantHandler_adds env) ?_ _ ht
    Substitution.binds_empty
  intro visit _ hvisit t s ht hs
  let Good (s : Visit Substitution) : Prop := s.acc.Binds (Ty.Formed isClass)
  have hall : ∀ (ts : List Ty) (s : Visit Substitution), (∀ t ∈ ts, t.Formed isClass) →
      Good s → Good (Visit.all visit ts s) := fun ts s hts hs =>
    List.foldlRecOn (motive := Good) ts _ hs fun s hs t ht => hvisit t s (hts t ht) hs
  have hedges : ∀ (c : ClassRef) (s : Visit Substitution), Good s →
      Good (env.visitEdges visit c s) := by
    intro c s hs
    refine List.foldlRecOn (motive := Good) _ _ hs fun s hs e he => ?_
    have he := henv.classes.edge hfamily he
    exact hvisit _ s (formed_subst hfamily he.written fun v => hs.image (.var v)) hs
  cases t with
  | cls c => exact hedges c s hs
  | param owner raw args =>
      cases ht with
      | param howner _ hargs =>
          refine hall _ _ (fun o ho => howner o (Option.mem_toList.mp ho)) (hedges raw _ ?_)
          refine List.foldlRecOn (motive := fun σ : Substitution => σ.Binds (Ty.Formed isClass))
            _ _ hs fun σ hσ pair hpair => ?_
          dsimp only
          split
          · exact hσ
          · exact hσ.insertIfNew _ (hargs _ (List.of_mem_zip hpair).2)
  | array _ => exact hs
  | wild upper lower => exact hall upper s ht.bounds.1 hs
  | var v => exact hall _ s (henv.bounds.effective hfamily) hs

end Env

end Generics
