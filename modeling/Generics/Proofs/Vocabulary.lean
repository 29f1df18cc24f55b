import Generics.Formation
import Generics.Proofs.View

/-!
Vocabularies: the classes and the variables that questions about types can
meet, closed under everything that a walk looks at. In a vocabulary equal
class handles carry one kind, and equal variables have the same bounds, so
that equal types have equal views.
-/

namespace Generics

structure Vocabulary (env : Env) where
  isClass : ClassRef → Prop
  isVar : TyVar → Prop
  object : isClass .object
  cloneable : isClass .cloneable
  serializable : isClass .serializable
  arrayOf : ∀ c, isClass c → isClass (.arrayOf c)
  component : ∀ c, isClass c → ∀ d ∈ c.component?, isClass d
  sameKind : ∀ c d, isClass c → isClass d → (c == d) = true → c.sameKind d = true
  sameBounds : ∀ v v', isVar v → isVar v' → (v == v') = true →
    List.Forall₂ Ty.Same (env.bounds.declared v) (env.bounds.declared v')
  bounds : ∀ v, isVar v → ∀ t ∈ env.bounds.declared v, t.Written isClass isVar
  edges : ∀ c, isClass c → ∀ t ∈ env.classes.directSupertypes c, t.Written isClass isVar
  parameters : ∀ c, isClass c → ∀ v ∈ env.classes.parameters c, isVar v
  enclosing : ∀ c, isClass c → ∀ d ∈ env.classes.enclosing? c, isClass d

namespace Vocabulary

variable {env : Env} (w : Vocabulary env)

/-- Written with the classes and variables of the vocabulary. -/
abbrev Writes (t : Ty) : Prop := t.Written w.isClass w.isVar

variable {w}

/-- Equal class handles of a vocabulary are one. -/
theorem class_unique {c d : ClassRef} (hc : w.isClass c) (hd : w.isClass d)
    (h : c.name = d.name) : c = d :=
  ClassRef.eq_of_name w.component w.sameKind hc hd h

theorem writes_object : w.Writes .object := .cls w.object

theorem writes_bounds {upper lower : List Ty} (h : w.Writes (.wild upper lower)) :
    (∀ t ∈ upper, w.Writes t) ∧ ∀ t ∈ lower, w.Writes t := by
  cases h with
  | wildUpper hupper => simpa using hupper
  | wildLower hupper hlower => simpa using And.intro hupper hlower

/-! ## Building -/

theorem unbounded_writes : w.Writes .unbounded := .wildUpper writes_object

theorem subtypeOf_writes {bound t : Ty} (hbound : w.Writes bound)
    (h : Ty.subtypeOf bound = .ok t) : w.Writes t := by
  unfold Ty.subtypeOf at h
  split at h
  · cases h
  · cases h
    exact .wildUpper hbound

theorem supertypeOf_writes {bound t : Ty} (hbound : w.Writes bound)
    (h : Ty.supertypeOf bound = .ok t) : w.Writes t := by
  unfold Ty.supertypeOf at h
  split at h
  · cases h
  · cases h
    exact .wildLower writes_object hbound

theorem arrayOf_writes {t : Ty} (ht : w.Writes t) : w.Writes t.arrayOf :=
  Ty.written_arrayOf w.arrayOf ht

theorem applied_writes {owner : Option Ty} {raw : ClassRef} {args : List Ty} {t : Ty}
    (howner : ∀ o ∈ owner, w.Writes o) (hraw : w.isClass raw) (hargs : ∀ a ∈ args, w.Writes a)
    (h : env.applied owner raw args = .ok t) : w.Writes t := by
  unfold Env.applied at h
  dsimp only at h
  split at h
  · cases h
  · split at h
    · cases h
    · split at h
      · cases h
      · split at h
        · cases h
          exact .cls hraw
        · cases h
          exact .param howner hraw hargs

/-! ## Equal types of a vocabulary -/

/-- Equal types of the vocabulary. -/
def Alike (w : Vocabulary env) (s t : Ty) : Prop := w.Writes s ∧ w.Writes t ∧ Ty.Same s t

theorem alike_refl {t : Ty} (h : w.Writes t) : w.Alike t t := ⟨h, h, Ty.same_refl t⟩

theorem alike_symm {s t : Ty} (h : w.Alike s t) : w.Alike t s :=
  ⟨h.2.1, h.1, Ty.same_symm h.1.writable h.2.2⟩

theorem alike_trans {s t u : Ty} (h : w.Alike s t) (h' : w.Alike t u) : w.Alike s u :=
  ⟨h.1, h'.2.1, Ty.same_trans h.2.2 h'.2.2⟩

theorem alike_list {ts us : List Ty} (hts : ∀ t ∈ ts, w.Writes t) (hus : ∀ u ∈ us, w.Writes u)
    (h : List.Forall₂ Ty.Same ts us) : List.Forall₂ w.Alike ts us := by
  induction h with
  | nil => exact .nil
  | cons hhead _ ih =>
      exact .cons ⟨hts _ List.mem_cons_self, hus _ List.mem_cons_self, hhead⟩
        (ih (fun t ht => hts t (List.mem_cons_of_mem _ ht))
          fun u hu => hus u (List.mem_cons_of_mem _ hu))

theorem alike_cls {c : ClassRef} {t : Ty} (h : w.Alike (.cls c) t) : t = .cls c := by
  obtain ⟨hs, ht, hsame⟩ := h
  obtain ⟨d, rfl, hname⟩ := Ty.same_cls.mp hsame
  cases hs with
  | cls hc =>
      cases ht with
      | cls hd => rw [class_unique hc hd hname]

theorem alike_param {owner : Option Ty} {raw : ClassRef} {args : List Ty} {t : Ty}
    (h : w.Alike (.param owner raw args) t) :
    ∃ owner' args', t = .param owner' raw args' ∧ Option.Rel w.Alike owner owner' ∧
      List.Forall₂ w.Alike args args' := by
  obtain ⟨hs, ht, hsame⟩ := h
  obtain ⟨owner', raw', args', rfl, hname, ho, hargs⟩ := Ty.same_param.mp hsame
  cases hs with
  | param hsowner hsraw hsargs =>
      cases ht with
      | param htowner htraw htargs =>
          obtain rfl := class_unique hsraw htraw hname
          refine ⟨owner', args', rfl, ?_, alike_list hsargs htargs hargs⟩
          cases ho with
          | none => exact .none
          | some h => exact .some ⟨hsowner _ rfl, htowner _ rfl, h⟩

theorem alike_array {component t : Ty} (h : w.Alike (.array component) t) :
    ∃ component', t = .array component' ∧ w.Alike component component' := by
  obtain ⟨hs, ht, hsame⟩ := h
  obtain ⟨component', rfl, hc⟩ := Ty.same_array.mp hsame
  cases hs with
  | array hs =>
      cases ht with
      | array ht => exact ⟨component', rfl, hs, ht, hc⟩

theorem alike_wildUpper {upper t : Ty} (h : w.Alike (.wild [upper] []) t) :
    ∃ upper', t = .wild [upper'] [] ∧ w.Alike upper upper' := by
  obtain ⟨hs, ht, hsame⟩ := h
  obtain ⟨upper', rfl, hu⟩ := Ty.same_wildUpper.mp hsame
  cases hs with
  | wildUpper hs =>
      cases ht with
      | wildUpper ht => exact ⟨upper', rfl, hs, ht, hu⟩

theorem alike_wildLower {upper lower t : Ty} (h : w.Alike (.wild [upper] [lower]) t) :
    ∃ upper' lower', t = .wild [upper'] [lower'] ∧ w.Alike upper upper' ∧
      w.Alike lower lower' := by
  obtain ⟨hs, ht, hsame⟩ := h
  obtain ⟨upper', lower', rfl, hu, hl⟩ := Ty.same_wildLower.mp hsame
  cases hs with
  | wildLower hsu hsl =>
      cases ht with
      | wildLower htu htl => exact ⟨upper', lower', rfl, ⟨hsu, htu, hu⟩, ⟨hsl, htl, hl⟩⟩

theorem alike_var {v : TyVar} {t : Ty} (h : w.Alike (.var v) t) :
    ∃ v', t = .var v' ∧
      List.Forall₂ w.Alike (env.bounds.declared v) (env.bounds.declared v') := by
  obtain ⟨hs, ht, hsame⟩ := h
  obtain ⟨v', rfl, heq⟩ := Ty.same_var.mp hsame
  cases hs with
  | var hv =>
      cases ht with
      | var hv' =>
          exact ⟨v', rfl, alike_list (w.bounds v hv) (w.bounds v' hv')
            (w.sameBounds v v' hv hv' heq)⟩

/-! ## Bounds and raw classes -/

theorem effective_writes {v : TyVar} (hv : w.isVar v) :
    ∀ t ∈ env.bounds.effective v, w.Writes t := by
  intro t ht
  unfold BoundTable.effective at ht
  split at ht
  · rw [List.mem_singleton.mp ht]
    exact writes_object
  · exact w.bounds v hv t ht

theorem effective_alike {v v' : TyVar}
    (h : List.Forall₂ w.Alike (env.bounds.declared v) (env.bounds.declared v')) :
    List.Forall₂ w.Alike (env.bounds.effective v) (env.bounds.effective v') := by
  unfold BoundTable.effective
  generalize env.bounds.declared v = ts, env.bounds.declared v' = us at h
  cases h with
  | nil => exact .cons (alike_refl writes_object) .nil
  | cons hhead htail => exact .cons hhead htail

theorem eraseWithin_writes (hops : Nat) {t : Ty} (ht : w.Writes t) :
    w.isClass (env.bounds.eraseWithin hops t) := by
  induction hops generalizing t with
  | zero => exact w.object
  | succ hops ih =>
      cases ht with
      | cls hc => exact hc
      | param _ hraw _ => exact hraw
      | array h => exact w.arrayOf _ (ih h)
      | wildUpper hupper => exact ih hupper
      | wildLower hupper _ => exact ih hupper
      | @var v hv =>
          simp only [BoundTable.eraseWithin]
          split
          · exact w.object
          · rename_i bound rest hbounds
            exact ih (w.bounds v hv bound (by simp [hbounds]))

theorem erase_writes {t : Ty} (ht : w.Writes t) : w.isClass (env.erase t) :=
  eraseWithin_writes _ ht

theorem eraseWithin_alike (hops : Nat) {s t : Ty} (h : w.Alike s t) :
    env.bounds.eraseWithin hops s = env.bounds.eraseWithin hops t := by
  induction hops generalizing s t with
  | zero => rfl
  | succ hops ih =>
      cases h.1 with
      | cls _ => rw [alike_cls h]
      | param _ _ _ =>
          obtain ⟨owner', args', rfl, -⟩ := alike_param h
          rfl
      | array _ =>
          obtain ⟨component', rfl, hcomponent⟩ := alike_array h
          simp only [BoundTable.eraseWithin, ih hcomponent]
      | wildUpper _ =>
          obtain ⟨upper', rfl, hupper⟩ := alike_wildUpper h
          exact ih hupper
      | wildLower _ _ =>
          obtain ⟨upper', lower', rfl, hupper, -⟩ := alike_wildLower h
          exact ih hupper
      | @var v _ =>
          obtain ⟨v', rfl, hbounds⟩ := alike_var h
          simp only [BoundTable.eraseWithin]
          generalize env.bounds.declared v = ts, env.bounds.declared v' = us at hbounds
          cases hbounds with
          | nil => rfl
          | cons hhead _ => exact ih hhead

/-- Equal types of a vocabulary have the same raw class. -/
theorem erase_alike {s t : Ty} (h : w.Alike s t) : env.erase s = env.erase t :=
  eraseWithin_alike _ h

/-! ## Generic forms -/

theorem formWithin_writes {outerForm : ClassRef → Ty}
    (houter : ∀ c, w.isClass c → w.Writes (outerForm c)) {c : ClassRef}
    (hc : w.isClass c) : w.Writes (env.classes.formWithin outerForm c) := by
  induction c with
  | array name component ih =>
      have hform := ih (w.component _ hc _ rfl)
      simp only [Registry.formWithin]
      split
      · exact .cls hc
      · exact .array hform
  | named name kind =>
      have hargs : ∀ t ∈ (env.classes.parameters (.named name kind)).map Ty.var,
          w.Writes t := by
        intro t ht
        obtain ⟨v, hv, rfl⟩ := List.mem_map.mp ht
        exact .var (w.parameters _ hc v hv)
      have howner : ∀ t ∈ (env.classes.enclosing? (.named name kind)).map (fun outer =>
          if env.classes.isStatic (.named name kind) then .cls outer else outerForm outer),
          w.Writes t := by
        intro t ht
        obtain ⟨outer, hmem, rfl⟩ := Option.map_eq_some_iff.mp ht
        split
        · exact .cls (w.enclosing _ hc outer hmem)
        · exact houter outer (w.enclosing _ hc outer hmem)
      rw [Registry.formWithin]
      generalize (env.classes.enclosing? (.named name kind)).map _ = owner at howner
      split
      · exact .cls hc
      · exact .param howner hc hargs

theorem genericForm_writes {c : ClassRef} (hc : w.isClass c) :
    w.Writes (env.classes.genericForm c) := by
  unfold Registry.genericForm
  induction env.classes.size + 1 generalizing c with
  | zero => exact .cls hc
  | succ hops ih => exact formWithin_writes (fun _ => ih) hc

/-! ## Walks -/

theorem carriedPairs_writes {t : Ty} (ht : w.Writes t) :
    ∀ pair ∈ env.carriedPairs t, w.Writes pair.2 := by
  refine Env.carriedPairs_forall (fun owner raw args h => ?_) ht
  cases h with
  | param howner _ hargs => exact ⟨howner, hargs⟩

theorem carried_writes {t : Ty} (ht : w.Writes t) {v : TyVar} (hv : w.isVar v) :
    w.Writes ((Ty.var v).subst (env.carried t)) :=
  Env.carried_forall (carriedPairs_writes ht) (.var hv)

theorem instantiated_writes {t edge : Ty} (ht : w.Writes t) (hedge : w.Writes edge) :
    w.Writes (env.instantiated t edge) := by
  unfold Env.instantiated
  split
  · exact .cls (erase_writes hedge)
  · exact Ty.written_subst w.arrayOf hedge fun v hv _ => carried_writes ht hv

theorem instantiated_alike {s t edge : Ty} (h : w.Alike s t) (hedge : w.Writes edge) :
    w.Alike (env.instantiated s edge) (env.instantiated t edge) := by
  refine ⟨instantiated_writes h.1 hedge, instantiated_writes h.2.1 hedge, ?_⟩
  unfold Env.instantiated
  rw [Env.isRawUse_same h.2.2]
  split
  · exact Ty.same_refl _
  · apply Ty.same_subst hedge.writable
    · intro v _
      rw [Ty.subst_var, Env.get?_carried]
      cases hget : Substitution.get? ⟨env.carriedPairs s⟩ v with
      | none => exact .var trivial
      | some u =>
          obtain ⟨v', hmem, -⟩ := Substitution.mem_of_get? hget
          exact (carriedPairs_writes h.1 _ hmem).writable
    · intro v _
      exact Env.carried_same h.2.2 v

/-- Equal types of a vocabulary are looked at alike. -/
theorem viewStep_alike (target : ClassRef) {s t : Ty} (h : w.Alike s t) :
    (env.viewStep target s).Related w.Alike w.Alike (env.viewStep target t) := by
  have herase := erase_alike h
  apply Env.viewStep_related
  apply Env.instantiatedEdges_related (by rw [herase])
  intro edge hedge
  exact instantiated_alike h (w.edges _ (erase_writes h.1) edge hedge)

theorem viewStep_faithful (target : ClassRef) :
    Faithful (env.viewStep target) w.Writes where
  nodes := by
    intro t ht u hu
    obtain ⟨edge, hedge, rfl, -⟩ := Env.viewStep_nodes hu
    exact instantiated_writes ht (w.edges _ (erase_writes ht) edge hedge)
  equal := by
    intro t s ht hs hsame n hnone
    have hlevel := firstAt_related (fun a b => viewStep_alike target) n
      (show w.Alike t s from ⟨ht, hs, hsame⟩)
    rw [hnone] at hlevel
    generalize firstAt (env.viewStep target) n t = o at hlevel
    cases hlevel
    rfl

theorem viewStart_writes {t : Ty} (ht : w.Writes t) :
    ∀ start ∈ env.viewStart t, w.Writes start := by
  intro start hstart
  cases ht with
  | @cls c hc =>
      obtain rfl : (if c.isArray then .cls c else env.classes.genericForm c) = start :=
        Option.some.inj hstart
      split
      · exact .cls hc
      · exact genericForm_writes hc
  | param howner hraw hargs =>
      obtain rfl := Option.some.inj hstart
      exact .param howner hraw hargs
  | array h =>
      obtain rfl := Option.some.inj hstart
      exact .cls (erase_writes (.array h))
  | wildUpper _ => cases hstart
  | wildLower _ _ => cases hstart
  | var _ => cases hstart

theorem viewStart_alike {s t start : Ty} (h : w.Alike s t)
    (hstart : env.viewStart s = some start) :
    ∃ start', env.viewStart t = some start' ∧ w.Alike start start' := by
  have hwrites := viewStart_writes h.1 start hstart
  cases h.1 with
  | cls hc =>
      rw [alike_cls h]
      exact ⟨start, hstart, alike_refl hwrites⟩
  | param _ _ _ =>
      obtain ⟨_, _, rfl, -⟩ := alike_param h
      obtain rfl := Option.some.inj hstart
      exact ⟨_, rfl, h⟩
  | array hcomponent =>
      have herase := erase_alike h
      obtain ⟨_, rfl, -⟩ := alike_array h
      obtain rfl := Option.some.inj hstart
      refine ⟨_, rfl, ?_⟩
      rw [← herase]
      exact alike_refl hwrites
  | wildUpper _ => cases hstart
  | wildLower _ _ => cases hstart
  | var _ => cases hstart

theorem viewStep_writes {target : ClassRef} {t u : Ty} (ht : w.Writes t)
    (h : env.viewStep target t = .goal u) : w.Writes u := by
  obtain ⟨edge, hedge, rfl, -⟩ := Env.viewStep_goal h
  exact instantiated_writes ht (w.edges _ (erase_writes ht) edge hedge)

theorem firstAt_writes {target : ClassRef} (n : Nat) {t u : Ty} (ht : w.Writes t)
    (h : firstAt (env.viewStep target) n t = some u) : w.Writes u := by
  induction n generalizing t with
  | zero =>
      simp only [firstAt] at h
      cases hstep : env.viewStep target t with
      | goal b =>
          rw [hstep] at h
          cases h
          exact viewStep_writes ht hstep
      | next more =>
          rw [hstep] at h
          cases h
  | succ n ih =>
      obtain ⟨t', hmem, hfirst⟩ := List.exists_of_findSome?_eq_some h
      exact ih ((viewStep_faithful target).nodes ht t' hmem) hfirst

theorem view_writes {target : ClassRef} {t view : Ty} (ht : w.Writes t)
    (h : env.View t target view) : w.Writes view := by
  cases h with
  | object _ => exact writes_object
  | start _ hstart _ => exact viewStart_writes ht _ hstart
  | walk _ hstart _ hnearest =>
      obtain ⟨n, hfirst, -⟩ := hnearest
      exact firstAt_writes n (viewStart_writes ht _ hstart) hfirst

theorem isPrimitive_alike {s t : Ty} (h : w.Alike s t) : s.isPrimitive = t.isPrimitive := by
  cases s with
  | cls c => rw [alike_cls h]
  | _ =>
      have hsame := h.2.2
      cases t <;> simp_all [Ty.Same, BEq.beq, Ty.beq, Ty.isPrimitive]

/-- Equal types have equal views. -/
theorem view_alike {target : ClassRef} {s t view : Ty} (h : w.Alike s t)
    (hview : env.View s target view) : ∃ view', env.View t target view' ∧ w.Alike view view' := by
  have hprimitive := isPrimitive_alike h
  cases hview with
  | object hobject =>
      refine ⟨.object, .object (by rw [← hprimitive]; exact hobject), ?_⟩
      exact alike_refl writes_object
  | start hobject hstart hsame =>
      obtain ⟨start', hstart', halike⟩ := viewStart_alike h hstart
      refine ⟨start', .start (by rw [← hprimitive]; exact hobject) hstart' ?_, halike⟩
      rw [← erase_alike halike]
      exact hsame
  | walk hobject hstart hne hnearest =>
      obtain ⟨start', hstart', halike⟩ := viewStart_alike h hstart
      obtain ⟨view', hnearest', hview'⟩ :=
        nearest_related (fun _ _ => viewStep_alike target) halike hnearest
      refine ⟨view', .walk (by rw [← hprimitive]; exact hobject) hstart' ?_ hnearest', hview'⟩
      rw [← erase_alike halike]
      exact hne

end Vocabulary

end Generics
