import Generics.Proofs.Navigation
import Generics.Proofs.RoundTrip

/-!
The types that navigation meets. On its way up it goes from an open type to a
bound, from an array to its component, and from the start of a walk along the
declared edges with the arguments put in. What all these steps preserve holds
of every supertype that is found. One such property is to spell out no
variable: it is preserved as long as every type met is a raw use or has a type
for each variable in scope.
-/

namespace Generics

/-- A type that is written without variables. -/
abbrev Ty.Closed (t : Ty) : Prop := t.Written (fun _ => True) (fun _ => False)

namespace Env

variable {env : Env} {s t u : Ty} {c target : ClassRef} {σ : Substitution}

/-- The types met on the way up from a type: where a walk may start, and what is
a declared edge away from a type that is met. -/
inductive OnWayUp (env : Env) : Ty → Ty → Prop where
  | start {t r} (h : env.viewStart t = some r) : OnWayUp env t r
  | edge {t s e} (h : OnWayUp env t s) (he : e ∈ env.classes.directSupertypes (env.erase s)) :
      OnWayUp env t (env.instantiated s e)
  | bound {t bounds b s} (hopen : env.upperBounds? t = some bounds) (hb : b ∈ bounds)
      (h : OnWayUp env b s) : OnWayUp env t s
  | component {t component s} (hc : t.component? = some component)
      (h : OnWayUp env component s) : OnWayUp env t s

/-- On the way up from a closed type that is no array there is one walk. -/
theorem OnWayUp.preserves {Q : Ty → Prop} (h : env.OnWayUp t s) (hopen : env.upperBounds? t = none)
    (hcomponent : t.component? = none) (hstart : ∀ r, env.viewStart t = some r → Q r)
    (hedge : ∀ s, Q s → ∀ e ∈ env.classes.directSupertypes (env.erase s),
      Q (env.instantiated s e)) : Q s := by
  induction h with
  | start hr => exact hstart _ hr
  | edge _ he ih => exact hedge _ (ih hopen hcomponent hstart) _ he
  | bound hbounds _ _ _ => cases hopen.symm.trans hbounds
  | component hc _ _ => cases hcomponent.symm.trans hc

/-- What holds of the start of a walk and is preserved by its steps holds of the view. -/
theorem viewAs_preserves {Q : Ty → Prop} (hstart : ∀ r, env.viewStart t = some r → Q r)
    (hedge : ∀ s, Q s → ∀ e ∈ env.classes.directSupertypes (env.erase s),
      Q (env.instantiated s e))
    (h : env.viewAs t target = .found u) : u = .object ∨ Q u := by
  unfold viewAs at h
  split at h
  · cases h
    exact Or.inl rfl
  · right
    split at h
    · cases h
    · rename_i start hs
      split at h
      · cases h
        exact hstart _ hs
      · have hnodes : ∀ s, Q s → ∀ s' ∈ (env.viewStep target s).nodes, Q s' := by
          intro s hQ s' hs'
          obtain ⟨e, he, rfl, -⟩ := viewStep_nodes hs'
          exact hedge s hQ e he
        obtain ⟨s, hQ, hgoal⟩ := goal_of_search hnodes (hstart _ hs) h
        obtain ⟨e, he, rfl, -⟩ := viewStep_goal hgoal
        exact hedge s hQ e he

/-- Navigation by its steps: `P` holds of the types at which it looks before a
walk, `Q` of the types in the walk, and `R` of what is found. -/
theorem supertype_preserves {P Q R : Ty → Prop}
    (hbound : ∀ s bounds, P s → env.upperBounds? s = some bounds → ∀ b ∈ bounds, P b)
    (hcomponent : ∀ s component, P s → s.component? = some component → P component)
    (hstart : ∀ s r, P s → env.viewStart s = some r → Q r)
    (hedge : ∀ s, Q s → ∀ e ∈ env.classes.directSupertypes (env.erase s),
      Q (env.instantiated s e))
    (hfound : ∀ s, Q s → R s) (hobject : R .object) (harray : ∀ s, R s → R s.arrayOf)
    (ht : P t) (h : env.supertype t target = .ok u) : R u := by
  have hwithin : ∀ steps s target u, P s → env.supertypeWithin steps s target = .ok u → R u := by
    intro steps
    induction steps with
    | zero =>
        intro s target u _ h
        cases h
    | succ steps ih =>
        intro s target u hs h
        obtain ⟨-, ⟨bounds, b, hopen, hb, hrec⟩ | ⟨component, _, u', hc, -, hrec, rfl⟩ |
          ⟨-, -, hview⟩⟩ := supertypeWithin_cases h
        · exact ih b target u (hbound s bounds hs hopen b hb) hrec
        · exact harray u' (ih component _ u' (hcomponent s component hs hc) hrec)
        · rcases viewAs_preserves (hstart s · hs) hedge hview with rfl | hu
          · exact hobject
          · exact hfound u hu
  exact hwithin _ t target u ht h

/-! ## Variables -/

/-- Edges are written with the variables in scope where they are declared. -/
def EdgesInScope (env : Env) : Prop :=
  ∀ c, c.isArray = false → ∀ e ∈ env.classes.directSupertypes c,
    e.Written (fun _ => True) (env.InScope c)

/-- A class that is its own generic form has such a component, if it is an array. -/
theorem genericForm_component {name : String} {component : ClassRef}
    (h : env.classes.genericForm (.array name component) = .cls (.array name component)) :
    env.classes.genericForm component = .cls component := by
  rcases Registry.formWithin_array env.classes (env.classes.formSteps env.classes.size) name
    component with ⟨hcomponent, -⟩ | ⟨-, hform⟩
  · exact hcomponent
  · cases hform.symm.trans h

/-- A step from a raw use, or from a type that supplies all variables in scope,
leads to a closed type. -/
theorem closed_instantiated (hscope : env.EdgesInScope) (hs : s.Closed)
    (huse : env.isRawUse s = true ∨ env.Supplies s) {e : Ty}
    (he : e ∈ env.classes.directSupertypes (env.erase s)) : (env.instantiated s e).Closed := by
  cases harray : (env.erase s).isArray with
  | true =>
      obtain ⟨d, -, rfl⟩ := Subtyping.array_edge harray he
      rw [Subtyping.instantiated_cls]
      exact .cls trivial
  | false =>
      unfold instantiated
      split
      · exact .cls trivial
      · rename_i hraw
        have hsupplies := huse.resolve_left hraw
        refine Ty.written_subst (fun _ _ => trivial) (hscope _ harray e he) fun v hv _ => ?_
        obtain ⟨u, hu⟩ := Option.isSome_iff_exists.mp (hsupplies v hv)
        have hcarried : ∀ pair ∈ env.carriedPairs s, pair.2.Closed := by
          refine carriedPairs_forall (fun owner raw args h => ?_) hs
          cases h with
          | param howner _ hargs => exact ⟨howner, hargs⟩
        rw [Ty.subst_var, hu]
        rw [get?_carried] at hu
        obtain ⟨_, hmem, -⟩ := Substitution.mem_of_get? hu
        exact hcarried _ hmem

/-- No variable leaks out of a closed type, where each type met on the way up
is a raw use or has a type for every variable in scope. -/
theorem supertype_closed (hscope : env.EdgesInScope)
    (ht : (∃ c, t = .cls c ∧ env.classes.genericForm c = .cls c) ∨ t.isParameterized = true)
    (hclosed : t.Closed) (hway : ∀ s, env.OnWayUp t s → env.isRawUse s = true ∨ env.Supplies s)
    (hu : env.supertype t target = .ok u) : u.Closed := by
  -- before the walk there are only the type itself and its components
  let Before (s : Ty) : Prop := s.Closed ∧ (∀ r, env.OnWayUp s r → env.OnWayUp t r) ∧
    ((∃ c, s = .cls c ∧ env.classes.genericForm c = .cls c) ∨ s.isParameterized = true)
  refine supertype_preserves (P := Before) (Q := fun s => s.Closed ∧ env.OnWayUp t s)
    (R := Ty.Closed) ?_ ?_ ?_ ?_ (fun _ h => h.1) (.cls trivial)
    (fun _ h => Ty.written_arrayOf (fun _ _ => trivial) h) ⟨hclosed, fun _ h => h, ht⟩ hu
  · rintro s bounds ⟨-, -, ⟨c, rfl, -⟩ | hparam⟩ hopen
    · cases hopen
    · cases s with
      | param _ _ _ => cases hopen
      | _ => cases hparam
  · rintro s component ⟨-, hpart, ⟨c, rfl, hform⟩ | hparam⟩ hcomponent
    · cases c with
      | named _ _ => cases hcomponent
      | array name component' =>
          cases hcomponent
          exact ⟨.cls trivial, fun r hr => hpart r (.component rfl hr),
            Or.inl ⟨component', rfl, genericForm_component hform⟩⟩
    · cases s with
      | param _ _ _ => cases hcomponent
      | _ => cases hparam
  · rintro s r ⟨hs, hpart, hkind⟩ hstart
    refine ⟨?_, hpart r (.start hstart)⟩
    rcases hkind with ⟨c, rfl, hform⟩ | hparam
    · rw [viewStart, hform, ite_self] at hstart
      cases hstart
      exact hs
    · cases s with
      | param _ _ _ =>
          cases hstart
          exact hs
      | _ => cases hparam
  · rintro s ⟨hs, hmet⟩ e he
    exact ⟨closed_instantiated hscope hs (hway s hmet) he, hmet.edge he⟩

/-- A check of what edges mention, whatever kind the handle of the class carries. -/
theorem edgesInScope_of_check (h : ∀ entry ∈ env.classes.decls.toList,
    ∀ e ∈ entry.2.supertypes, ∀ kind ∈ [ClassKind.ordinary, .interface, .primitive],
      e.isWritten (fun _ => true) (env.isInScope (.named entry.1 kind)) = true) :
    env.EdgesInScope := by
  intro c hc e he
  obtain ⟨name, kind, rfl⟩ := ClassRef.exists_named hc
  rw [Registry.directSupertypes_named] at he
  cases hd : env.classes.decls[name]? with
  | none => simp [hd] at he
  | some d =>
      have hmem := Std.TreeMap.mem_toList_iff_getElem?_eq_some.mpr hd
      have hkind : kind ∈ [ClassKind.ordinary, .interface, .primitive] := by cases kind <;> simp
      have hwritten := Ty.written_of_isWritten (h (name, d) hmem e (by simpa [hd] using he) kind hkind)
      exact hwritten.mono (fun _ _ => trivial) fun _ h => h

/-! ## A raw use further up -/

def legacyClass : ClassRef := .named "Legacy" .ordinary

/-- A class that extends a list class without its arguments. -/
def legacyEnv : Env :=
  ⟨listEnv.classes.register ((ClassDecl.of legacyClass).extending (.cls arrayListClass)), .empty⟩

theorem legacy_onWayUp (h : legacyEnv.OnWayUp (.cls legacyClass) s) :
    s ∈ [.cls legacyClass, .cls arrayListClass, .cls listClass, Ty.object] := by
  refine h.preserves rfl rfl ?_ fun s hs e he => ?_
  · rintro r ⟨⟩
    exact List.mem_cons_self
  · simp only [List.mem_cons, List.not_mem_nil, or_false] at hs
    rcases hs with rfl | rfl | rfl | rfl
    · obtain rfl := List.mem_singleton.mp (show e ∈ [Ty.cls arrayListClass] from he)
      exact List.mem_cons_of_mem _ List.mem_cons_self
    · have hedges : e ∈ [Ty.object, .param none listClass [.var arrayListVar]] := he
      rcases List.mem_cons.mp hedges with rfl | hrest
      · exact show Ty.object ∈ _ by simp
      · obtain rfl := List.mem_singleton.mp hrest
        exact show Ty.cls listClass ∈ _ by simp
    · exact absurd (show e ∈ [] from he) List.not_mem_nil
    · exact absurd (show e ∈ [] from he) List.not_mem_nil

/-- A class that extends a raw list class is seen as the raw list. -/
theorem supertype_closed_legacy :
    legacyEnv.supertype (.cls legacyClass) listClass = .ok (.cls listClass) ∧
      (Ty.cls listClass).Closed := by
  have hfound : legacyEnv.supertype (.cls legacyClass) listClass = .ok (.cls listClass) := rfl
  refine ⟨hfound, supertype_closed (edgesInScope_of_check (by decide))
    (Or.inl ⟨legacyClass, rfl, rfl⟩) (.cls trivial) (fun s hs => ?_) hfound⟩
  have hs := legacy_onWayUp hs
  simp only [List.mem_cons, List.not_mem_nil, or_false] at hs
  rcases hs with rfl | rfl | rfl | rfl
  · exact Or.inr (supplies_of_check (by decide))
  · exact Or.inl rfl
  · exact Or.inl rfl
  · exact Or.inr (supplies_of_check (by decide))

/-- A class that extends an inner class of a generic class, without an owner. -/
def leakEnv : Env :=
  ⟨[((ClassDecl.of fooClass).withParameters [fooVar]),
    ((ClassDecl.of outerClass).withParameters [outerVar]),
    (((ClassDecl.of innerClass).nestedIn outerClass).implementing
      (.param none fooClass [.var outerVar])),
    ((ClassDecl.of (.named "D" .ordinary)).extending (.cls innerClass))].foldl
      Registry.register .core, .empty⟩

/-- Above an inner class without its owner the owner's parameter leaks. -/
theorem supertype_closed_lost : ¬∀ (env : Env) (t u : Ty) (target : ClassRef),
    env.EdgesInScope →
    ((∃ c, t = .cls c ∧ env.classes.genericForm c = .cls c) ∨
      ∃ c, t.isParameterized = true ∧ env.classes.IsInstance c t) →
    t.Closed → env.supertype t target = .ok u → u.Closed := by
  intro hclaim
  have hleak := hclaim leakEnv (.cls (.named "D" .ordinary))
    (.param none fooClass [.var outerVar]) fooClass (edgesInScope_of_check (by decide))
    (Or.inl ⟨_, rfl, rfl⟩) (.cls trivial) rfl
  cases hleak with
  | param _ _ hargs =>
      cases hargs _ List.mem_cons_self with
      | var hv => exact hv

end Env

end Generics
