import Generics.Formation
import Generics.Proofs.Climb
import Generics.Proofs.Resolvers

/-!
The frame of a type: its class, the classes of its owners, and which of them have
arguments. The factory gives a class an owner exactly where it is nested, and a
generic form has them in the same places. So a match with a type, which passes
over what has no counterpart, compares the frames, and the walk to an ancestor
keeps them apart from the arguments that are put in.
-/

namespace Generics

namespace Ty

/-! ## The classes of a type and of its owners -/

/-- The names of the raw class and of the classes of the owners, each with whether there are
arguments. -/
def frame : Ty → List (String × Bool)
  | cls c => [(c.name, false)]
  | param (some owner) raw _ => (raw.name, true) :: owner.frame
  | param none raw _ => [(raw.name, true)]
  | _ => []
termination_by structural t => t

variable {s t : Ty}

theorem frame_param (owner : Option Ty) (raw : ClassRef) (args : List Ty) :
    (param owner raw args).frame = (raw.name, true) :: owner.elim [] frame := by
  cases owner <;> rfl

/-- A type with the frame of a class is a class of that name. -/
theorem exists_cls_of_frame {c : ClassRef} (h : t.frame = (cls c).frame) :
    ∃ d, t = cls d ∧ d.name = c.name := by
  rw [frame] at h
  cases t with
  | cls d =>
      rw [frame, List.singleton_inj] at h
      exact ⟨d, rfl, (Prod.mk.inj h).1⟩
  | param owner raw args =>
      rw [frame_param] at h
      cases (Prod.mk.inj (List.cons.inj h).1).2
  | _ => cases h

/-- A type with the frame of a parameterized type is one of that class. -/
theorem exists_param_of_frame {owner : Option Ty} {raw : ClassRef} {args : List Ty}
    (h : t.frame = (param owner raw args).frame) :
    ∃ owner' raw' args', t = param owner' raw' args' ∧ raw'.name = raw.name ∧
      owner'.elim [] frame = owner.elim [] frame := by
  rw [frame_param] at h
  cases t with
  | cls _ =>
      rw [frame] at h
      cases (Prod.mk.inj (List.cons.inj h).1).2
  | param owner' raw' args' =>
      rw [frame_param] at h
      obtain ⟨hhead, htail⟩ := List.cons.inj h
      exact ⟨owner', raw', args', rfl, (Prod.mk.inj hhead).1, htail⟩
  | _ => cases h

theorem frame_of_same (h : Same s t) : s.frame = t.frame := by
  induction s using parts generalizing t with
  | cls c =>
      obtain ⟨d, rfl, hname⟩ := same_cls.mp h
      rw [frame, frame, hname]
  | param owner raw args ihowner _ =>
      obtain ⟨owner', raw', args', rfl, hname, howners, -⟩ := same_param.mp h
      rw [frame_param, frame_param, hname]
      cases howners with
      | none => rfl
      | some hsame => exact congrArg _ (ihowner _ rfl hsame)
  | array _ _ =>
      obtain ⟨_, rfl, -⟩ := same_array.mp h
      rfl
  | wild _ _ _ _ =>
      obtain ⟨_, _, rfl, -⟩ := same_wild.mp h
      rfl
  | var _ =>
      obtain ⟨_, rfl, -⟩ := same_var.mp h
      rfl

end Ty

namespace Env

open Ty (Same)

/-! ## Types that are built -/

/-- The types that are built from classes and variables, each step with its checks. -/
inductive Made (env : Env) : Ty → Prop where
  | cls (c : ClassRef) : Made env (.cls c)
  | var (v : TyVar) : Made env (.var v)
  | parameterized {raw args t} (hargs : ∀ a ∈ args, Made env a)
      (h : env.parameterized raw args = .ok t) : Made env t
  | parameterizedIn {owner raw args t} (howner : Made env owner) (hargs : ∀ a ∈ args, Made env a)
      (h : env.parameterizedIn owner raw args = .ok t) : Made env t
  | arrayOf {t} (h : Made env t) : Made env t.arrayOf
  | subtypeOf {bound t} (hbound : Made env bound) (h : bound.subtypeOf = .ok t) : Made env t
  | supertypeOf {bound t} (hbound : Made env bound) (h : bound.supertypeOf = .ok t) : Made env t
  | unbounded : Made env .unbounded

/-- A class or a parameterized type whose classes have an owner exactly where they are nested.
In the form of a class that is nested in an array class, an owner may be an array. -/
inductive Housed (env : Env) (arrays : Prop) : Ty → Prop where
  | cls (c : ClassRef) : Housed env arrays (.cls c)
  | param {owner raw args} (hplace : owner.isSome = (env.classes.enclosing? raw).isSome)
      (howner : ∀ o ∈ owner, Housed env arrays o) : Housed env arrays (.param owner raw args)
  | array {component} (harrays : arrays) (hclass : component.class? = none)
      (h : Housed env arrays component) : Housed env arrays (.array component)

variable {env : Env} {s t u : Ty} {c d target : ClassRef} {σ θ θ' : Substitution} {arrays : Prop}

/-- All declared edges are built so, and lead to classes that are no arrays. -/
def MadeEdges (env : Env) : Prop :=
  ∀ entry ∈ env.classes.decls.toList, ∀ e ∈ entry.2.supertypes, HasRaw e ∧ env.Made e

theorem MadeEdges.edge (h : env.MadeEdges) :
    ∀ c, ∀ e ∈ env.classes.directSupertypes c, HasRaw e ∧ env.Made e := by
  intro c e he
  cases hc : c.isArray with
  | false => exact Registry.forall_edges h hc e he
  | true =>
      obtain ⟨d, hd, rfl⟩ := Subtyping.array_edge hc he
      exact ⟨⟨d, rfl, (ClassRef.isPlain_iff.mp (arrayTop_isPlain hd)).1⟩, .cls d⟩

theorem Housed.mono (h : env.Housed False t) : env.Housed arrays t := by
  induction h with
  | cls c => exact .cls c
  | param hplace _ ih => exact .param hplace ih
  | array harrays _ _ _ => exact harrays.elim

theorem applied_cases {owner : Option Ty} {raw : ClassRef} {args : List Ty}
    (h : env.applied owner raw args = .ok t) :
    raw.isArray = false ∧ (t = .cls raw ∨ t = .param owner raw args) := by
  unfold applied at h
  dsimp only at h
  split at h
  · cases h
  · rename_i hgeneric
    rw [Bool.or_eq_true, not_or, Bool.not_eq_true, Bool.not_eq_true] at hgeneric
    refine ⟨hgeneric.2, ?_⟩
    split at h
    · cases h
    · split at h
      · cases h
      · split at h
        · cases h
          exact Or.inl rfl
        · cases h
          exact Or.inr rfl

theorem applied_of_parameterized {raw : ClassRef} {args : List Ty}
    (h : env.parameterized raw args = .ok t) :
    ∃ owner, env.applied owner raw args = .ok t ∧
      owner.isSome = (env.classes.enclosing? raw).isSome ∧ ∀ o ∈ owner, ∃ c, o = .cls c := by
  unfold parameterized at h
  split at h
  · rename_i hnone
    exact ⟨none, h, by rw [hnone]; rfl, nofun⟩
  · rename_i outer hsome
    split at h
    · cases h
    · refine ⟨some (.cls outer), h, by rw [hsome]; rfl, ?_⟩
      rintro o ⟨⟩
      exact ⟨outer, rfl⟩

theorem applied_of_parameterizedIn {owner : Ty} {raw : ClassRef} {args : List Ty}
    (h : env.parameterizedIn owner raw args = .ok t) :
    env.applied (some owner) raw args = .ok t ∧ (env.classes.enclosing? raw).isSome = true ∧
      owner.raw?.isSome = true := by
  unfold parameterizedIn at h
  split at h
  · cases h
  · rename_i outer hsome
    split at h
    · cases h
    · rename_i hform
      split at h
      · cases h
      · refine ⟨h, by rw [hsome]; rfl, ?_⟩
        cases owner with
        | cls _ => rfl
        | param _ _ _ => rfl
        | _ => exact absurd rfl hform

theorem raw?_of_subtypeOf (h : t.subtypeOf = .ok u) : u.raw? = none := by
  unfold Ty.subtypeOf at h
  split at h
  · cases h
  · cases h
    rfl

theorem raw?_of_supertypeOf (h : t.supertypeOf = .ok u) : u.raw? = none := by
  unfold Ty.supertypeOf at h
  split at h
  · cases h
  · cases h
    rfl

/-- What is built as a class or a parameterized type is housed. -/
theorem Made.housed (h : env.Made t) (hraw : t.raw?.isSome = true) : env.Housed False t := by
  induction h with
  | cls c => exact .cls c
  | var _ => cases hraw
  | parameterized _ h _ =>
      obtain ⟨owner, happlied, hplace, howner⟩ := applied_of_parameterized h
      rcases (applied_cases happlied).2 with rfl | rfl
      · exact .cls _
      · refine .param hplace fun o ho => ?_
        obtain ⟨c, rfl⟩ := howner o ho
        exact .cls c
  | parameterizedIn _ _ h ihowner _ =>
      obtain ⟨happlied, hplace, howner⟩ := applied_of_parameterizedIn h
      rcases (applied_cases happlied).2 with rfl | rfl
      · exact .cls _
      · refine .param hplace.symm ?_
        rintro o ⟨⟩
        exact ihowner howner
  | @arrayOf t _ _ =>
      cases t with
      | cls c => exact .cls _
      | _ => cases hraw
  | subtypeOf _ h _ =>
      rw [raw?_of_subtypeOf h] at hraw
      cases hraw
  | supertypeOf _ h _ =>
      rw [raw?_of_supertypeOf h] at hraw
      cases hraw
  | unbounded => cases hraw

/-- The raw class of a built parameterized type is no array. -/
theorem Made.isArray {owner : Option Ty} {raw : ClassRef} {args : List Ty}
    (h : env.Made (.param owner raw args)) : raw.isArray = false := by
  generalize ht : Ty.param owner raw args = t at h
  cases h with
  | parameterized _ h =>
      obtain ⟨_, happlied, -⟩ := applied_of_parameterized h
      obtain ⟨harray, rfl | rfl⟩ := applied_cases happlied
      · cases ht
      · cases ht
        exact harray
  | parameterizedIn _ _ h =>
      obtain ⟨harray, rfl | rfl⟩ := applied_cases (applied_of_parameterizedIn h).1
      · cases ht
      · cases ht
        exact harray
  | @arrayOf t _ => cases t <;> cases ht
  | subtypeOf _ h =>
      rw [← ht] at h
      cases raw?_of_subtypeOf h
  | supertypeOf _ h =>
      rw [← ht] at h
      cases raw?_of_supertypeOf h
  | _ => cases ht

theorem housed_formWithin {outerForm : ClassRef → Ty} (houter : ∀ c, env.Housed True (outerForm c))
    (c : ClassRef) : env.Housed True (env.classes.formWithin outerForm c) := by
  induction c with
  | named name kind =>
      rw [Registry.formWithin_of_plain env.classes outerForm rfl]
      split
      · exact .cls _
      · refine .param ?_ ?_
        · rw [Registry.ownerForm, Option.isSome_map]
        · intro o ho
          obtain ⟨outer, -, rfl⟩ := Option.map_eq_some_iff.mp ho
          split
          · exact .cls outer
          · exact houter outer
  | array name component ih =>
      rcases Registry.formWithin_array env.classes outerForm name component with
        ⟨-, h⟩ | ⟨hne, h⟩
      · rw [h]
        exact .cls _
      · rw [h]
        refine .array trivial ?_ ih
        cases hform : env.classes.formWithin outerForm component with
        | cls d =>
            obtain rfl := Registry.formWithin_cls hform
            exact absurd hform hne
        | _ => rfl

theorem housed_genericForm (c : ClassRef) : env.Housed True (env.classes.genericForm c) := by
  unfold Registry.genericForm
  induction env.classes.size + 1 generalizing c with
  | zero => exact .cls c
  | succ hops ih => exact housed_formWithin ih c

/-! ## Frames are kept -/

/-- An array of something that is no class stays one. -/
theorem Housed.arrayOf_subst (h : env.Housed arrays t) (hclass : t.class? = none) :
    (t.subst σ).arrayOf = .array (t.subst σ) ∧ (t.subst σ).class? = none := by
  induction h with
  | cls _ => cases hclass
  | param _ _ _ =>
      rw [Ty.subst_param]
      exact ⟨rfl, rfl⟩
  | array _ hcomponent _ ih =>
      rw [Ty.subst_array, (ih hcomponent).1]
      exact ⟨rfl, rfl⟩

theorem Housed.subst (h : env.Housed arrays t) : env.Housed arrays (t.subst σ) := by
  induction h with
  | cls c => exact .cls c
  | @param owner raw args hplace _ ih =>
      rw [Ty.subst_param]
      refine .param (by rw [Option.isSome_map]; exact hplace) ?_
      intro o ho
      obtain ⟨o', ho', rfl⟩ := Option.map_eq_some_iff.mp ho
      exact ih o' ho'
  | array harrays hclass h ih =>
      obtain ⟨harray, hclass⟩ := h.arrayOf_subst (σ := σ) hclass
      rw [Ty.subst_array, harray]
      exact .array harrays hclass ih

theorem Housed.frame_subst (h : env.Housed arrays t) : (t.subst σ).frame = t.frame := by
  induction h with
  | cls _ => rfl
  | @param owner raw args _ _ ih =>
      rw [Ty.subst_param]
      cases owner with
      | none => rfl
      | some o =>
          rw [Option.map_some, Ty.frame, Ty.frame, ih o rfl]
  | array _ hclass h _ =>
      rw [Ty.subst_array, (h.arrayOf_subst hclass).1]
      rfl

theorem enclosing?_of_name (h : c.name = d.name) :
    env.classes.enclosing? c = env.classes.enclosing? d := by
  rw [Registry.enclosing?, Registry.enclosing?, Registry.decl?, Registry.decl?, h]

/-- A match with a class or a parameterized type compares the frames. -/
theorem frame_of_unify (hs : env.Housed True s) (ht : env.Housed False t)
    (h : Substitution.unify s t θ = .ok θ') : s.frame = t.frame := by
  induction hs generalizing t θ θ' with
  | cls c =>
      by_cases hsame : Same (.cls c) t
      · exact Ty.frame_of_same hsame
      · rw [Substitution.unify.eq_def, if_neg hsame] at h
        cases ht with
        | array harrays _ _ => exact harrays.elim
        | _ => cases h
  | @param owner raw args hplace howner ih =>
      by_cases hsame : Same (.param owner raw args) t
      · exact Ty.frame_of_same hsame
      · cases ht with
        | cls _ =>
            rw [Substitution.unify.eq_def, if_neg hsame] at h
            cases h
        | @param owner' raw' args' hplace' howner' =>
            obtain ⟨hname, -, θ₁, -, howners⟩ := Substitution.ok_of_unify_param hsame h
            rw [enclosing?_of_name hname, ← hplace'] at hplace
            cases owner with
            | none =>
                cases owner' with
                | none => rw [Ty.frame, Ty.frame, hname]
                | some _ => cases hplace
            | some o =>
                cases owner' with
                | none => cases hplace
                | some o' =>
                    rw [Ty.frame, Ty.frame, hname, ih o rfl (howner' o' rfl) howners]
        | array harrays _ _ => exact harrays.elim
  | @array component _ hclass _ ih =>
      cases ht with
      | cls c =>
          -- the component would be matched with a class in the end
          have hne : ¬Same (.array component) (.cls c) := by
            intro hsame
            obtain ⟨_, heq, -⟩ := Ty.same_array.mp hsame
            cases heq
          rw [Substitution.unify_array_of_not_same hne rfl] at h
          cases c with
          | named _ _ => cases h
          | array _ d =>
              have hframe := ih (.cls d) h
              obtain ⟨_, rfl, -⟩ := Ty.exists_cls_of_frame hframe
              cases hclass
      | @param owner raw args _ _ =>
          have hne : ¬Same (.array component) (.param owner raw args) := by
            intro hsame
            obtain ⟨_, heq, -⟩ := Ty.same_array.mp hsame
            cases heq
          rw [Substitution.unify_array_of_not_same hne rfl] at h
          cases h
      | array harrays _ _ => exact harrays.elim

/-! ## The frame of a view -/

section

variable (hraw : env.RawEdges)
  (hhoused : ∀ c, ∀ e ∈ env.classes.directSupertypes c, env.Housed False e)

include hhoused

/-- What is seen of a housed type is housed. -/
theorem housed_viewAs (hs : env.Housed True s) (hstart : env.viewStart s = some s)
    (h : env.viewAs s target = .found u) : env.Housed True u := by
  have hpreserved := viewAs_preserves (Q := env.Housed True) ?_ ?_ h
  · rcases hpreserved with rfl | hu
    · exact .cls _
    · exact hu
  · intro r hr
    obtain rfl := Option.some.inj (hstart.symm.trans hr)
    exact hs
  · intro r _ e he
    unfold instantiated
    split
    · exact .cls _
    · exact (hhoused _ e he).mono.subst

include hraw

/-- Types of one class that have arguments, and whose owners have arguments, in the same places. -/
theorem viewStep_frame (h : OfOneRaw s t ∧ s.frame = t.frame) :
    (env.viewStep target s).Related (fun s t => OfOneRaw s t ∧ s.frame = t.frame)
      (fun s t => s.frame = t.frame) (env.viewStep target t) := by
  obtain ⟨⟨c, d, hs, ht, hc, hd, hname⟩, hframe⟩ := h
  have hrawUse : env.isRawUse s = env.isRawUse t := by
    cases s with
    | cls _ =>
        cases t with
        | cls _ =>
            obtain rfl := Option.some.inj hs
            obtain rfl := Option.some.inj ht
            rw [isRawUse, isRawUse, Registry.parameters_of_name hname]
        | param _ _ _ =>
            obtain ⟨_, _, _, heq, -⟩ := Ty.exists_param_of_frame hframe
            cases heq
        | _ => cases ht
    | param _ _ _ =>
        cases t with
        | cls _ =>
            obtain ⟨_, _, _, heq, -⟩ := Ty.exists_param_of_frame hframe.symm
            cases heq
        | param _ _ _ => rfl
        | _ => cases ht
    | _ => cases hs
  have hinstantiated : ∀ e ∈ env.classes.directSupertypes (env.erase s),
      (env.instantiated s e).frame = (env.instantiated t e).frame := by
    intro e he
    unfold instantiated
    rw [hrawUse]
    split
    · rfl
    · rw [(hhoused _ e he).frame_subst, (hhoused _ e he).frame_subst]
  apply viewStep_related_kept
  · rw [erase_of_raw? hs, erase_of_raw? ht, Registry.directSupertypes_of_name hc hd hname]
  · exact hinstantiated
  · intro e he _ _
    obtain ⟨f, hf, harray⟩ := hraw _ e he
    exact ⟨⟨f, f, raw?_instantiated hf s, raw?_instantiated hf t, harray, harray, rfl⟩,
      hinstantiated e he⟩

/-- Types with the same frame are seen with the same frame. -/
theorem frame_of_viewAs {w : Ty} (hone : OfOneRaw s t) (hframe : s.frame = t.frame)
    (hs : env.viewStart s = some s) (ht : env.viewStart t = some t)
    (hobject : target.isObject = false) (hu : env.viewAs s target = .found u)
    (hw : env.viewAs t target = .found w) : u.frame = w.frame := by
  obtain ⟨c, d, hsraw, htraw, hc, hd, hname⟩ := hone
  have hfaithful := viewStep_hasRaw hraw target
  have hsview : env.View s target u := by
    refine view_of_viewAs hfaithful (fun r hr => ?_) hu
    obtain rfl := Option.some.inj (hs.symm.trans hr)
    exact ⟨c, hsraw, hc⟩
  have htview : env.View t target w := by
    refine view_of_viewAs hfaithful (fun r hr => ?_) hw
    obtain rfl := Option.some.inj (ht.symm.trans hr)
    exact ⟨d, htraw, hd⟩
  have hself : (env.erase s == target) = (env.erase t == target) := by
    apply Bool.eq_iff_iff.mpr
    rw [erase_of_raw? hsraw, erase_of_raw? htraw, ClassRef.beq_iff_name, ClassRef.beq_iff_name,
      hname]
  cases hsview with
  | object h => simp [hobject] at h
  | start _ hstart hgoal =>
      obtain rfl := Option.some.inj (hs.symm.trans hstart)
      cases htview with
      | object h => simp [hobject] at h
      | start _ hstart' _ =>
          obtain rfl := Option.some.inj (ht.symm.trans hstart')
          exact hframe
      | walk _ hstart' hne _ =>
          obtain rfl := Option.some.inj (ht.symm.trans hstart')
          rw [← hself, hgoal] at hne
          cases hne
  | walk _ hstart hne hnearest =>
      obtain rfl := Option.some.inj (hs.symm.trans hstart)
      cases htview with
      | object h => simp [hobject] at h
      | start _ hstart' hgoal =>
          obtain rfl := Option.some.inj (ht.symm.trans hstart')
          rw [hself, hgoal] at hne
          cases hne
      | walk _ hstart' _ hnearest' =>
          obtain rfl := Option.some.inj (ht.symm.trans hstart')
          obtain ⟨w', hw', hframes⟩ := nearest_related
            (fun _ _ => viewStep_frame hraw hhoused) ⟨⟨c, d, hsraw, htraw, hc, hd, hname⟩, hframe⟩
            hnearest
          rw [nearest_unique hnearest' hw']
          exact hframes

end

end Env

end Generics
