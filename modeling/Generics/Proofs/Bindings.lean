import Generics.Proofs.BoundSets
import Generics.Proofs.Conflicts
import Generics.Proofs.Replacing

/-!
Binding several variables. A list of bindings agrees with a substitution when
all that it requests for a variable is equal, and equal to what the variable is
mapped to; a variable that is bound to itself requests nothing. The bindings go
through if and only if they agree. What they agree on does not depend on their
order, and neither does what the variables are mapped to in the end.
-/

namespace Generics

open Ty (Same DistinctBounds)

namespace Substitution

variable {σ τ : Substitution} {pairs pairs' : List (TyVar × Ty)} {v w : TyVar} {s t : Ty}

/-- A type is to be bound to a variable, and is not the variable itself. -/
def Requested (pairs : List (TyVar × Ty)) (v : TyVar) (t : Ty) : Prop :=
  ∃ w, (w, t) ∈ pairs ∧ (w == v) = true ∧ isVariable w t = false

/-- All types requested for a variable are equal, and what the variable is mapped to already is
equal to them. -/
structure Agrees (σ : Substitution) (pairs : List (TyVar × Ty)) : Prop where
  requests : ∀ v s t, Requested pairs v s → Requested pairs v t → Same s t
  mapped : ∀ v s t, σ.get? v = some s → Requested pairs v t → Same s t

theorem requested_cons : Requested ((w, s) :: pairs) v t ↔
    s = t ∧ (w == v) = true ∧ isVariable w s = false ∨ Requested pairs v t := by
  constructor
  · rintro ⟨x, hmem, hxv, hself⟩
    rcases List.mem_cons.mp hmem with heq | hmem
    · cases heq
      exact Or.inl ⟨rfl, hxv, hself⟩
    · exact Or.inr ⟨x, hmem, hxv, hself⟩
  · rintro (⟨rfl, hwv, hself⟩ | ⟨x, hmem, hxv, hself⟩)
    · exact ⟨w, List.mem_cons_self, hwv, hself⟩
    · exact ⟨x, List.mem_cons_of_mem _ hmem, hxv, hself⟩

theorem Requested.perm (h : Requested pairs v t) (hperm : pairs.Perm pairs') :
    Requested pairs' v t := by
  obtain ⟨w, hmem, hwv, hself⟩ := h
  exact ⟨w, hperm.mem_iff.mp hmem, hwv, hself⟩

theorem Agrees.perm (h : Agrees σ pairs) (hperm : pairs.Perm pairs') : Agrees σ pairs' where
  requests v s t hs ht := h.requests v s t (hs.perm hperm.symm) (ht.perm hperm.symm)
  mapped v s t hs ht := h.mapped v s t hs (ht.perm hperm.symm)

/-! ## One binding -/

theorem bind_self (h : isVariable v t = true) : σ.bind v t = .ok σ := by
  rw [Substitution.bind, if_pos h]

theorem bind_ok_cases (h : σ.bind v t = .ok τ) :
    isVariable v t = true ∧ τ = σ ∨ isVariable v t = false ∧ τ = σ.insertIfNew v t := by
  cases hself : isVariable v t with
  | true =>
      rw [bind_self hself] at h
      cases h
      exact Or.inl ⟨rfl, rfl⟩
  | false => exact Or.inr ⟨rfl, Token.bind_eq_insertIfNew hself h⟩

/-- One binding goes through when the variable is free, or mapped to an equal type. -/
theorem bind_of_agreeing (hself : isVariable v t = false)
    (h : ∀ s, σ.get? v = some s → Same s t) : σ.bind v t = .ok (σ.insertIfNew v t) := by
  cases hget : σ.get? v with
  | none => exact bind_unbound hself hget
  | some s =>
      rw [Substitution.bind, hself, hget, insertIfNew_of_mapped t hget]
      exact if_pos (h s hget)

/-! ## All bindings -/

theorem bindAll_cons (σ : Substitution) (v : TyVar) (t : Ty) (pairs : List (TyVar × Ty)) :
    σ.bindAll ((v, t) :: pairs) = σ.bind v t >>= fun τ => τ.bindAll pairs :=
  List.foldlM_cons

/-- What the bindings of a list come to: what is mapped stays mapped, and exactly the requested
types are added, one for each variable that was free. -/
structure Records (pairs : List (TyVar × Ty)) (σ τ : Substitution) : Prop where
  kept : σ.PartOf τ
  source : ∀ v t, τ.get? v = some t → σ.get? v = some t ∨ Requested pairs v t
  value : ∀ v t, Requested pairs v t → ∃ s, τ.get? v = some s ∧ Same s t

theorem records_bindAll (h : σ.bindAll pairs = .ok τ) : Records pairs σ τ := by
  induction pairs generalizing σ with
  | nil =>
      cases h
      exact ⟨fun _ _ => id, fun _ _ => Or.inl, fun _ _ ⟨_, hmem, _⟩ => nomatch hmem⟩
  | cons pair pairs ih =>
      obtain ⟨w, u⟩ := pair
      rw [bindAll_cons] at h
      obtain ⟨θ, hbind, hrest⟩ := ok_of_bind h
      obtain ⟨hkept, hsource, hvalue⟩ := ih hrest
      refine ⟨(extends_bind σ w u θ hbind).trans hkept, fun v t hget => ?_, fun v t hreq => ?_⟩
      · rw [requested_cons]
        rcases hsource v t hget with hmid | hreq
        · rcases bind_ok_cases hbind with ⟨-, rfl⟩ | ⟨hself, rfl⟩
          · exact Or.inl hmid
          · rw [get?_insertIfNew_or, Option.or_eq_some_iff] at hmid
            rcases hmid with hold | ⟨-, hnew⟩
            · exact Or.inl hold
            · split at hnew
              · cases hnew
                exact Or.inr (Or.inl ⟨rfl, ‹_›, hself⟩)
              · cases hnew
        · exact Or.inr (Or.inr hreq)
      · rcases requested_cons.mp hreq with ⟨rfl, hwv, hself⟩ | hreq
        · rcases values_of_bind hbind with hvar | ⟨s, hget, hsame⟩
          · rw [hself] at hvar
            cases hvar
          · rw [get?_of_beq θ hwv] at hget
            exact ⟨s, hkept v s hget, hsame⟩
        · exact hvalue v t hreq

/-- Bindings that agree go through. -/
theorem bindAll_of_agrees (h : Agrees σ pairs) : ∃ τ, σ.bindAll pairs = .ok τ := by
  induction pairs generalizing σ with
  | nil => exact ⟨σ, rfl⟩
  | cons pair pairs ih =>
      obtain ⟨v, t⟩ := pair
      have hlater : ∀ w s, Requested pairs w s → Requested ((v, t) :: pairs) w s :=
        fun w s hs => requested_cons.mpr (Or.inr hs)
      have hrest : Agrees σ pairs :=
        ⟨fun w s u hs hu => h.requests w s u (hlater w s hs) (hlater w u hu),
          fun w s u hs hu => h.mapped w s u hs (hlater w u hu)⟩
      rw [bindAll_cons]
      cases hself : isVariable v t with
      | true =>
          rw [bind_self hself]
          exact ih hrest
      | false =>
          have hnow : ∀ {w}, (v == w) = true → Requested ((v, t) :: pairs) w t :=
            fun hvw => ⟨v, List.mem_cons_self, hvw, hself⟩
          rw [bind_of_agreeing hself fun s hs => h.mapped v s t hs (hnow BEq.rfl)]
          refine ih ⟨hrest.requests, fun w s u hs hu => ?_⟩
          rw [get?_insertIfNew_or, Option.or_eq_some_iff] at hs
          rcases hs with hs | ⟨-, hs⟩
          · exact hrest.mapped w s u hs hu
          · split at hs
            · cases hs
              exact h.requests w t u (hnow ‹_›) (hlater w u hu)
            · cases hs

/-- Nothing that a program obtains is left out: all types at hand keep different bounds, and so
do those that a substitution at hand maps to. -/
theorem distinctBounds_of_reachable {admits : ClassRef → Prop} {session : Session}
    (h : Session.Reachable admits session) :
    (∀ t ∈ session.types, t.DistinctBounds) ∧
      ∀ σ ∈ session.resolvers, σ.Binds DistinctBounds := by
  have hsound := Session.sound_of_reachable ClassRef.family_all (fun _ _ => trivial) h
  exact ⟨fun t ht => (hsound.types t ht).distinctBounds,
    fun σ hσ pair hpair => (hsound.resolvers σ hσ pair hpair).distinctBounds⟩

/-- Bindings that go through agree: each requested type is equal to what its variable is
mapped to in the end. -/
theorem Records.agrees (h : Records pairs σ τ) (hσ : σ.Binds DistinctBounds)
    (hpairs : ∀ pair ∈ pairs, pair.2.DistinctBounds) : Agrees σ pairs where
  requests v s t hs ht := by
    obtain ⟨u, hget, hus⟩ := h.value v s hs
    obtain ⟨u', hget', hut⟩ := h.value v t ht
    obtain rfl := Option.some.inj (hget.symm.trans hget')
    have hu : u.DistinctBounds := by
      rcases h.source v u hget with hold | ⟨w, hmem, -⟩
      · exact hσ.get? hold
      · exact hpairs (w, u) hmem
    exact Ty.same_trans (hu.same_symm hus) hut
  mapped v s t hs ht := by
    obtain ⟨u, hget, hut⟩ := h.value v t ht
    obtain rfl := Option.some.inj ((h.kept v s hs).symm.trans hget)
    exact hut

theorem bindAll_iff (hσ : σ.Binds DistinctBounds)
    (hpairs : ∀ pair ∈ pairs, pair.2.DistinctBounds) :
    (∃ τ, σ.bindAll pairs = .ok τ) ↔ Agrees σ pairs :=
  ⟨fun ⟨_, hτ⟩ => (records_bindAll hτ).agrees hσ hpairs, bindAll_of_agrees⟩

/-- Exactly the variables that were mapped and those that a type is requested for are mapped. -/
theorem Records.isSome_iff (h : Records pairs σ τ) (v : TyVar) :
    (τ.get? v).isSome ↔ (σ.get? v).isSome ∨ ∃ t, Requested pairs v t := by
  simp only [Option.isSome_iff_exists]
  constructor
  · rintro ⟨t, ht⟩
    exact (h.source v t ht).imp (fun hold => ⟨t, hold⟩) fun hreq => ⟨t, hreq⟩
  · rintro (⟨t, ht⟩ | ⟨t, hreq⟩)
    · exact ⟨t, h.kept v t ht⟩
    · obtain ⟨s, hs, -⟩ := h.value v t hreq
      exact ⟨s, hs⟩

theorem Records.proper (h : Records pairs σ τ) (hσ : Token.Proper σ) : Token.Proper τ := by
  intro v t hget
  rcases h.source v t hget with hold | ⟨w, -, hwv, hself⟩
  · exact hσ v t hold
  · cases t with
    | var x =>
        rw [← Bool.not_eq_true] at hself ⊢
        exact fun hx => hself (BEq.trans hx (BEq.symm hwv))
    | _ => rfl

/-- Two lists of bindings with the same members come to the same mappings. -/
theorem Records.rel {τ' : Substitution} (h : Records pairs σ τ) (h' : Records pairs' σ τ')
    (hagree : Agrees σ pairs) (hperm : pairs.Perm pairs') (v : TyVar) :
    Option.Rel Same (τ.get? v) (τ'.get? v) := by
  cases hget : τ.get? v with
  | none =>
      have hfree : (τ'.get? v).isSome = (τ.get? v).isSome := by
        rw [Bool.eq_iff_iff, h.isSome_iff, h'.isSome_iff]
        exact or_congr_right (exists_congr fun t => ⟨(·.perm hperm.symm), (·.perm hperm)⟩)
      rw [hget, Option.isSome_none, Option.isSome_eq_false_iff, Option.isNone_iff_eq_none] at hfree
      rw [hfree]
      exact .none
  | some t =>
      rcases h.source v t hget with hold | hreq
      · rw [h'.kept v t hold]
        exact .some (Ty.same_refl t)
      · obtain ⟨s, hs, -⟩ := h'.value v t (hreq.perm hperm)
        rw [hs]
        rcases h'.source v s hs with hold | hreq'
        · rw [h.kept v s hold] at hget
          cases hget
          exact .some (Ty.same_refl _)
        · exact .some (hagree.requests v t s hreq (hreq'.perm hperm.symm))

/-- Bindings go through if and only if they agree. They add what is requested, keep what is
mapped, are the single bindings one after the other, and in another order go through alike. -/
theorem bindAll_order (hσ : σ.Binds DistinctBounds)
    (hpairs : ∀ pair ∈ pairs, pair.2.DistinctBounds) :
    ((∃ τ, σ.bindAll pairs = .ok τ) ↔ Agrees σ pairs) ∧
      pairs.foldlM (fun ρ pair => ρ.bind pair.1 pair.2) σ = σ.bindAll pairs ∧
      (∀ τ, σ.bindAll pairs = .ok τ →
        (∀ v, (τ.get? v).isSome ↔ (σ.get? v).isSome ∨ ∃ t, Requested pairs v t) ∧
        (∀ v t, Requested pairs v t → ∃ s, τ.get? v = some s ∧ Same s t) ∧
        σ.PartOf τ ∧ (Token.Proper σ → Token.Proper τ) ∧
        ∀ pairs' : List (TyVar × Ty), pairs.Perm pairs' → ∃ τ', σ.bindAll pairs' = .ok τ' ∧
          ∀ v, Option.Rel Same (τ.get? v) (τ'.get? v)) ∧
      ∀ fault, σ.bindAll pairs = .error fault → ∀ pairs' : List (TyVar × Ty),
        pairs.Perm pairs' → ∃ fault', σ.bindAll pairs' = .error fault' := by
  refine ⟨bindAll_iff hσ hpairs, rfl, fun τ hτ => ?_, fun fault hfault pairs' hperm => ?_⟩
  · have hrecords := records_bindAll hτ
    have hagree := hrecords.agrees hσ hpairs
    refine ⟨hrecords.isSome_iff, hrecords.value, hrecords.kept, hrecords.proper,
      fun pairs' hperm => ?_⟩
    obtain ⟨τ', hτ'⟩ := bindAll_of_agrees (hagree.perm hperm)
    exact ⟨τ', hτ', hrecords.rel (records_bindAll hτ') hagree hperm⟩
  · cases hother : σ.bindAll pairs' with
    | error fault' => exact ⟨fault', rfl⟩
    | ok τ' =>
        have hpairs' : ∀ pair ∈ pairs', pair.2.DistinctBounds :=
          fun pair hpair => hpairs pair (hperm.mem_iff.mpr hpair)
        have hagree := (records_bindAll hother).agrees hσ hpairs'
        obtain ⟨τ, hτ⟩ := bindAll_of_agrees (hagree.perm hperm.symm)
        rw [hτ] at hfault
        cases hfault

/-- The cells of a table are strings already. Its rows are to be strings that are tables, twice,
with the bounds in either order. -/
def rowRequests : List (TyVar × Ty) :=
  [(rowVar, .wildcard [.cls tableClass, Env.stringType] []), (cellVar, .var cellVar),
    (rowVar, .wildcard [Env.stringType, .cls tableClass] []), (cellVar, Env.stringType)]

theorem bindAll_order_table : cells.Binds DistinctBounds ∧
    (∀ pair ∈ rowRequests, pair.2.DistinctBounds) ∧ Agrees cells rowRequests ∧
    ∃ τ τ', cells.bindAll rowRequests = .ok τ ∧ cells.bindAll rowRequests.reverse = .ok τ' ∧
      ∀ v, Option.Rel Same (τ.get? v) (τ'.get? v) := by
  have hcells : cells.Binds DistinctBounds := List.forall_mem_singleton.mpr (.cls _)
  have hrows : ∀ pair ∈ rowRequests, pair.2.DistinctBounds := by
    have hbounds : ∀ c d, (Ty.wildcard [.cls c, .cls d] []).DistinctBounds := fun c d =>
      Ty.distinctBounds_wildcard (by simp [DistinctBounds.cls]) (List.forall_mem_nil _)
    simp only [rowRequests, List.forall_mem_cons]
    exact ⟨hbounds _ _, .var _, hbounds _ _, .cls _, List.forall_mem_nil _⟩
  obtain ⟨hiff, -, hok, -⟩ := bindAll_order hcells hrows
  have hrun : cells.bindAll rowRequests =
      .ok ⟨[(cellVar, Env.stringType), (rowVar, .wild [.cls tableClass, Env.stringType] [])]⟩ := rfl
  obtain ⟨-, -, -, -, horder⟩ := hok _ hrun
  obtain ⟨τ', hτ', hrel⟩ := horder _ (List.reverse_perm _).symm
  exact ⟨hcells, hrows, hiff.mp ⟨_, hrun⟩, _, τ', hrun, hτ', hrel⟩

end Substitution

end Generics
