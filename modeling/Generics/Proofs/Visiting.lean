import Generics.Proofs.Equality
import Generics.Proofs.Guard
import Generics.Visit.Basic

/-!
Laws of guarded visits. Whatever a handler does, a visit gives back the types
that were held when it began, takes no refusal back, and only adds to what was
collected. A visit passes a type over when it is held, or when a limit turns
it down; where no refusal is counted, every type that is not held is handed to
the handler.
-/

namespace Generics

variable {σ : Type}

/-- How what is collected may change: not at all, and by one change after another. -/
structure Growth (le : σ → σ → Prop) : Prop where
  refl : ∀ a, le a a
  trans : ∀ {a b c}, le a b → le b c → le a c

/-- From one state of a traversal to a later one at the same depth. -/
structure Visit.Grows (le : σ → σ → Prop) (s s' : Visit σ) : Prop where
  held_eq : s'.guard.held = s.guard.held
  maxDepth_eq : s'.guard.maxDepth = s.guard.maxDepth
  refusals_le : s.guard.refusals ≤ s'.guard.refusals
  acc_le : le s.acc s'.acc

/-- A handler that only adds to what was collected, when the visits that it makes do so. -/
def Handler.Adds (le : σ → σ → Prop) (handle : Handler σ) : Prop :=
  ∀ visit : Ty → Visit σ → Visit σ, (∀ t s, Visit.Grows le s (visit t s)) →
    ∀ t s, Visit.Grows le s (handle visit t s)

namespace Visit

variable {le : σ → σ → Prop} {handle : Handler σ}

theorem Grows.refl (h : Growth le) (s : Visit σ) : Grows le s s :=
  ⟨rfl, rfl, le_refl _, h.refl _⟩

theorem Grows.trans (h : Growth le) {s s' s'' : Visit σ} (hs : Grows le s s')
    (hs' : Grows le s' s'') : Grows le s s'' :=
  ⟨hs'.held_eq.trans hs.held_eq, hs'.maxDepth_eq.trans hs.maxDepth_eq,
    hs.refusals_le.trans hs'.refusals_le, h.trans hs.acc_le hs'.acc_le⟩

theorem grows_modify {s : Visit σ} {f : σ → σ} (h : le s.acc (f s.acc)) :
    Grows le s (s.modify f) :=
  ⟨rfl, rfl, le_refl _, h⟩

theorem foldl_grows {α : Type} (h : Growth le) {f : Visit σ → α → Visit σ}
    (hf : ∀ s a, Grows le s (f s a)) (items : List α) (s : Visit σ) :
    Grows le s (items.foldl f s) := by
  induction items generalizing s with
  | nil => exact .refl h s
  | cons a items ih => exact (hf s a).trans h (ih (f s a))

theorem all_grows (h : Growth le) {visit : Ty → Visit σ → Visit σ}
    (hvisit : ∀ t s, Grows le s (visit t s)) (ts : List Ty) (s : Visit σ) :
    Grows le s (all visit ts s) :=
  foldl_grows h (fun s t => hvisit t s) ts s

/-! ## One visit -/

/-- The state in which the handler finds a traversal that has just entered a type. -/
def opened (s : Visit σ) (t : Ty) : Visit σ :=
  { s with guard := s.guard.record t .entered }

/-- The state after the handler, with the type left again. -/
def closed (s : Visit σ) (t : Ty) : Visit σ := { s with guard := s.guard.leave t }

/-- A visit, by what the guard says to it. -/
theorem within_succ (handle : Handler σ) (levels : Nat) (t : Ty) (s : Visit σ) :
    within handle (levels + 1) t s =
      match s.guard.judge t with
      | .entered => closed (handle (within handle levels) t (s.opened t)) t
      | denied => { s with guard := s.guard.record t denied } := by
  have henter : s.guard.enter t = (s.guard.judge t, s.guard.record t (s.guard.judge t)) := rfl
  rw [within, henter]
  cases s.guard.judge t <;> rfl

/-- Visits are alike when the handlers do alike with types of a kind, given visits that are alike
for these. -/
theorem within_congr {P : Ty → Prop} {handle' : Handler σ}
    (h : ∀ visit visit' : Ty → Visit σ → Visit σ, (∀ t, P t → ∀ s, visit' t s = visit t s) →
      ∀ t, P t → ∀ s, handle' visit' t s = handle visit t s)
    (levels : Nat) {t : Ty} (ht : P t) (s : Visit σ) :
    within handle' levels t s = within handle levels t s := by
  induction levels generalizing t s with
  | zero => rfl
  | succ levels ih =>
      rw [within_succ, within_succ, h _ _ (fun t ht s => ih ht s) t ht]

/-- Entering a type, handling it and leaving it keeps what was held. -/
theorem grows_closed {s s' : Visit σ} {t : Ty} (h : Grows le (s.opened t) s') :
    Grows le s (s'.closed t) where
  held_eq := Guard.held_leave h.held_eq
  maxDepth_eq := (Guard.maxDepth_leave s'.guard t).trans h.maxDepth_eq
  refusals_le := by
    have hle : s.guard.refusals ≤ s'.guard.refusals := h.refusals_le
    exact hle.trans (Guard.refusals_leave s'.guard t).ge
  acc_le := h.acc_le

theorem within_grows (h : Growth le) (hadds : handle.Adds le) (levels : Nat) (t : Ty)
    (s : Visit σ) : Grows le s (within handle levels t s) := by
  induction levels generalizing t s with
  | zero => exact .refl h s
  | succ levels ih =>
      rw [within_succ]
      cases s.guard.judge t with
      | entered => exact grows_closed (hadds _ ih t (s.opened t))
      | cycle => exact ⟨rfl, rfl, le_refl _, h.refl _⟩
      | depthExceeded => exact ⟨rfl, rfl, Nat.le_succ _, h.refl _⟩
      | iterationExceeded => exact ⟨rfl, rfl, Nat.le_succ _, h.refl _⟩

theorem all_preserves {P : σ → Prop} {visit : Ty → Visit σ → Visit σ} {ts : List Ty}
    (hvisit : ∀ t ∈ ts, ∀ s, P s.acc → P (visit t s).acc) {s : Visit σ} (hs : P s.acc) :
    P (all visit ts s).acc := by
  induction ts generalizing s with
  | nil => exact hs
  | cons t ts ih =>
      obtain ⟨ht, hts⟩ := List.forall_mem_cons.mp hvisit
      exact ih hts (ht s hs)

/-- What every handled type preserves, a visit preserves. -/
theorem within_preserves {P : σ → Prop} {Q : Ty → Prop} (h : Growth le)
    (hadds : handle.Adds le)
    (hstep : ∀ visit : Ty → Visit σ → Visit σ, (∀ t s, Grows le s (visit t s)) →
      (∀ t s, Q t → P s.acc → P (visit t s).acc) →
      ∀ t s, Q t → P s.acc → P (handle visit t s).acc)
    (levels : Nat) {t : Ty} {s : Visit σ} (ht : Q t) (hs : P s.acc) :
    P (within handle levels t s).acc := by
  induction levels generalizing t s with
  | zero => exact hs
  | succ levels ih =>
      rw [within_succ]
      cases s.guard.judge t with
      | entered =>
          exact hstep _ (within_grows h hadds levels) (fun _ _ => ih) t (s.opened t) ht hs
      | _ => exact hs

/-! ## Visits without a refusal -/

/-- A type that is not held is handed to the handler, and the handler meets no
limit either. -/
theorem within_of_quiet {levels : Nat} {t : Ty} {s : Visit σ}
    (hquiet : (within handle (levels + 1) t s).guard.refusals = s.guard.refusals)
    (hfree : s.guard.held.contains t = false) :
    within handle (levels + 1) t s =
        closed (handle (within handle levels) t (s.opened t)) t ∧
      (handle (within handle levels) t (s.opened t)).guard.refusals =
        (s.opened t).guard.refusals ∧
      s.guard.held.length < s.guard.maxDepth := by
  rw [within_succ] at hquiet ⊢
  cases hjudge : s.guard.judge t with
  | entered =>
      rw [hjudge] at hquiet
      refine ⟨rfl, ?_, Guard.length_of_entered hjudge⟩
      exact (Guard.refusals_leave _ t).symm.trans hquiet
  | cycle =>
      rw [Guard.contains_of_cycle hjudge] at hfree
      cases hfree
  | depthExceeded =>
      rw [hjudge] at hquiet
      exact absurd hquiet (Nat.succ_ne_self _)
  | iterationExceeded =>
      rw [hjudge] at hquiet
      exact absurd hquiet (Nat.succ_ne_self _)

/-- Where nothing is refused from end to end, nothing is refused on the way. -/
theorem quiet_between {first s s' last : Visit σ} (hbefore : Grows le first s)
    (h : Grows le s s') (hafter : Grows le s' last)
    (hquiet : last.guard.refusals = first.guard.refusals) :
    s'.guard.refusals = s.guard.refusals := by
  have hfirst := hbefore.refusals_le
  have hstep := h.refusals_le
  have hlast := hafter.refusals_le
  omega

/-- An item of a list is handled between the first state and the last one. -/
theorem foldl_splits {α : Type} (h : Growth le) {f : Visit σ → α → Visit σ}
    (hf : ∀ s a, Grows le s (f s a)) {items : List α} {a : α} (ha : a ∈ items) (s : Visit σ) :
    ∃ s', Grows le s s' ∧ Grows le (f s' a) (items.foldl f s) := by
  obtain ⟨before, after, rfl⟩ := List.append_of_mem ha
  refine ⟨before.foldl f s, foldl_grows h hf before s, ?_⟩
  rw [List.foldl_append, List.foldl_cons]
  exact foldl_grows h hf after _

theorem all_splits (h : Growth le) {visit : Ty → Visit σ → Visit σ}
    (hvisit : ∀ t s, Grows le s (visit t s)) {ts : List Ty} {t : Ty} (ht : t ∈ ts)
    (s : Visit σ) : ∃ s', Grows le s s' ∧ Grows le (visit t s') (all visit ts s) :=
  foldl_splits h (fun s t => hvisit t s) ht s

/-! ## Two collections -/

/-- The same traversal with less collected. -/
def map {τ : Type} (f : σ → τ) (s : Visit σ) : Visit τ := ⟨s.guard, f s.acc⟩

section

variable {τ : Type} {f : σ → τ} {handle' : Handler τ}

theorem all_map {visit : Ty → Visit σ → Visit σ} {visit' : Ty → Visit τ → Visit τ}
    (h : ∀ t s, (visit t s).map f = visit' t (s.map f)) (ts : List Ty) (s : Visit σ) :
    (all visit ts s).map f = all visit' ts (s.map f) := by
  induction ts generalizing s with
  | nil => rfl
  | cons t ts ih =>
      change (all visit ts (visit t s)).map f = all visit' ts (visit' t (s.map f))
      rw [ih, h]

/-- Handlers that go on to the same types make the same visits. -/
theorem within_map
    (hstep : ∀ (visit : Ty → Visit σ → Visit σ) (visit' : Ty → Visit τ → Visit τ),
      (∀ t s, (visit t s).map f = visit' t (s.map f)) →
      ∀ t s, (handle visit t s).map f = handle' visit' t (s.map f))
    (levels : Nat) (t : Ty) (s : Visit σ) :
    (within handle levels t s).map f = within handle' levels t (s.map f) := by
  induction levels generalizing t s with
  | zero => rfl
  | succ levels ih =>
      rw [within_succ, within_succ]
      change _ = match s.guard.judge t with
        | .entered => closed (handle' (within handle' levels) t ((s.opened t).map f)) t
        | denied => { s.map f with guard := s.guard.record t denied }
      cases s.guard.judge t with
      | entered =>
          have hhandle := hstep _ _ ih t (s.opened t)
          change (closed (handle _ t (s.opened t)) t).map f = closed _ t
          rw [← hhandle]
          rfl
      | _ => rfl

end

end Visit

end Generics
