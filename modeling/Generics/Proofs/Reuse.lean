import Generics.Proofs.Bracketing

/-!
A checker that was asked before answers like a fresh one. Two checkers with the same questions
open differ in their attempts only, and these are read in one place: where the budget turns an
attempt down. As long as that does not happen to the checker that made more of them, both
take the same way through a question.

Attempts are never taken back, so that a checker which is within its budget at the end was
within it all along.
-/

namespace Generics

namespace Guard

variable {κ : Type} {g g' : Guard κ}

/-- More was attempted than the budget allows. -/
def Spent (g : Guard κ) : Prop := g.maxIterations < g.attempts

instance (g : Guard κ) : Decidable g.Spent := inferInstanceAs (Decidable (_ < _))

variable [BEq κ]

/-- A guard is spent by an attempt just if the answer is that the budget is exceeded. -/
theorem spent_enter {key : κ} :
    (g.enter key).2.Spent ↔ (g.enter key).1 = .iterationExceeded := by
  have hattempts : (g.enter key).2.attempts = g.nextAttempts := attempts_record g key _
  have hbudget : (g.enter key).2.maxIterations = g.maxIterations := by
    change (g.record key (g.judge key)).maxIterations = _
    cases g.judge key <;> rfl
  rw [Spent, hattempts, hbudget]
  change g.maxIterations < g.nextAttempts ↔ g.judge key = .iterationExceeded
  unfold judge
  constructor
  · intro h
    rw [if_pos h]
  · intro h
    by_contra hgranted
    rw [if_neg hgranted] at h
    split at h
    · cases h
    · split at h <;> cases h

/-- From one guard to another that made as many attempts or more, all of them counted. -/
structure Aged (g g' : Guard κ) : Prop where
  maxDepth_eq : g'.maxDepth = g.maxDepth
  maxIterations_eq : g'.maxIterations = g.maxIterations
  attempts_le : g.attempts ≤ g'.attempts
  counted : g'.attempts ≤ Limits.countedAttempts

omit [BEq κ] in
theorem Aged.trans {g'' : Guard κ} (h : Aged g g') (h' : Aged g' g'') : Aged g g'' :=
  ⟨h'.maxDepth_eq.trans h.maxDepth_eq, h'.maxIterations_eq.trans h.maxIterations_eq,
    h.attempts_le.trans h'.attempts_le, h'.counted⟩

omit [BEq κ] in
theorem Aged.spent (h : Aged g g') (hspent : g.Spent) : g'.Spent := by
  unfold Spent at hspent ⊢
  rw [h.maxIterations_eq]
  exact hspent.trans_le h.attempts_le

theorem aged_enter (hcounted : g.attempts ≤ Limits.countedAttempts) (key : κ) :
    Aged g (g.enter key).2 := by
  have hattempts : (g.enter key).2.attempts = g.nextAttempts := attempts_record g key _
  have hlimits : (g.enter key).2.maxDepth = g.maxDepth ∧
      (g.enter key).2.maxIterations = g.maxIterations := by
    change (g.record key (g.judge key)).maxDepth = _ ∧
      (g.record key (g.judge key)).maxIterations = _
    cases g.judge key <;> exact ⟨rfl, rfl⟩
  refine ⟨hlimits.1, hlimits.2, ?_, ?_⟩
  · rw [hattempts]
    exact le_min (Nat.le_succ _) hcounted
  · rw [hattempts]
    exact min_le_right _ _

theorem aged_leave (hcounted : g.attempts ≤ Limits.countedAttempts) (key : κ) :
    Aged g (g.leave key) :=
  ⟨maxDepth_leave g key, maxIterations_leave g key, (attempts_leave g key).ge,
    (attempts_leave g key).le.trans hcounted⟩

theorem Bracketed.aged (h : Bracketed g g') (hcounted : g.attempts ≤ Limits.countedAttempts) :
    Aged g g' := by
  induction h with
  | idle _ => exact ⟨rfl, rfl, le_refl _, hcounted⟩
  | denied key _ _ ih =>
      have henter := aged_enter hcounted key
      exact henter.trans (ih henter.counted)
  | @closed _ inner left _ key _ _ hleave _ ihwork ihrest =>
      have henter := aged_enter hcounted key
      have hwork := ihwork henter.counted
      have hleft : inner.leave key = left := by rw [leave, hleave, Option.getD_some]
      have hleaving : Aged inner left := hleft ▸ aged_leave hwork.counted key
      exact henter.trans (hwork.trans (hleaving.trans (ihrest hleaving.counted)))

/-- A guard with the same keys held as another one, which made as many attempts or more. -/
structure Younger (g' g : Guard κ) : Prop where
  held_eq : g'.held = g.held
  maxDepth_eq : g'.maxDepth = g.maxDepth
  maxIterations_eq : g'.maxIterations = g.maxIterations
  attempts_le : g'.attempts ≤ g.attempts

namespace Younger

/-- Attempts that the budget grants end alike. -/
theorem judge_eq {key : κ} (h : Younger g' g) (hgranted : ¬(g.enter key).2.Spent) :
    g'.judge key = g.judge key := by
  have hbudget : ¬g.maxIterations < g.nextAttempts := by
    intro hover
    exact hgranted (spent_enter.mpr (if_pos hover))
  have hnext : g'.nextAttempts ≤ g.nextAttempts :=
    min_le_min_right _ (Nat.succ_le_succ h.attempts_le)
  have hbudget' : ¬g'.maxIterations < g'.nextAttempts := by
    rw [h.maxIterations_eq]
    omega
  rw [judge, judge, if_neg hbudget, if_neg hbudget', depth, depth, h.held_eq, h.maxDepth_eq]

omit [BEq κ] in
theorem record (h : Younger g' g) (key : κ) (entry : Entry) :
    Younger (g'.record key entry) (g.record key entry) := by
  have hnext : g'.nextAttempts ≤ g.nextAttempts :=
    min_le_min_right _ (Nat.succ_le_succ h.attempts_le)
  cases entry with
  | entered => exact ⟨congrArg (key :: ·) h.held_eq, h.maxDepth_eq, h.maxIterations_eq, hnext⟩
  | _ => exact ⟨h.held_eq, h.maxDepth_eq, h.maxIterations_eq, hnext⟩

theorem leave (h : Younger g' g) (key : κ) : Younger (g'.leave key) (g.leave key) := by
  have hheld : (g'.leave key).held = (g.leave key).held := by
    unfold Guard.leave leave?
    rw [h.held_eq]
    split <;> rfl
  refine ⟨hheld, ?_, ?_, ?_⟩
  · rw [maxDepth_leave, maxDepth_leave, h.maxDepth_eq]
  · rw [maxIterations_leave, maxIterations_leave, h.maxIterations_eq]
  · rw [attempts_leave, attempts_leave]
    exact h.attempts_le

end Younger

end Guard

open Guard (Younger)

namespace CheckM

/-- A computation that a checker which asked less carries out alike, unless the other one
exceeds its budget. -/
structure Steady {β : Type} (m : CheckM β) : Prop where
  brackets : Brackets m
  agrees : ∀ c c', c.guard.attempts ≤ Limits.countedAttempts → Younger c'.guard c.guard →
    ¬(m.run c).2.guard.Spent →
    (m.run c').1 = (m.run c).1 ∧ Younger (m.run c').2.guard (m.run c).2.guard

variable {β γ : Type} {m : CheckM β}

theorem steady_pure (b : β) : Steady (pure b) :=
  ⟨Subtyping.brackets_pure b, fun _ _ _ hyounger _ => ⟨rfl, hyounger⟩⟩

theorem Steady.bind {k : β → CheckM γ} (hm : Steady m) (hk : ∀ b, Steady (k b)) :
    Steady (m >>= k) where
  brackets := Subtyping.brackets_bind hm.brackets fun b => (hk b).brackets
  agrees := by
    intro c c' hcounted hyounger hspent
    have hbefore := (hm.brackets c).aged hcounted
    have hafter := ((hk (m.run c).1).brackets (m.run c).2).aged hbefore.counted
    obtain ⟨hfirst, hmiddle⟩ := hm.agrees c c' hcounted hyounger
      fun h => hspent (hafter.spent h)
    have hrest := (hk (m.run c).1).agrees _ _ hbefore.counted hmiddle hspent
    have hrun : (m >>= k).run c' = (k (m.run c).1).run (m.run c').2 := by rw [← hfirst]; rfl
    rw [hrun]
    exact hrest

theorem Steady.map (f : β → γ) (hm : Steady m) : Steady (f <$> m) where
  brackets := hm.brackets
  agrees := by
    intro c c' hcounted hyounger hspent
    obtain ⟨hresult, hafter⟩ := hm.agrees c c' hcounted hyounger hspent
    exact ⟨congrArg f hresult, hafter⟩

end CheckM

namespace Subtyping

open CheckM

variable {env : Env} {below : Asking}

theorem steady_run (hbelow : ∀ s t, Steady (below s t)) (p : Plan) : Steady (p.run below) := by
  induction p with
  | answer b => exact steady_pure b
  | cut => exact ⟨fun c => .idle c.guard, fun _ _ _ hyounger _ => ⟨rfl, hyounger⟩⟩
  | ask s t => exact hbelow s t
  | both p q ihp ihq =>
      refine ihp.bind fun b => ?_
      cases b with
      | true => exact ihq
      | false => exact steady_pure false
  | either p q ihp ihq =>
      refine ihp.bind fun b => ?_
      cases b with
      | true => exact steady_pure true
      | false => exact ihq

/-- A question is taken up, taken to hold or turned down by both checkers; where it is taken
up, both carry out its plan. -/
theorem steady_checkWithin (levels : Nat) (s t : Ty) : Steady (checkWithin env levels s t) := by
  induction levels generalizing s t with
  | zero => exact steady_pure _
  | succ levels ih =>
      by_cases hsame : (s == t) = true
      · rw [checkWithin, if_pos hsame]
        exact steady_pure _
      · refine ⟨brackets_checkWithin (levels + 1) s t, ?_⟩
        intro c c' hcounted hyounger hspent
        have hplan := steady_run (fun a b => (ih a b).map Verdict.accepts) (rulePlan env s t)
        rw [run_rulePlan] at hplan
        have henter := Guard.aged_enter hcounted (s, t)
        have hrecorded : (c.guard.enter (s, t)).2 =
            c.guard.record (s, t) (c.guard.judge (s, t)) := rfl
        rw [run_verdict levels hsame] at hspent
        rw [run_verdict levels hsame, run_verdict levels hsame]
        generalize rule env _ s t = work at hplan hspent ⊢
        cases hjudge : c.guard.judge (s, t) with
        | entered =>
            rw [hjudge] at hspent hrecorded
            rw [hrecorded] at henter
            let opened : Checker := { c with guard := c.guard.record (s, t) .entered }
            have hwork := (hplan.brackets opened).aged henter.counted
            have hquiet : ¬(work.run opened).2.guard.Spent := fun h =>
              hspent ((Guard.aged_leave hwork.counted (s, t)).spent h)
            have hgranted : ¬(c.guard.enter (s, t)).2.Spent := by
              rw [hrecorded]
              exact fun h => hquiet (hwork.spent h)
            rw [hyounger.judge_eq hgranted, hjudge]
            obtain ⟨hresult, hafter⟩ := hplan.agrees opened
              { c' with guard := c'.guard.record (s, t) .entered } henter.counted
              (hyounger.record (s, t) .entered) hquiet
            exact ⟨congrArg Verdict.ofBool hresult, hafter.leave (s, t)⟩
        | cycle =>
            rw [hjudge] at hspent hrecorded
            rw [hyounger.judge_eq (hrecorded ▸ hspent), hjudge]
            exact ⟨rfl, hyounger.record (s, t) .cycle⟩
        | depthExceeded =>
            rw [hjudge] at hspent hrecorded
            rw [hyounger.judge_eq (hrecorded ▸ hspent), hjudge]
            exact ⟨rfl, hyounger.record (s, t) .depthExceeded⟩
        | iterationExceeded =>
            rw [hjudge] at hspent hrecorded
            exact absurd (Guard.spent_enter.mpr hjudge) (hrecorded ▸ hspent)

theorem steady_checkSubtype (env : Env) (s t : Ty) : Steady (env.checkSubtype s t) :=
  steady_checkWithin (Limits.subtypeDepth + 1) s t

theorem steady_isSubtype (env : Env) (s t : Ty) : Steady (env.isSubtype s t) :=
  (steady_checkSubtype env s t).map Verdict.accepts

theorem steady_checkContains (env : Env) (s t : Ty) : Steady (env.checkContains s t) := by
  have hplan := steady_run (steady_isSubtype env) (containsPlan s t)
  rw [run_containsPlan] at hplan
  exact hplan

end Subtyping

namespace Query

open CheckM Subtyping

theorem steady_ask (env : Env) (query : Query) : Steady (query.ask env) := by
  cases query with
  | checkSubtype source target => exact (steady_checkSubtype env source target).map _
  | isSubtype source target => exact (steady_isSubtype env source target).map _
  | contains actual formal => exact (steady_checkContains env actual formal).map _

/-- A checker with nothing open answers each query of a series like a fresh one. -/
theorem askAll_of_younger (queries : List (Env × Query)) {c : Checker}
    (hcounted : c.guard.attempts ≤ Limits.countedAttempts)
    (hyounger : Younger Checker.fresh.guard c.guard)
    (hspent : ¬((askAll queries).run c).2.guard.Spent) :
    ((askAll queries).run c).1 = queries.map fun (env, query) => (query.ask env).ask := by
  induction queries generalizing c with
  | nil => rfl
  | cons first queries ih =>
      obtain ⟨env, query⟩ := first
      rw [askAll_cons] at hspent ⊢
      have hwork := brackets_ask env query c
      have hfirst := hwork.aged hcounted
      have hrest := (brackets_askAll queries _).aged hfirst.counted
      obtain ⟨hanswer, -⟩ := (steady_ask env query).agrees c .fresh hcounted hyounger
        fun h => hspent (hrest.spent h)
      have hnext : Younger Checker.fresh.guard ((query.ask env).run c).2.guard :=
        ⟨hyounger.held_eq.trans hwork.held_eq.symm,
          hyounger.maxDepth_eq.trans hfirst.maxDepth_eq.symm,
          hyounger.maxIterations_eq.trans hfirst.maxIterations_eq.symm, Nat.zero_le _⟩
      exact congrArg₂ List.cons hanswer.symm (ih hfirst.counted hnext hspent)

/-- As long as the budget is not exceeded, each query of a series is answered as by a fresh
checker, and no question is held between two of them. -/
theorem askAll_eq_fresh (queries : List (Env × Query))
    (hspent : ¬((askAll queries).run .fresh).2.guard.Spent) :
    ((askAll queries).run .fresh).1 = (queries.map fun (env, query) => (query.ask env).ask) ∧
      ∀ before, before <+: queries → ((askAll before).run .fresh).2.guard.held = [] := by
  constructor
  · exact askAll_of_younger queries (Nat.zero_le _) ⟨rfl, rfl, rfl, le_refl _⟩ hspent
  · intro before _
    exact (brackets_askAll before .fresh).held_eq

/-- Variables that bound each other, asked about again and again: some questions are taken to
hold, and the last one but one is nested deeper than is allowed. -/
def swapQueries : List (Env × Query) :=
  let first := Ty.var swapVars.1
  let second := Ty.var swapVars.2
  let text := Ty.cls (.named "java.lang.String" .ordinary)
  [(swapEnv, .checkSubtype first text), (swapEnv, .checkSubtype second text),
    (swapEnv, .isSubtype text second), (swapEnv, .contains second (.wild [first] [])),
    (swapEnv, .checkSubtype (Ty.array^[110] first) (Ty.array^[110] second)),
    (swapEnv, .checkSubtype first text)]

theorem askAll_eq_fresh_swap :
    ¬((askAll swapQueries).run .fresh).2.guard.Spent ∧
      ((askAll swapQueries).run .fresh).1 =
        swapQueries.map fun (env, query) => (query.ask env).ask :=
  have hspent : ¬((askAll swapQueries).run .fresh).2.guard.Spent := by decide +kernel
  ⟨hspent, (askAll_eq_fresh swapQueries hspent).1⟩

end Query

end Generics
