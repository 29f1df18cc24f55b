import Generics.Proofs.Assignability

/-!
What a checker asks, laid out before it asks. The rule for two types is a plan:
questions that are to be answered with yes, all or one of them. A plan is carried
out by asking its questions, and it is accepted where they are; the limits of the
checker leave an accepted plan as the only reason for a yes. What is accepted with
some questions open is accepted with more of them open, and open questions that are
accepted themselves can be closed.
-/

namespace Generics.Subtyping

open Ty (Same)

/-- Questions that decide a rule. -/
inductive Plan where
  | answer (b : Bool)
  /-- A supertype walk ran out of steps. -/
  | cut
  | ask (source target : Ty)
  | both (p q : Plan)
  | either (p q : Plan)

namespace Plan

def all (plans : List Plan) : Plan := plans.foldr both (answer true)

def any (plans : List Plan) : Plan := plans.foldr either (answer false)

/-- Asks the questions of a plan, as far as they are needed. -/
def run (below : Asking) : Plan → CheckM Bool
  | answer b => pure b
  | cut => do
    modify fun c => { c with cutWalks := c.cutWalks + 1 }
    return false
  | ask source target => below source target
  | both p q => do if ← p.run below then q.run below else return false
  | either p q => do if ← p.run below then return true else q.run below

theorem run_all {α : Type} (below : Asking) (plan : α → Plan) (xs : List α) :
    (all (xs.map plan)).run below = xs.allM fun x => (plan x).run below := by
  induction xs with
  | nil => rfl
  | cons x xs ih =>
      change (do if ← (plan x).run below then (all (xs.map plan)).run below else return false) = _
      rw [ih, List.allM]
      exact bind_congr fun b => by cases b <;> rfl

theorem run_any {α : Type} (below : Asking) (plan : α → Plan) (xs : List α) :
    (any (xs.map plan)).run below = xs.anyM fun x => (plan x).run below := by
  induction xs with
  | nil => rfl
  | cons x xs ih =>
      change (do if ← (plan x).run below then return true else (any (xs.map plan)).run below) = _
      rw [ih, List.anyM]
      exact bind_congr fun b => by cases b <;> rfl

end Plan

/-! ## The plans of the rules -/

def containsPlan (actual formal : Ty) : Plan :=
  if actual == formal then .answer true
  else
    match formal with
    | .wild upper lower =>
      .both (.all (upper.map fun bound => .ask actual bound))
        (.all (lower.map fun bound => .ask bound actual))
    | _ => .answer false

def arrayPlan (env : Env) (component target : Ty) : Plan :=
  match target with
  | .cls c =>
    match c.component? with
    | some component' => .ask component (.cls component')
    | none => .answer (env.isSubclass (.arrayOf .object) c)
  | .array component' => .ask component component'
  | _ => .answer false

def ownerPlan (env : Env) (view : Ty) (owner : Option Ty) (raw : ClassRef) : Plan :=
  match owner with
  | none => .answer true
  | some owner =>
    if env.classes.isStatic raw then .answer true
    else
      match view with
      | .param (some viewOwner) _ _ => .ask viewOwner owner
      | _ => .answer false

/-- The plan for a parameterized target, given the view of the source. -/
def viewPlan (env : Env) (view : Ty) (owner : Option Ty) (raw : ClassRef) (args : List Ty) : Plan :=
  if (viewArgs env raw view).length ≠ args.length then .answer false
  else
    .both (.all (((viewArgs env raw view).zip args).map fun pair => containsPlan pair.1 pair.2))
      (ownerPlan env view owner raw)

def parameterizedPlan (env : Env) (source : Ty) (owner : Option Ty) (raw : ClassRef)
    (args : List Ty) : Plan :=
  if !env.isSubclass (env.erase source) raw then .answer false
  else
    match env.viewAs source raw with
    | .missing => .answer false
    | .outOfSteps => .cut
    | .found view => viewPlan env view owner raw args

/-- The questions by which a question between different types is decided. -/
def rulePlan (env : Env) (source target : Ty) : Plan :=
  match target with
  | .wild _ lower => .any (lower.map fun bound => .ask source bound)
  | _ =>
    match source with
    | .wild upper _ => .any (upper.map fun bound => .ask bound target)
    | .var v => .any ((env.bounds.effective v).map fun bound => .ask bound target)
    | .array component => arrayPlan env component target
    | _ =>
      match target with
      | .cls c => .answer (env.isSubclass (env.erase source) c)
      | .param owner raw args => parameterizedPlan env source owner raw args
      | .array component =>
        match source.component? with
        | some component' => .ask component' component
        | none => .answer false
      | _ => .answer false

section

variable {env : Env} {below : Asking}

theorem run_containsPlan (actual formal : Ty) :
    (containsPlan actual formal).run below = contains below actual formal := by
  unfold containsPlan contains
  split
  · rfl
  · cases formal with
    | wild upper lower =>
        simp only
        rw [Plan.run, Plan.run_all, Plan.run_all]
        rfl
    | _ => rfl

theorem run_arrayPlan (component target : Ty) :
    (arrayPlan env component target).run below = arrayRule env below component target := by
  cases target with
  | cls c =>
      simp only [arrayPlan, arrayRule]
      cases c.component? <;> rfl
  | _ => rfl

theorem run_ownerPlan (view : Ty) (owner : Option Ty) (raw : ClassRef) :
    (ownerPlan env view owner raw).run below = ownerRule env below view owner raw := by
  cases owner with
  | none => rfl
  | some owner =>
      unfold ownerPlan ownerRule
      simp only
      split
      · rfl
      · cases view with
        | param viewOwner _ _ => cases viewOwner <;> rfl
        | _ => rfl

theorem run_parameterizedPlan (source : Ty) (owner : Option Ty) (raw : ClassRef) (args : List Ty) :
    (parameterizedPlan env source owner raw args).run below =
      parameterizedRule env below source owner raw args := by
  unfold parameterizedPlan parameterizedRule
  split
  · rfl
  · cases env.viewAs source raw with
    | missing => rfl
    | outOfSteps => rfl
    | found view =>
        change (viewPlan env view owner raw args).run below = viewRule env below view owner raw args
        unfold viewPlan viewRule
        split
        · rfl
        · rw [Plan.run, Plan.run_all, run_ownerPlan]
          simp only [run_containsPlan]

theorem rulePlan_array {component target : Ty} (hwild : target.isWildcard = false) :
    rulePlan env (.array component) target = arrayPlan env component target := by
  cases target with
  | wild _ _ => cases hwild
  | _ => rfl

theorem rulePlan_cls {s : Ty} {c : ClassRef} (hs : s.raw? = some c) (d : ClassRef) :
    rulePlan env s (.cls d) = .answer (env.isSubclass c d) := by
  have herase : env.erase s = c := Env.erase_of_raw? hs
  rw [← herase]
  cases s with
  | cls _ => rfl
  | param _ _ _ => rfl
  | _ => cases hs

theorem rulePlan_param {s : Ty} {c : ClassRef} (hs : s.raw? = some c) (owner : Option Ty)
    (raw : ClassRef) (args : List Ty) :
    rulePlan env s (.param owner raw args) = parameterizedPlan env s owner raw args := by
  cases s with
  | cls _ => rfl
  | param _ _ _ => rfl
  | _ => cases hs

/-- A rule carries out its plan. -/
theorem run_rulePlan (source target : Ty) :
    (rulePlan env source target).run below = rule env below source target := by
  cases hwild : target.isWildcard with
  | true =>
      cases target with
      | wild upper lower => exact Plan.run_any below _ lower
      | _ => cases hwild
  | false =>
      cases source with
      | wild upper lower =>
          cases target with
          | wild _ _ => cases hwild
          | _ => exact Plan.run_any below _ upper
      | var v =>
          cases target with
          | wild _ _ => cases hwild
          | _ => exact Plan.run_any below _ (env.bounds.effective v)
      | array component =>
          have hrule : rule env below (.array component) target =
              arrayRule env below component target := by
            cases target with
            | wild _ _ => cases hwild
            | _ => rfl
          rw [rulePlan_array hwild, hrule, run_arrayPlan]
      | cls c =>
          cases target with
          | wild _ _ => cases hwild
          | param owner raw args => exact run_parameterizedPlan (.cls c) owner raw args
          | array component =>
              unfold rulePlan rule
              simp only
              cases (Ty.cls c).component? <;> rfl
          | _ => rfl
      | param o r as =>
          cases target with
          | wild _ _ => cases hwild
          | param owner raw args => exact run_parameterizedPlan (.param o r as) owner raw args
          | _ => rfl

end

/-! ## Accepted plans -/

/-- A plan is accepted, with some questions open. A question is accepted if its
types are equal, if it is open, or if its own plan is; where a walk is cut off
nothing is asked. -/
inductive Accepted (env : Env) : List (Ty × Ty) → Plan → Prop where
  | answer {held} : Accepted env held (.answer true)
  | cut {held} : Accepted env held .cut
  | same {held s t} (h : Same s t) : Accepted env held (.ask s t)
  | assumed {held s t} (h : held.contains (s, t) = true) : Accepted env held (.ask s t)
  | rule {held s t} (h : Accepted env ((s, t) :: held) (rulePlan env s t)) :
      Accepted env held (.ask s t)
  | both {held p q} (hp : Accepted env held p) (hq : Accepted env held q) :
      Accepted env held (.both p q)
  | left {held p q} (h : Accepted env held p) : Accepted env held (.either p q)
  | right {held p q} (h : Accepted env held q) : Accepted env held (.either p q)

section

variable {env : Env} {held held' : List (Ty × Ty)} {p : Plan} {plans : List Plan}

/-- Open questions are taken to hold, so that more of them do no harm. -/
theorem Accepted.mono (h : Accepted env held p) (hheld : ∀ question ∈ held, question ∈ held') :
    Accepted env held' p := by
  induction h generalizing held' with
  | answer => exact .answer
  | cut => exact .cut
  | same h => exact .same h
  | assumed h =>
      rw [List.contains_eq_any_beq, List.any_eq_true] at h
      obtain ⟨question, hmem, hequal⟩ := h
      refine .assumed ?_
      rw [List.contains_eq_any_beq, List.any_eq_true]
      exact ⟨question, hheld question hmem, hequal⟩
  | @rule _ s t _ ih =>
      refine .rule (ih fun question hmem => ?_)
      rcases List.mem_cons.mp hmem with rfl | hmem
      · exact List.mem_cons_self
      · exact List.mem_cons_of_mem _ (hheld question hmem)
  | both _ _ ihp ihq => exact .both (ihp hheld) (ihq hheld)
  | left _ ih => exact .left (ih hheld)
  | right _ ih => exact .right (ih hheld)

theorem contains_cons {s t s' t' : Ty} : ((s', t') :: held).contains (s, t) = true ↔
    (Same s s' ∧ Same t t') ∨ held.contains (s, t) = true := by
  rw [List.contains_cons, Bool.or_eq_true]
  exact or_congr_left Bool.and_eq_true_iff

/-- Open questions that are accepted need not be open. -/
theorem Accepted.discharge (h : Accepted env held p)
    (hheld : ∀ s t, held.contains (s, t) = true → Accepted env held' (.ask s t)) :
    Accepted env held' p := by
  induction h generalizing held' with
  | answer => exact .answer
  | cut => exact .cut
  | same h => exact .same h
  | assumed h => exact hheld _ _ h
  | rule _ ih =>
      refine .rule (ih fun a b hab => ?_)
      rcases contains_cons.mp hab with hself | hold
      · exact .assumed (contains_cons.mpr (Or.inl hself))
      · exact (hheld a b hold).mono fun _ => List.mem_cons_of_mem _
  | both _ _ ihp ihq => exact .both (ihp hheld) (ihq hheld)
  | left _ ih => exact .left (ih hheld)
  | right _ ih => exact .right (ih hheld)

theorem accepted_all : Accepted env held (.all plans) ↔ ∀ p ∈ plans, Accepted env held p := by
  induction plans with
  | nil => exact iff_of_true .answer (List.forall_mem_nil _)
  | cons p plans ih =>
      rw [List.forall_mem_cons, ← ih]
      constructor
      · intro h
        cases h with
        | both hp hq => exact ⟨hp, hq⟩
      · rintro ⟨hp, hq⟩
        exact .both hp hq

theorem accepted_any : Accepted env held (.any plans) ↔ ∃ p ∈ plans, Accepted env held p := by
  induction plans with
  | nil =>
      refine iff_of_false (fun h => ?_) (by simp)
      cases h
  | cons p plans ih =>
      rw [List.exists_mem_cons_iff, ← ih]
      constructor
      · intro h
        cases h with
        | left h => exact Or.inl h
        | right h => exact Or.inr h
      · rintro (h | h)
        · exact .left h
        · exact .right h

/-! ## Carrying out a plan -/

theorem answers_or {m n : CheckM Bool} {S S' C C' : Prop} (hm : Answers held m S C)
    (hn : Answers held n S' C') :
    Answers held (do if ← m then return true else n) (S ∨ S') (C ∨ C') := by
  apply answers_bind hm
  intro b
  cases b with
  | true => exact answers_pure (fun _ hS => Or.inl (hS rfl)) fun _ => rfl
  | false =>
      refine hn.mono (fun hS' _ => Or.inr hS') ?_
      rintro ⟨hC | hC', hno⟩
      · exact absurd (hno hC) Bool.false_ne_true
      · exact hC'

/-- A plan whose questions are answered as they are accepted is itself answered so. -/
theorem answers_run {below : Asking} {Q : Prop}
    (hbelow : ∀ s t, Answers held (below s t) (Accepted env held (.ask s t))
      (Q ∧ Accepted env held (.ask s t))) (p : Plan) :
    Answers held (p.run below) (Accepted env held p) (Q ∧ Accepted env held p) := by
  induction p with
  | answer b =>
      refine answers_pure ?_ ?_
      · rintro rfl
        exact .answer
      · rintro ⟨-, h⟩
        cases h
        rfl
  | cut => exact answers_outOfSteps (k := fun _ => pure false) rfl
  | ask s t => exact hbelow s t
  | both p q ihp ihq =>
      refine (answers_and ihp ihq).mono (fun h => .both h.1 h.2) ?_
      rintro ⟨hQ, h⟩
      cases h with
      | both hp hq => exact ⟨⟨hQ, hp⟩, hQ, hq⟩
  | either p q ihp ihq =>
      refine (answers_or ihp ihq).mono (fun h => h.elim .left .right) ?_
      rintro ⟨hQ, h⟩
      cases h with
      | left hp => exact Or.inl ⟨hQ, hp⟩
      | right hq => exact Or.inr ⟨hQ, hq⟩

/-- A question is answered with yes if it is accepted, unless a limit is met, and
otherwise with no. -/
theorem answers_ask (levels : Nat) (held : List (Ty × Ty)) (s t : Ty) :
    Answers held (Verdict.accepts <$> checkWithin env levels s t) (Accepted env held (.ask s t))
      ((held.length ≤ Limits.subtypeDepth ∧ held.length + levels = Limits.subtypeDepth + 1) ∧
        Accepted env held (.ask s t)) := by
  induction levels generalizing held s t with
  | zero =>
      refine answers_pure (by simp [Verdict.accepts]) ?_
      rintro ⟨⟨hle, heq⟩, -⟩
      omega
  | succ levels ih =>
      by_cases hsame : (s == t) = true
      · have hrun : checkWithin env (levels + 1) s t = pure .holds := by
          rw [checkWithin, if_pos hsame]
        rw [hrun]
        exact answers_pure (fun _ => .same hsame) fun _ => rfl
      · have hplan := answers_run (ih ((s, t) :: held)) (rulePlan env s t)
        rw [run_rulePlan] at hplan
        refine answers_of_run fun c hc => ?_
        rw [run_checkWithin levels hsame]
        cases hjudge : c.guard.judge (s, t) with
        | entered =>
            have hdepth := Guard.length_of_entered hjudge
            have hnew := Guard.contains_of_entered hjudge
            rw [hc.held_eq] at hdepth hnew
            rw [hc.maxDepth_eq] at hdepth
            have hopen : Opened ((s, t) :: held)
                { c with guard := c.guard.record (s, t) .entered } :=
              ⟨congrArg ((s, t) :: ·) hc.held_eq, hc.maxDepth_eq⟩
            obtain ⟨hleft, hleave⟩ := opened_leave (hplan.keeps _ hopen)
            refine ⟨hleft, hleave ▸ hplan.hits_le _ hopen, fun hyes => ?_, ?_⟩
            · exact .rule (hplan.sound _ hopen hyes)
            · rintro hsum ⟨⟨hle, hlevels⟩, haccepted⟩
              have hlength : ((s, t) :: held).length ≤ Limits.subtypeDepth ∧
                  ((s, t) :: held).length + levels = Limits.subtypeDepth + 1 := by
                rw [List.length_cons]
                omega
              cases haccepted with
              | same h => exact absurd h hsame
              | assumed h =>
                  rw [hnew] at h
                  cases h
              | rule h => exact hplan.complete _ hopen (hleave ▸ hsum) ⟨hlength, h⟩
        | cycle =>
            have hheld := Guard.contains_of_cycle hjudge
            rw [hc.held_eq] at hheld
            exact ⟨⟨hc.held_eq, hc.maxDepth_eq⟩, le_refl _, fun _ => .assumed hheld, fun _ _ => rfl⟩
        | depthExceeded => exact answers_denied hc ⟨rfl, rfl⟩ (Nat.succ_add _ _)
        | iterationExceeded => exact answers_denied hc ⟨rfl, rfl⟩ (Nat.succ_add _ _)

/-- What is contained as an argument has an accepted plan. -/
theorem accepted_of_contains {s t : Ty} (h : (env.checkContains s t).ask = true) :
    Accepted env [] (containsPlan s t) := by
  have hplan : Answers [] ((containsPlan s t).run env.isSubtype)
      (Accepted env [] (containsPlan s t)) _ :=
    answers_run (answers_ask (Limits.subtypeDepth + 1) []) (containsPlan s t)
  rw [run_containsPlan] at hplan
  exact hplan.sound .fresh ⟨rfl, rfl⟩ h

/-- An accepted question is answered with yes, if no limit is met. -/
theorem isSubtype_of_accepted {s t : Ty} (h : Accepted env [] (.ask s t))
    (hhits : ((env.isSubtype s t).run .fresh).2.hits = 0) : (env.isSubtype s t).ask = true :=
  (answers_ask (Limits.subtypeDepth + 1) [] s t).complete .fresh ⟨rfl, rfl⟩ hhits
    ⟨⟨Nat.zero_le _, by simp⟩, h⟩

/-! ## Bounds of wildcards -/

theorem isWildcard_of_same {s t : Ty} (h : Same s t) : s.isWildcard = t.isWildcard := by
  cases s with
  | cls _ =>
      obtain ⟨_, rfl, -⟩ := Ty.same_cls.mp h
      rfl
  | param _ _ _ =>
      obtain ⟨_, _, _, rfl, -⟩ := Ty.same_param.mp h
      rfl
  | array _ =>
      obtain ⟨_, rfl, -⟩ := Ty.same_array.mp h
      rfl
  | wild _ _ =>
      obtain ⟨_, _, rfl, -⟩ := Ty.same_wild.mp h
      rfl
  | var _ =>
      obtain ⟨_, rfl, -⟩ := Ty.same_var.mp h
      rfl

theorem rulePlan_wild {upper lower : List Ty} {t : Ty} (ht : t.isWildcard = false) :
    rulePlan env (.wild upper lower) t = .any (upper.map fun bound => .ask bound t) := by
  cases t with
  | wild _ _ => cases ht
  | _ => rfl

theorem accepted_ask_of_mem {s t b : Ty} {bounds : List Ty} (hb : b ∈ bounds) (f : Ty → Plan)
    (hplan : rulePlan env s t = .any (bounds.map f)) (h : Accepted env ((s, t) :: held) (f b)) :
    Accepted env held (.ask s t) := by
  apply Accepted.rule
  rw [hplan]
  exact accepted_any.mpr ⟨f b, List.mem_map_of_mem hb, h⟩

/-- A question that implies the open one does not need it. -/
theorem accepted_of_open {s t s' t' : Ty} (hne : ¬(Same s' s ∧ Same t' t))
    (himplied : ∀ a b, Same a s → Same b t → Accepted env [(s', t')] (.ask a b))
    (h : Accepted env [(s, t)] (.ask s' t')) : Accepted env [] (.ask s' t') := by
  have hopen {question : Ty × Ty} {a b : Ty} (h : [question].contains (a, b) = true) :
      Same a question.1 ∧ Same b question.2 :=
    (contains_cons.mp h).resolve_right Bool.false_ne_true
  cases h with
  | same h => exact .same h
  | assumed h => exact absurd (hopen h) hne
  | rule h =>
      refine .rule (h.discharge fun a b hab => ?_)
      rcases contains_cons.mp hab with hself | hold
      · exact .assumed (contains_cons.mpr (Or.inl hself))
      · obtain ⟨ha, hb⟩ := hopen hold
        exact himplied a b ha hb

/-- What takes the upper bound of a wildcard takes the wildcard, and the other way round. -/
theorem accepted_upper {u t : Ty} {lower : List Ty} (hu : u.isWildcard = false)
    (ht : t.isWildcard = false) :
    Accepted env [] (.ask (.wild [u] lower) t) ↔ Accepted env [] (.ask u t) := by
  constructor
  · intro h
    cases h with
    | same h =>
        rw [← isWildcard_of_same h] at ht
        cases ht
    | assumed h => cases h
    | rule h =>
        rw [rulePlan_wild ht] at h
        obtain ⟨_, hmem, h⟩ := accepted_any.mp h
        obtain rfl := List.mem_singleton.mp hmem
        -- where the wildcard is met again, its bound is asked for, and is open by then
        refine accepted_of_open (fun hself => ?_) (fun a b ha hb => ?_) h
        · rw [isWildcard_of_same hself.1] at hu
          cases hu
        · cases a with
          | wild upper' lower' =>
              obtain ⟨_, _, heq, ⟨hlength, hupper⟩, -⟩ := Ty.same_wild.mp ha
              cases heq
              obtain ⟨u', rfl⟩ := List.length_eq_one_iff.mp hlength
              obtain ⟨_, hmem, hsame⟩ := hupper u' List.mem_cons_self
              obtain rfl := List.mem_singleton.mp hmem
              exact accepted_ask_of_mem List.mem_cons_self (fun bound => .ask bound b)
                (rulePlan_wild ((isWildcard_of_same hb).trans ht))
                (.assumed (contains_cons.mpr (Or.inr (contains_cons.mpr (Or.inl ⟨hsame, hb⟩)))))
          | _ => cases isWildcard_of_same ha
  · intro h
    exact accepted_ask_of_mem List.mem_cons_self (fun bound => .ask bound t) (rulePlan_wild ht)
      (h.mono (List.forall_mem_nil _))

/-- A wildcard takes what is below its lower bound. -/
theorem accepted_lower {s l : Ty} {upper : List Ty} (hs : s.isWildcard = false)
    (hl : l.isWildcard = false) :
    Accepted env [] (.ask s (.wild upper [l])) ↔ Accepted env [] (.ask s l) := by
  constructor
  · intro h
    cases h with
    | same h =>
        rw [isWildcard_of_same h] at hs
        cases hs
    | assumed h => cases h
    | rule h =>
        obtain ⟨_, hmem, h⟩ := accepted_any.mp h
        obtain rfl := List.mem_singleton.mp hmem
        refine accepted_of_open (fun hself => ?_) (fun a b ha hb => ?_) h
        · rw [isWildcard_of_same hself.2] at hl
          cases hl
        · cases b with
          | wild upper' lower' =>
              obtain ⟨_, _, heq, -, hlength, hlower⟩ := Ty.same_wild.mp hb
              cases heq
              obtain ⟨l', rfl⟩ := List.length_eq_one_iff.mp hlength
              obtain ⟨_, hmem, hsame⟩ := hlower l' List.mem_cons_self
              obtain rfl := List.mem_singleton.mp hmem
              exact accepted_ask_of_mem List.mem_cons_self (fun bound => .ask a bound) rfl
                (.assumed (contains_cons.mpr (Or.inr (contains_cons.mpr (Or.inl ⟨ha, hsame⟩)))))
          | _ => cases isWildcard_of_same hb
  · intro h
    exact accepted_ask_of_mem List.mem_cons_self (fun bound => .ask s bound) rfl
      (h.mono (List.forall_mem_nil _))

/-- A wildcard without a lower bound takes nothing else. -/
theorem not_accepted_upper {s : Ty} {upper : List Ty} (hs : s.isWildcard = false) :
    ¬Accepted env [] (.ask s (.wild upper [])) := by
  intro h
  cases h with
  | same h =>
      rw [isWildcard_of_same h] at hs
      cases hs
  | assumed h => cases h
  | rule h =>
      obtain ⟨_, hmem, -⟩ := accepted_any.mp h
      cases hmem

/-! ## Arrays -/

theorem accepted_containsPlan {s t : Ty} : Accepted env held (containsPlan s t) ↔
    Contained (fun a b => Accepted env held (.ask a b)) s t := by
  unfold containsPlan
  split
  · rename_i hsame
    exact iff_of_true .answer (.equal hsame)
  · rename_i hne
    cases t with
    | wild upper lower =>
        simp only
        constructor
        · intro h
          cases h with
          | both hupper hlower =>
              rw [accepted_all, List.forall_mem_map] at hupper hlower
              exact .bounds hupper hlower
        · intro h
          cases h with
          | equal h => exact absurd h hne
          | bounds hupper hlower =>
              exact .both (accepted_all.mpr (List.forall_mem_map.mpr hupper))
                (accepted_all.mpr (List.forall_mem_map.mpr hlower))
    | _ =>
        refine iff_of_false (fun h => ?_) fun h => ?_
        · cases h
        · cases h with
          | equal h => exact hne h

/-- An array is asked for by its component; two array classes are asked for as their
components are. -/
theorem rulePlan_arrayOf {s t : Ty} (hs : s.isWildcard = false) (ht : t.isWildcard = false) :
    rulePlan env s.arrayOf t.arrayOf = .ask s t ∨
      ∃ c d, s = .cls c ∧ t = .cls d ∧
        rulePlan env s.arrayOf t.arrayOf = rulePlan env s t := by
  cases s with
  | wild _ _ => cases hs
  | cls c =>
      cases t with
      | wild _ _ => cases ht
      | cls d =>
          refine Or.inr ⟨c, d, rfl, rfl, ?_⟩
          exact congrArg Plan.answer isSubclass_arrayOf
      | _ => exact Or.inl rfl
  | _ =>
      left
      cases t with
      | wild _ _ => cases ht
      | _ => rfl

/-- Arrays follow their components. -/
theorem accepted_arrayOf {s t : Ty} (hs : s.isWildcard = false) (ht : t.isWildcard = false)
    (hwritable : Same s t → s.Writable) (h : Accepted env [] (.ask s t)) :
    Accepted env [] (.ask s.arrayOf t.arrayOf) := by
  by_cases hsame : Same s t
  · exact .same (Ty.same_arrayOf (hwritable hsame) hsame)
  apply Accepted.rule
  rcases rulePlan_arrayOf hs ht with hplan | ⟨c, d, rfl, rfl, hplan⟩
  · rw [hplan]
    exact h.mono (List.forall_mem_nil _)
  · rw [hplan]
    cases h with
    | same h => exact absurd h hsame
    | assumed h => cases h
    | rule h =>
        -- the plan for two classes asks nothing
        have hplan : rulePlan env (.cls c) (.cls d) = .answer (env.isSubclass c d) := rfl
        rw [hplan] at h ⊢
        generalize env.isSubclass c d = b at h
        cases h
        exact .answer

end

end Generics.Subtyping
