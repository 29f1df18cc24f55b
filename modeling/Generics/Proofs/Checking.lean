import Generics.Proofs.Guard
import Generics.Proofs.Kinds
import Generics.Proofs.Rules

/-!
What the checker decides. Whatever limits it meets, a question that it answers
with yes holds by the rules; and when it met no limit, it answers with yes
every question that holds.

A computation of the checker is described by what a yes implies and by what
implies a yes when no limit is met. Both are stated for a fixed list of open
questions, which every computation leaves as it found it.
-/

namespace Generics

/-- How often a limit was met. -/
def Checker.hits (c : Checker) : Nat := c.guard.refusals + c.cutWalks

namespace Subtyping

/-- A checker of subtype questions with the given questions open. -/
structure Opened (held : List (Ty × Ty)) (c : Checker) : Prop where
  held_eq : c.guard.held = held
  maxDepth_eq : c.guard.maxDepth = Limits.subtypeDepth

/-- What a computation answers. -/
structure Answers (held : List (Ty × Ty)) (m : CheckM Bool) (sound complete : Prop) :
    Prop where
  keeps : ∀ c, Opened held c → Opened held (m.run c).2
  hits_le : ∀ c, Opened held c → c.hits ≤ (m.run c).2.hits
  sound : ∀ c, Opened held c → (m.run c).1 = true → sound
  complete : ∀ c, Opened held c → (m.run c).2.hits = c.hits → complete → (m.run c).1 = true

section

variable {held : List (Ty × Ty)} {m n : CheckM Bool} {S S' C C' : Prop}

theorem Answers.mono (h : Answers held m S C) (hS : S → S') (hC : C' → C) :
    Answers held m S' C' where
  keeps := h.keeps
  hits_le := h.hits_le
  sound := fun c hc hyes => hS (h.sound c hc hyes)
  complete := fun c hc hhits hcomplete => h.complete c hc hhits (hC hcomplete)

/-- The answer to one checker at a time. -/
theorem answers_of_run
    (h : ∀ c, Opened held c → Opened held (m.run c).2 ∧ c.hits ≤ (m.run c).2.hits ∧
      ((m.run c).1 = true → S) ∧ ((m.run c).2.hits = c.hits → C → (m.run c).1 = true)) :
    Answers held m S C where
  keeps := fun c hc => (h c hc).1
  hits_le := fun c hc => (h c hc).2.1
  sound := fun c hc => (h c hc).2.2.1
  complete := fun c hc => (h c hc).2.2.2

theorem answers_pure {b : Bool} (hS : b = true → S) (hC : C → b = true) :
    Answers held (pure b) S C where
  keeps := fun _ hc => hc
  hits_le := fun _ _ => le_refl _
  sound := fun _ _ => hS
  complete := fun _ _ _ => hC

theorem run_bind {α : Type} (m : CheckM Bool) (k : Bool → CheckM α) (c : Checker) :
    (m >>= k).run c = (k (m.run c).1).run (m.run c).2 := rfl

/-- Two computations, the second one chosen by the answer of the first. -/
theorem answers_bind {k : Bool → CheckM Bool} (hm : Answers held m S C)
    (hk : ∀ b, Answers held (k b) ((b = true → S) → S') (C' ∧ (C → b = true))) :
    Answers held (m >>= k) S' C' where
  keeps := fun c hc => (hk _).keeps _ (hm.keeps c hc)
  hits_le := fun c hc => (hm.hits_le c hc).trans ((hk _).hits_le _ (hm.keeps c hc))
  sound := by
    intro c hc hyes
    exact (hk _).sound _ (hm.keeps c hc) hyes (hm.sound c hc)
  complete := by
    intro c hc hhits hcomplete
    have hfirst := hm.hits_le c hc
    have hsecond := (hk (m.run c).1).hits_le _ (hm.keeps c hc)
    rw [run_bind] at hhits ⊢
    exact (hk _).complete _ (hm.keeps c hc) (by omega)
      ⟨hcomplete, hm.complete c hc (by omega)⟩

theorem answers_and (hm : Answers held m S C) (hn : Answers held n S' C') :
    Answers held (do if ← m then n else return false) (S ∧ S') (C ∧ C') := by
  apply answers_bind hm
  intro b
  cases b with
  | true => exact hn.mono (fun hS' hS => ⟨hS rfl, hS'⟩) fun hC => hC.1.2
  | false => exact answers_pure (by simp) fun hC => hC.2 hC.1.1

theorem answers_anyM {α : Type} {xs : List α} {f : α → CheckM Bool} {S C : α → Prop}
    (h : ∀ x ∈ xs, Answers held (f x) (S x) (C x)) :
    Answers held (xs.anyM f) (∃ x ∈ xs, S x) (∃ x ∈ xs, C x) := by
  induction xs with
  | nil => exact answers_pure (by simp) (by simp)
  | cons x xs ih =>
      have hxs := ih fun y hy => h y (List.mem_cons_of_mem x hy)
      apply answers_bind (h x List.mem_cons_self)
      intro b
      cases b with
      | true => exact answers_pure (fun _ hS => ⟨x, List.mem_cons_self, hS rfl⟩) fun _ => rfl
      | false =>
          refine hxs.mono ?_ ?_
          · rintro ⟨y, hy, hS⟩ -
            exact ⟨y, List.mem_cons_of_mem x hy, hS⟩
          · rintro ⟨⟨y, hy, hC⟩, hno⟩
            rcases List.mem_cons.mp hy with rfl | hrest
            · exact absurd (hno hC) (by simp)
            · exact ⟨y, hrest, hC⟩

theorem answers_allM {α : Type} {xs : List α} {f : α → CheckM Bool} {S C : α → Prop}
    (h : ∀ x ∈ xs, Answers held (f x) (S x) (C x)) :
    Answers held (xs.allM f) (∀ x ∈ xs, S x) (∀ x ∈ xs, C x) := by
  induction xs with
  | nil => exact answers_pure (by simp) (by simp)
  | cons x xs ih =>
      have hxs := ih fun y hy => h y (List.mem_cons_of_mem x hy)
      apply answers_bind (h x List.mem_cons_self)
      intro b
      cases b with
      | true =>
          refine hxs.mono ?_ ?_
          · intro hrest hx
            exact List.forall_mem_cons.mpr ⟨hx rfl, hrest⟩
          · rintro ⟨hall, -⟩
            exact (List.forall_mem_cons.mp hall).2
      | false =>
          refine answers_pure (by simp) ?_
          rintro ⟨hall, hx⟩
          exact hx (hall x List.mem_cons_self)

end

/-! ## One rule -/

section

open Vocabulary

variable {env : Env} {w : Vocabulary env} {held : List (Ty × Ty)} {below : Asking}
  {S C : Ty → Ty → Prop} {s t : Ty}

theorem answers_contains
    (hbelow : ∀ a b, w.Writes a → w.Writes b → Answers held (below a b) (S a b) (C a b))
    (hs : w.Writes s) (ht : w.Writes t) :
    Answers held (contains below s t) (Contained S s t) (Contained C s t) := by
  unfold contains
  split
  · rename_i hsame
    exact answers_pure (fun _ => .equal hsame) fun _ => rfl
  · rename_i hne
    split
    · rename_i upper lower
      obtain ⟨hupper, hlower⟩ := writes_bounds ht
      have huppers := answers_allM fun b hb => hbelow s b hs (hupper b hb)
      have hlowers := answers_allM fun b hb => hbelow b s (hlower b hb) hs
      refine (answers_and huppers hlowers).mono ?_ ?_
      · rintro ⟨hu, hl⟩
        exact .bounds hu hl
      · intro h
        cases h with
        | equal h => exact absurd h hne
        | bounds hu hl => exact ⟨hu, hl⟩
    · rename_i hwild
      refine answers_pure (by simp) ?_
      intro h
      cases h with
      | equal h => exact absurd h hne
      | bounds _ _ => exact absurd rfl (hwild _ _)

theorem answers_arrayRule
    (hbelow : ∀ a b, w.Writes a → w.Writes b → Answers held (below a b) (S a b) (C a b))
    {component : Ty} (hs : w.Writes (.array component)) (ht : w.Writes t)
    (hne : ¬(Ty.array component == t) = true) (hwild : t.isWildcard = false) :
    Answers held (arrayRule env below component t) (Rule env S (.array component) t)
      (Rule env C (.array component) t) := by
  have hcomponent : w.Writes component := by
    cases hs with
    | array h => exact h
  cases t with
  | cls c =>
      simp only [arrayRule]
      cases hc : c.component? with
      | some d =>
          have hd : w.Writes (.cls d) := by
            cases ht with
            | cls hclass => exact .cls (w.component _ hclass _ hc)
          refine (hbelow component (.cls d) hcomponent hd).mono (.toArrayClass hc) ?_
          intro h
          cases h with
          | equal h => exact absurd h hne
          | toArrayClass hc' h =>
              rw [hc] at hc'
              cases hc'
              exact h
          | aboveArrays hc' _ =>
              rw [hc] at hc'
              cases hc'
          | ancestor hraw _ => cases hraw
      | none =>
          refine answers_pure (.aboveArrays hc) ?_
          intro h
          cases h with
          | equal h => exact absurd h hne
          | toArrayClass hc' _ =>
              rw [hc] at hc'
              cases hc'
          | aboveArrays _ h => exact h
          | ancestor hraw _ => cases hraw
  | array component' =>
      have hcomponent' : w.Writes component' := by
        cases ht with
        | array h => exact h
      refine (hbelow component component' hcomponent hcomponent').mono .components ?_
      intro h
      cases h with
      | equal h => exact absurd h hne
      | components h => exact h
  | wild upper lower => cases hwild
  | param owner raw args =>
      refine answers_pure (by simp) ?_
      intro h
      cases h with
      | equal h => exact absurd h hne
      | parameterized hraw _ _ _ _ => cases hraw
  | var v =>
      refine answers_pure (by simp) ?_
      intro h
      cases h with
      | equal h => exact absurd h hne

theorem answers_ownerRule
    (hbelow : ∀ a b, w.Writes a → w.Writes b → Answers held (below a b) (S a b) (C a b))
    {view : Ty} {owner : Option Ty} (hview : w.Writes view)
    (howner : ∀ o ∈ owner, w.Writes o) (raw : ClassRef) :
    Answers held (ownerRule env below view owner raw) (Owned env S raw view owner)
      (Owned env C raw view owner) := by
  cases owner with
  | none => exact answers_pure (fun _ => .absent) fun _ => rfl
  | some owner =>
      simp only [ownerRule]
      split
      · rename_i hstatic
        exact answers_pure (fun _ => .static hstatic) fun _ => rfl
      · rename_i hinner
        split
        · rename_i viewOwner viewRaw viewArgs
          have hviewOwner : w.Writes viewOwner := by
            cases hview with
            | param h _ _ => exact h _ rfl
          refine (hbelow viewOwner owner hviewOwner (howner owner rfl)).mono (.inner rfl) ?_
          intro h
          cases h with
          | static h => exact absurd h hinner
          | inner hshape h =>
              cases hshape
              exact h
        · rename_i hshape
          refine answers_pure (by simp) ?_
          intro h
          cases h with
          | static h => exact absurd h hinner
          | inner hshape' _ => exact absurd hshape' (hshape _ _ _)

theorem viewArgs_writes {raw : ClassRef} {view : Ty} (hraw : w.isClass raw)
    (hview : w.Writes view) : ∀ t ∈ viewArgs env raw view, w.Writes t := by
  have hparameters : ∀ t ∈ (env.classes.parameters raw).map Ty.var, w.Writes t := by
    intro t ht
    obtain ⟨v, hv, rfl⟩ := List.mem_map.mp ht
    exact .var (w.parameters raw hraw v hv)
  cases hview with
  | param _ _ hargs => exact hargs
  | _ => exact hparameters

theorem answers_args
    (hbelow : ∀ a b, w.Writes a → w.Writes b → Answers held (below a b) (S a b) (C a b))
    {actuals formals : List Ty} (hactuals : ∀ t ∈ actuals, w.Writes t)
    (hformals : ∀ t ∈ formals, w.Writes t) (hlength : actuals.length = formals.length) :
    Answers held ((actuals.zip formals).allM fun pair => contains below pair.1 pair.2)
      (List.Forall₂ (Contained S) actuals formals)
      (List.Forall₂ (Contained C) actuals formals) := by
  have hpairs : ∀ pair ∈ actuals.zip formals,
      Answers held (contains below pair.1 pair.2) (Contained S pair.1 pair.2)
        (Contained C pair.1 pair.2) :=
    fun pair hpair => answers_contains hbelow (hactuals _ (List.of_mem_zip hpair).1)
      (hformals _ (List.of_mem_zip hpair).2)
  refine (answers_allM hpairs).mono ?_ ?_
  · intro hall
    exact List.forall₂_iff_zip.mpr ⟨hlength, fun hpair => hall _ hpair⟩
  · intro h pair hpair
    exact List.forall₂_zip h hpair

/-- A walk that is cut off is counted. -/
theorem answers_outOfSteps {S C : Prop} {k : Option Ty → CheckM Bool}
    (hk : k none = pure false) : Answers held (CheckM.ofOutcome .outOfSteps >>= k) S C := by
  have hrun : ∀ c : Checker, (CheckM.ofOutcome .outOfSteps >>= k).run c =
      (false, { c with cutWalks := c.cutWalks + 1 }) := by
    intro c
    change (k none).run _ = _
    rw [hk]
    rfl
  refine ⟨?_, ?_, ?_, ?_⟩
  · intro c hc
    rw [hrun]
    exact ⟨hc.held_eq, hc.maxDepth_eq⟩
  · intro c _
    rw [hrun]
    exact Nat.le_succ c.hits
  · intro c _ hyes
    rw [hrun] at hyes
    cases hyes
  · intro c _ hhits
    rw [hrun] at hhits
    exact absurd hhits (Nat.succ_ne_self c.hits)

theorem answers_parameterizedRule
    (hbelow : ∀ a b, w.Writes a → w.Writes b → Answers held (below a b) (S a b) (C a b))
    {c raw : ClassRef} {owner : Option Ty} {args : List Ty} (hs : w.Writes s)
    (ht : w.Writes (.param owner raw args)) (hsource : s.raw? = some c)
    (hne : ¬(s == .param owner raw args) = true) :
    Answers held (parameterizedRule env below s owner raw args)
      (Rule env S s (.param owner raw args)) (Rule env C s (.param owner raw args)) := by
  obtain ⟨howner, hraw, hargs⟩ : (∀ o ∈ owner, w.Writes o) ∧ w.isClass raw ∧
      ∀ a ∈ args, w.Writes a := by
    cases ht with
    | param howner hraw hargs => exact ⟨howner, hraw, hargs⟩
  have hrule : Rule env C s (.param owner raw args) → env.isSubclass c raw = true ∧
      ∃ view, env.View s raw view ∧
        List.Forall₂ (Contained C) (viewArgs env raw view) args ∧
        Owned env C raw view owner := by
    intro h
    cases h with
    | equal h => exact absurd h hne
    | upper _ _ _ => cases hsource
    | bound _ _ _ => cases hsource
    | parameterized hsource' hsub hview hargs howner =>
        obtain rfl := Option.some.inj (hsource.symm.trans hsource')
        exact ⟨hsub, _, hview, hargs, howner⟩
  simp only [parameterizedRule, Env.erase_of_raw? hsource]
  cases hsub : env.isSubclass c raw with
  | false =>
      refine answers_pure (by simp) ?_
      intro h
      exact absurd (hrule h).1 (by simp [hsub])
  | true =>
      have hfound : ∀ view, env.View s raw view →
          env.viewAs s raw = .found view ∨ env.viewAs s raw = .outOfSteps :=
        fun view => Env.viewAs_of_view (viewStep_faithful (w := w) raw) (viewStart_writes hs)
      cases hviewAs : env.viewAs s raw with
      | outOfSteps => exact answers_outOfSteps rfl
      | missing =>
          refine answers_pure (by simp) ?_
          intro h
          obtain ⟨-, view, hview, -⟩ := hrule h
          rcases hfound view hview with hfound | hout
          · rw [hviewAs] at hfound
            cases hfound
          · rw [hviewAs] at hout
            cases hout
      | found view =>
          have hview : env.View s raw view :=
            Env.view_of_viewAs (viewStep_faithful (w := w) raw) (viewStart_writes hs) hviewAs
          have hwrites := view_writes hs hview
          change Answers held (viewRule env below view owner raw args) _ _
          unfold viewRule
          split
          · rename_i hlength
            refine answers_pure (by simp) ?_
            intro h
            obtain ⟨-, view', hview', hargs', -⟩ := hrule h
            rw [Env.view_unique hview hview'] at hlength
            exact absurd hargs'.length_eq hlength
          · rename_i hlength
            have hbody := answers_and
              (answers_args hbelow (viewArgs_writes hraw hwrites) hargs
                (not_not.mp hlength))
              (answers_ownerRule hbelow hwrites howner raw)
            refine hbody.mono ?_ ?_
            · rintro ⟨ha, ho⟩
              exact .parameterized hsource hsub hview ha ho
            · intro h
              obtain ⟨-, view', hview', hargs', howner'⟩ := hrule h
              rw [Env.view_unique hview hview']
              exact ⟨hargs', howner'⟩

section

variable {c : ClassRef} (hsource : s.raw? = some c)

include hsource

/-- A class target asks for raw ancestry. -/
theorem rule_toClass (d : ClassRef) : rule env below s (.cls d) = pure (env.isSubclass c d) := by
  have herase : env.erase s = c := Env.erase_of_raw? hsource
  subst herase
  cases s with
  | cls _ => rfl
  | param _ _ _ => rfl
  | _ => cases hsource

theorem rule_toParameterized (owner : Option Ty) (raw : ClassRef) (args : List Ty) :
    rule env below s (.param owner raw args) = parameterizedRule env below s owner raw args := by
  cases s with
  | cls _ => rfl
  | param _ _ _ => rfl
  | _ => cases hsource

theorem rule_toVariable (v : TyVar) : rule env below s (.var v) = pure false := by
  cases s with
  | cls _ => rfl
  | param _ _ _ => rfl
  | _ => cases hsource

end

/-- Below a generic array there are array classes only. -/
theorem answers_toArray
    (hbelow : ∀ a b, w.Writes a → w.Writes b → Answers held (below a b) (S a b) (C a b))
    {c : ClassRef} {component : Ty} (hs : w.Writes s) (hcomponent : w.Writes component)
    (hsource : s.raw? = some c) (hne : ¬(s == .array component) = true) :
    Answers held (rule env below s (.array component)) (Rule env S s (.array component))
      (Rule env C s (.array component)) := by
  cases s with
  | cls e =>
      simp only [rule, Ty.component?]
      cases hc : e.component? with
      | some d =>
          have hd : w.Writes (.cls d) := by
            cases hs with
            | cls hclass => exact .cls (w.component _ hclass _ hc)
          refine (hbelow (.cls d) component hd hcomponent).mono (.ofArrayClass hc) ?_
          intro h
          cases h with
          | equal h => exact absurd h hne
          | ofArrayClass hc' h =>
              rw [hc] at hc'
              cases hc'
              exact h
      | none =>
          refine answers_pure (by simp) ?_
          intro h
          cases h with
          | equal h => exact absurd h hne
          | ofArrayClass hc' _ =>
              rw [hc] at hc'
              cases hc'
  | param _ _ _ =>
      refine answers_pure (by simp) ?_
      intro h
      cases h with
      | equal h => exact absurd h hne
  | _ => cases hsource

theorem answers_ofRaw
    (hbelow : ∀ a b, w.Writes a → w.Writes b → Answers held (below a b) (S a b) (C a b))
    {c : ClassRef} (hs : w.Writes s) (ht : w.Writes t) (hsource : s.raw? = some c)
    (hne : ¬(s == t) = true) (hwild : t.isWildcard = false) :
    Answers held (rule env below s t) (Rule env S s t) (Rule env C s t) := by
  cases t with
  | cls d =>
      rw [rule_toClass hsource]
      refine answers_pure (.ancestor hsource) ?_
      intro h
      cases h with
      | equal h => exact absurd h hne
      | upper _ _ _ => cases hsource
      | bound _ _ _ => cases hsource
      | toArrayClass _ _ => cases hsource
      | aboveArrays _ _ => cases hsource
      | ancestor hsource' h =>
          obtain rfl := Option.some.inj (hsource.symm.trans hsource')
          exact h
  | param owner raw args =>
      rw [rule_toParameterized hsource]
      exact answers_parameterizedRule hbelow hs ht hsource hne
  | array component =>
      have hcomponent : w.Writes component := by
        cases ht with
        | array h => exact h
      exact answers_toArray hbelow hs hcomponent hsource hne
  | wild upper lower => cases hwild
  | var v =>
      rw [rule_toVariable hsource]
      refine answers_pure (by simp) ?_
      intro h
      cases h with
      | equal h => exact absurd h hne
      | upper _ _ _ => cases hsource
      | bound _ _ _ => cases hsource

/-- Asking by the rule answers by the rule. -/
theorem answers_rule
    (hbelow : ∀ a b, w.Writes a → w.Writes b → Answers held (below a b) (S a b) (C a b))
    (hs : w.Writes s) (ht : w.Writes t) (hne : ¬(s == t) = true) :
    Answers held (rule env below s t) (Rule env S s t) (Rule env C s t) := by
  cases hwild : t.isWildcard with
  | true =>
      cases t with
      | wild upper lower =>
          refine (answers_anyM fun b hb => hbelow s b hs ((writes_bounds ht).2 b hb)).mono ?_ ?_
          · rintro ⟨b, hb, h⟩
            exact .lower hb h
          · intro h
            cases h with
            | equal h => exact absurd h hne
            | lower hb h => exact ⟨_, hb, h⟩
            | upper hwild' _ _ => cases hwild'
            | bound hwild' _ _ => cases hwild'
      | _ => cases hwild
  | false =>
      cases s with
      | cls c => exact answers_ofRaw hbelow hs ht rfl hne hwild
      | param owner raw args => exact answers_ofRaw hbelow hs ht rfl hne hwild
      | array component =>
          have hrule : rule env below (.array component) t =
              arrayRule env below component t := by
            cases t with
            | wild _ _ => cases hwild
            | _ => rfl
          rw [hrule]
          exact answers_arrayRule hbelow hs ht hne hwild
      | wild upper lower =>
          have hrule : rule env below (.wild upper lower) t =
              upper.anyM fun b => below b t := by
            cases t with
            | wild _ _ => cases hwild
            | _ => rfl
          rw [hrule]
          refine (answers_anyM fun b hb => hbelow b t ((writes_bounds hs).1 b hb) ht).mono ?_ ?_
          · rintro ⟨b, hb, h⟩
            exact .upper hwild hb h
          · intro h
            cases h with
            | equal h => exact absurd h hne
            | lower _ _ => cases hwild
            | upper _ hb h => exact ⟨_, hb, h⟩
            | ancestor hraw _ => cases hraw
            | parameterized hraw _ _ _ _ => cases hraw
      | var v =>
          have hv : w.isVar v := by
            cases hs with
            | var hv => exact hv
          have hrule : rule env below (.var v) t =
              (env.bounds.effective v).anyM fun b => below b t := by
            cases t with
            | wild _ _ => cases hwild
            | _ => rfl
          rw [hrule]
          refine (answers_anyM fun b hb => hbelow b t (effective_writes hv b hb) ht).mono ?_ ?_
          · rintro ⟨b, hb, h⟩
            exact .bound hwild hb h
          · intro h
            cases h with
            | equal h => exact absurd h hne
            | lower _ _ => cases hwild
            | bound _ hb h => exact ⟨_, hb, h⟩
            | ancestor hraw _ => cases hraw
            | parameterized hraw _ _ _ _ => cases hraw

end

/-! ## Questions -/

section

open Vocabulary

variable {env : Env} {w : Vocabulary env} {s t : Ty} {held : List (Ty × Ty)}

/-- Leaving the question that was entered last. -/
theorem opened_leave {c : Checker} {question : Ty × Ty} (hc : Opened (question :: held) c) :
    Opened held { c with guard := c.guard.leave question } ∧
      Checker.hits { c with guard := c.guard.leave question } = c.hits := by
  refine ⟨⟨Guard.held_leave hc.held_eq, ?_⟩, ?_⟩
  · exact (Guard.maxDepth_leave c.guard question).trans hc.maxDepth_eq
  · exact congrArg (· + c.cutWalks) (Guard.refusals_leave c.guard question)

theorem accepts_ofBool (b : Bool) : (Verdict.ofBool b).accepts = b := by
  cases b <;> rfl

/-- The verdict on a question between different types, by what the guard says to it. -/
theorem run_verdict (levels : Nat) (hne : ¬(s == t) = true) (c : Checker) :
    (checkWithin env (levels + 1) s t).run c =
      match c.guard.judge (s, t) with
      | .entered =>
        let r := (rule env (fun a b => Verdict.accepts <$> checkWithin env levels a b) s t).run
          { c with guard := c.guard.record (s, t) .entered }
        (.ofBool r.1, { r.2 with guard := r.2.guard.leave (s, t) })
      | .cycle => (.assumed, { c with guard := c.guard.record (s, t) .cycle })
      | denied => (.fails, { c with guard := c.guard.record (s, t) denied }) := by
  have henter : (CheckM.enter (s, t)).run c =
      (c.guard.judge (s, t), { c with guard := c.guard.record (s, t) (c.guard.judge (s, t)) }) :=
    rfl
  rw [checkWithin, if_neg hne]
  simp only [StateT.run_bind, henter]
  cases c.guard.judge (s, t) <;> rfl

/-- A question between different types, by what the guard says to it. -/
theorem run_checkWithin (levels : Nat) (hne : ¬(s == t) = true) (c : Checker) :
    (Verdict.accepts <$> checkWithin env (levels + 1) s t).run c =
      match c.guard.judge (s, t) with
      | .entered =>
        let r := (rule env (fun a b => Verdict.accepts <$> checkWithin env levels a b) s t).run
          { c with guard := c.guard.record (s, t) .entered }
        (r.1, { r.2 with guard := r.2.guard.leave (s, t) })
      | .cycle => (true, { c with guard := c.guard.record (s, t) .cycle })
      | denied => (false, { c with guard := c.guard.record (s, t) denied }) := by
  change (Verdict.accepts ((checkWithin env (levels + 1) s t).run c).1,
    ((checkWithin env (levels + 1) s t).run c).2) = _
  rw [run_verdict levels hne]
  cases c.guard.judge (s, t) with
  | entered =>
      simp only
      rw [accepts_ofBool]
  | cycle => rfl
  | depthExceeded => rfl
  | iterationExceeded => rfl

/-- A question that a limit turns down is answered with no, and counted. -/
theorem answers_denied {c c' : Checker} {S C : Prop} (hc : Opened held c)
    (hguard : c'.guard.held = c.guard.held ∧ c'.guard.maxDepth = c.guard.maxDepth)
    (hhits : c'.hits = c.hits + 1) :
    Opened held c' ∧ c.hits ≤ c'.hits ∧ (false = true → S) ∧
      (c'.hits = c.hits → C → false = true) := by
  refine ⟨⟨hguard.1.trans hc.held_eq, hguard.2.trans hc.maxDepth_eq⟩, by omega, by simp, ?_⟩
  intro heq
  omega

theorem answers_checkWithin (levels : Nat) (held : List (Ty × Ty)) (hs : w.Writes s)
    (ht : w.Writes t) :
    Answers held (Verdict.accepts <$> checkWithin env levels s t) (Assuming w held s t)
      (held.length ≤ Limits.subtypeDepth ∧
        held.length + levels = Limits.subtypeDepth + 1 ∧ Holds env s t) := by
  induction levels generalizing held s t with
  | zero =>
      refine answers_pure (by simp [Verdict.accepts]) ?_
      rintro ⟨hle, heq, -⟩
      omega
  | succ levels ih =>
      by_cases hsame : (s == t) = true
      · have hrun : checkWithin env (levels + 1) s t = pure .holds := by
          rw [checkWithin, if_pos hsame]
        rw [hrun]
        exact answers_pure (fun _ => assuming_of_rule hs ht (.equal hsame)) fun _ => rfl
      · have hrule := answers_rule
          (fun a b ha hb => ih ((s, t) :: held) (s := a) (t := b) ha hb) hs ht hsame
        refine answers_of_run fun c hc => ?_
        rw [run_checkWithin levels hsame]
        cases hjudge : c.guard.judge (s, t) with
        | entered =>
            have hdepth := Guard.length_of_entered hjudge
            rw [hc.held_eq, hc.maxDepth_eq] at hdepth
            have hopen : Opened ((s, t) :: held)
                { c with guard := c.guard.record (s, t) .entered } :=
              ⟨congrArg ((s, t) :: ·) hc.held_eq, hc.maxDepth_eq⟩
            have hhits := hrule.hits_le _ hopen
            obtain ⟨hleft, hleave⟩ := opened_leave (hrule.keeps _ hopen)
            refine ⟨hleft, hleave ▸ hhits, ?_, ?_⟩
            · intro hyes
              exact assuming_of_open hs ht (hrule.sound _ hopen hyes)
            · rintro hsum ⟨hle, hlevels, hholds⟩
              refine hrule.complete _ hopen (hleave ▸ hsum) (hholds.rule.mono ?_)
              intro a b hab
              refine ⟨?_, ?_, hab⟩
              · simp only [List.length_cons]
                omega
              · simp only [List.length_cons]
                omega
        | cycle =>
            have hheld := Guard.contains_of_cycle hjudge
            rw [hc.held_eq] at hheld
            exact ⟨⟨hc.held_eq, hc.maxDepth_eq⟩, le_refl _,
              fun _ => assuming_of_held hs ht hheld, fun _ _ => rfl⟩
        | depthExceeded => exact answers_denied hc ⟨rfl, rfl⟩ (Nat.succ_add _ _)
        | iterationExceeded => exact answers_denied hc ⟨rfl, rfl⟩ (Nat.succ_add _ _)

/-! ## The answer -/

theorem answers_isSubtype (hs : w.Writes s) (ht : w.Writes t) :
    Answers [] (env.isSubtype s t) (Holds env s t) (Holds env s t) :=
  (answers_checkWithin (Limits.subtypeDepth + 1) [] hs ht).mono holds_of_assuming
    fun h => ⟨Nat.zero_le _, by simp, h⟩

theorem holds_of_isSubtype (hs : w.Writes s) (ht : w.Writes t)
    (h : ((env.isSubtype s t).run .fresh).1 = true) : Holds env s t :=
  (answers_isSubtype hs ht).sound _ ⟨rfl, rfl⟩ h

theorem isSubtype_of_holds (hs : w.Writes s) (ht : w.Writes t)
    (hhits : ((env.isSubtype s t).run .fresh).2.hits = 0) (h : Holds env s t) :
    ((env.isSubtype s t).run .fresh).1 = true :=
  (answers_isSubtype hs ht).complete _ ⟨rfl, rfl⟩ hhits h

/-- A question that is answered with yes holds by the rules, and when no limit
is met, every question that holds is answered with yes. -/
theorem isSubtype_iff_holds (w : Vocabulary env) (hs : w.Writes s) (ht : w.Writes t) :
    let (answer, c) := (env.isSubtype s t).run .fresh
    (answer = true → Holds env s t) ∧ (c.hits = 0 → (answer = true ↔ Holds env s t)) :=
  ⟨holds_of_isSubtype hs ht, fun hhits =>
    ⟨holds_of_isSubtype hs ht, isSubtype_of_holds hs ht hhits⟩⟩

/-- Two variables of a method that bound each other. -/
def swapVars : TyVar × TyVar :=
  (⟨0, .synthetic "swap", "T"⟩, ⟨1, .synthetic "swap", "U"⟩)

def swapEnv : Env := ⟨.core, ⟨#[some [.var swapVars.2], some [.var swapVars.1]]⟩⟩

theorem swapEnv_regular :
    swapEnv.Regular swapEnv.classes.handle [swapVars.1, swapVars.2] :=
  Env.regular_of_isRegular (by decide)

/-- Bounds that lead in a circle are below every class. -/
theorem isSubtype_iff_holds_swap :
    let w := Vocabulary.ofRegular swapEnv_regular
    let s := Ty.var swapVars.1
    let t := Ty.cls (.named "java.lang.String" .ordinary)
    (w.Writes s ∧ w.Writes t) ∧ ((swapEnv.isSubtype s t).run .fresh).2.hits = 0 ∧
      Holds swapEnv s t := by
  have hs : (Vocabulary.ofRegular swapEnv_regular).Writes (.var swapVars.1) :=
    .var (show swapVars.1.isListed _ = true by decide)
  have ht : (Vocabulary.ofRegular swapEnv_regular).Writes
      (.cls (.named "java.lang.String" .ordinary)) :=
    .cls (show ClassRef.isRegular _ _ = true by decide)
  have hanswer := isSubtype_iff_holds (Vocabulary.ofRegular swapEnv_regular) hs ht
  have hhits : ((swapEnv.isSubtype (.var swapVars.1)
      (.cls (.named "java.lang.String" .ordinary))).run .fresh).2.hits = 0 := by
    decide
  exact ⟨⟨hs, ht⟩, hhits, (hanswer.2 hhits).mp (by decide)⟩

end

end Subtyping

namespace Env

open Subtyping

variable {env : Env} {w : Vocabulary env} {s t : Ty}

/-- Between types that are no wildcards assignability asks for subtyping. -/
theorem checkAssignable_eq (ht : t.isWildcard = false) (hs : s.isWildcard = false) :
    env.checkAssignable t s = env.isSubtype s t := by
  cases t with
  | wild _ _ => cases ht
  | _ => simp [checkAssignable, hs]

theorem holds_of_isAssignable (hs : w.Writes s) (ht : w.Writes t) (hswild : s.isWildcard = false)
    (htwild : t.isWildcard = false) (h : env.isAssignable t s = true) : Holds env s t := by
  rw [isAssignable, checkAssignable_eq htwild hswild] at h
  exact holds_of_isSubtype hs ht h

theorem isAssignable_of_holds (hs : w.Writes s) (ht : w.Writes t) (hswild : s.isWildcard = false)
    (htwild : t.isWildcard = false) (hhits : ((env.checkAssignable t s).run .fresh).2.hits = 0)
    (h : Holds env s t) : env.isAssignable t s = true := by
  rw [checkAssignable_eq htwild hswild] at hhits
  rw [isAssignable, checkAssignable_eq htwild hswild]
  exact isSubtype_of_holds hs ht hhits h

end Env

end Generics
