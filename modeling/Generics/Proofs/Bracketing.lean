import Generics.Proofs.Collecting
import Generics.Proofs.Plans
import Generics.Proofs.Visiting
import Generics.Substitution.Covariant
import Generics.Visit.Occurrence
import Generics.Visit.RawTypes

/-!
Every recursion closes what it opened. What is done on a guard is bracketed if each key
that is entered is left again, once and while it is held, after everything that was entered
later; an attempt that is turned down leaves nothing to close. Bracketed work gives the held
keys back as they were and leaves no key that is not held.

Visits, questions to a checker and the collecting of supertypes each enter a key at one
place. There the work in between is bracketed because the recursive calls are, however they
end; so a guard of their own is empty when they return.
-/

namespace Generics

namespace Guard

variable {κ : Type} [BEq κ]

/-- From one guard to another by work in which every key that is entered is left again. -/
inductive Bracketed : Guard κ → Guard κ → Prop where
  | idle (g) : Bracketed g g
  /-- A key that is held already, or that a limit turns down, is not left. -/
  | denied {g g'} (key) (hdenied : g.judge key ≠ .entered)
      (hrest : Bracketed (g.enter key).2 g') : Bracketed g g'
  /-- A key that is entered is held when it is left. -/
  | closed {g inner left g'} (key) (hentered : g.judge key = .entered)
      (hwork : Bracketed (g.enter key).2 inner) (hleave : inner.leave? key = some left)
      (hrest : Bracketed left g') : Bracketed g g'

namespace Bracketed

variable {g g' g'' inner : Guard κ} {key : κ}

theorem trans (h : Bracketed g g') (h' : Bracketed g' g'') : Bracketed g g'' := by
  induction h with
  | idle _ => exact h'
  | denied key hdenied _ ih => exact .denied key hdenied (ih h')
  | closed key hentered hwork hleave _ _ ih => exact .closed key hentered hwork hleave (ih h')

/-- Nothing stays held, and nothing that was held before is left. -/
theorem held_eq [ReflBEq κ] (h : Bracketed g g') : g'.held = g.held := by
  induction h with
  | idle _ => rfl
  | denied key hdenied _ ih => exact ih.trans (held_enter_of_ne hdenied)
  | @closed g inner left _ key hentered _ hleave _ ihwork ihrest =>
      have hheld : inner.held = key :: g.held := ihwork.trans (held_enter hentered)
      have hleft : inner.leave key = left := by rw [leave, hleave, Option.getD_some]
      exact ihrest.trans (hleft ▸ held_leave hheld)

/-- No key is left that is not held. -/
theorem strays_eq (h : Bracketed g g') : g'.strays = g.strays := by
  induction h with
  | idle _ => rfl
  | denied key _ _ ih => exact ih.trans (strays_enter _ key)
  | @closed g inner left _ key _ _ hleave _ ihwork ihrest =>
      have hleft : left.strays = inner.strays := by
        unfold leave? at hleave
        split at hleave
        · cases hleave
          rfl
        · cases hleave
      exact ihrest.trans (hleft.trans (ihwork.trans (strays_enter g key)))

theorem turnedDown (g : Guard κ) (key : κ) (hdenied : g.judge key ≠ .entered) :
    Bracketed g (g.record key (g.judge key)) :=
  .denied key hdenied (.idle _)

/-- After bracketed work the key that was entered before is there to be left. -/
theorem entered [ReflBEq κ] (hentered : g.judge key = .entered)
    (hwork : Bracketed (g.record key .entered) inner) : Bracketed g (inner.leave key) := by
  have henter : (g.enter key).2 = g.record key .entered := by
    change g.record key (g.judge key) = _
    rw [hentered]
  have hcontains : inner.held.contains key = true := by
    rw [hwork.held_eq]
    change (key :: g.held).contains key = true
    rw [List.contains_cons, BEq.rfl, Bool.true_or]
  refine .closed key hentered (henter ▸ hwork) ?_ (.idle _)
  rw [leave, leave?, if_pos hcontains, Option.getD_some]

end Bracketed

/-- A guard that was used from the start, and that may be given up. -/
structure Settled (profile : Profile) (g : Guard κ) : Prop where
  bracketed : Bracketed (.ofProfile profile) g
  held_eq : g.held = []
  strays_eq : g.strays = 0
  dropFault?_eq : g.dropFault? = none

theorem Bracketed.settled [ReflBEq κ] {profile : Profile} {g : Guard κ}
    (h : Bracketed (.ofProfile profile) g) : g.Settled profile := by
  have hheld : g.held = [] := h.held_eq
  refine ⟨h, hheld, h.strays_eq, ?_⟩
  rw [dropFault?, isActive, hheld]
  rfl

end Guard

open Guard (Bracketed)

/-! ## Visits -/

section

variable {σ : Type} {handle : Handler σ}

/-- A handler that does bracketed work, when the visits that it makes do so. -/
def Handler.Brackets (handle : Handler σ) : Prop :=
  ∀ visit : Ty → Visit σ → Visit σ, (∀ t s, Bracketed s.guard (visit t s).guard) →
    ∀ t s, Bracketed s.guard (handle visit t s).guard

namespace Visit

theorem bracketed_foldl {α : Type} {f : Visit σ → α → Visit σ}
    (hf : ∀ s a, Bracketed s.guard (f s a).guard) (items : List α) (s : Visit σ) :
    Bracketed s.guard (items.foldl f s).guard := by
  induction items generalizing s with
  | nil => exact .idle _
  | cons a items ih => exact (hf s a).trans (ih (f s a))

theorem bracketed_all {visit : Ty → Visit σ → Visit σ}
    (hvisit : ∀ t s, Bracketed s.guard (visit t s).guard) (ts : List Ty) (s : Visit σ) :
    Bracketed s.guard (all visit ts s).guard :=
  bracketed_foldl (fun s t => hvisit t s) ts s

/-- One visit leaves the type that it entered, whatever the handler did. -/
theorem bracketed_within (h : handle.Brackets) (levels : Nat) (t : Ty) (s : Visit σ) :
    Bracketed s.guard (within handle levels t s).guard := by
  induction levels generalizing t s with
  | zero => exact .idle _
  | succ levels ih =>
      have hdenied := Bracketed.turnedDown s.guard t
      rw [within_succ]
      cases hjudge : s.guard.judge t with
      | entered => exact .entered hjudge (h _ ih t (s.opened t))
      | _ =>
          rw [hjudge] at hdenied
          exact hdenied (by simp)

theorem settled_run (h : handle.Brackets) (profile : Profile) (ts : List Ty) (acc : σ) :
    (run handle profile ts acc).guard.Settled profile :=
  (bracketed_all (bracketed_within h _) ts (start profile acc)).settled

end Visit

open Visit

theorem brackets_rawTypeHandler (env : Env) (componentRaws : Ty → List ClassRef) :
    (env.rawTypeHandler componentRaws).Brackets := by
  intro visit hvisit t s
  cases t with
  | wild upper _ => exact bracketed_all hvisit upper s
  | var v => exact bracketed_all hvisit (env.bounds.effective v) s
  | _ => exact .idle _

theorem bracketed_occurrenceInArgs {visit : Ty → Visit Bool → Visit Bool}
    (hvisit : ∀ t s, Bracketed s.guard (visit t s).guard) (ts : List Ty) (s : Visit Bool) :
    Bracketed s.guard (Ty.occurrenceInArgs visit ts s).guard := by
  induction ts generalizing s with
  | nil => exact .idle _
  | cons t ts ih =>
      rw [Ty.occurrenceInArgs]
      split
      · exact .idle _
      · exact (hvisit t s).trans (ih (visit t s))

theorem brackets_occurrenceHandler (v : TyVar) : (Ty.occurrenceHandler v).Brackets := by
  intro visit hvisit t s
  cases t with
  | cls _ => exact .idle _
  | param owner _ args =>
      exact (bracketed_all hvisit owner.toList s).trans (bracketed_occurrenceInArgs hvisit args _)
  | array component => exact hvisit component s
  | wild upper lower =>
      exact (bracketed_all hvisit upper s).trans (bracketed_all hvisit lower _)
  | var w =>
      rw [Ty.occurrenceHandler]
      split <;> exact .idle _

theorem brackets_covariantHandler (env : Env) : env.covariantHandler.Brackets := by
  intro visit hvisit t s
  have hedges (c : ClassRef) (s : Visit Substitution) :
      Bracketed s.guard (env.visitEdges visit c s).guard :=
    bracketed_foldl (fun s (edge : Ty) => hvisit (edge.subst s.acc) s)
      (env.classes.directSupertypes c) s
  cases t with
  | cls c => exact hedges c s
  | param owner raw _ => exact (hedges raw (s.modify _)).trans (bracketed_all hvisit owner.toList _)
  | array _ => exact .idle _
  | wild upper _ => exact bracketed_all hvisit upper s
  | var v => exact bracketed_all hvisit (env.bounds.effective v) s

end

/-! ## Questions -/

/-- A computation that leaves every question that it enters. -/
def CheckM.Brackets {β : Type} (m : CheckM β) : Prop :=
  ∀ c, Bracketed c.guard (m.run c).2.guard

namespace Subtyping

open CheckM

variable {env : Env} {below : Asking}

theorem brackets_pure {β : Type} (b : β) : Brackets (pure b) := fun c => .idle c.guard

theorem brackets_bind {β γ : Type} {m : CheckM β} {k : β → CheckM γ} (hm : Brackets m)
    (hk : ∀ b, Brackets (k b)) : Brackets (m >>= k) := by
  intro c
  exact (hm c).trans (hk (m.run c).1 (m.run c).2)

theorem brackets_map {β γ : Type} (f : β → γ) {m : CheckM β} (hm : Brackets m) :
    Brackets (f <$> m) := hm

theorem brackets_run (hbelow : ∀ s t, Brackets (below s t)) (p : Plan) :
    Brackets (p.run below) := by
  induction p with
  | answer b => exact brackets_pure b
  | cut => exact fun c => .idle c.guard
  | ask s t => exact hbelow s t
  | both p q ihp ihq =>
      refine brackets_bind ihp fun b => ?_
      cases b with
      | true => exact ihq
      | false => exact brackets_pure false
  | either p q ihp ihq =>
      refine brackets_bind ihp fun b => ?_
      cases b with
      | true => exact brackets_pure true
      | false => exact ihq

/-- A question is left when its rule has answered, however many of the further questions were
asked. -/
theorem brackets_checkWithin (levels : Nat) (s t : Ty) :
    Brackets (checkWithin env levels s t) := by
  induction levels generalizing s t with
  | zero => exact brackets_pure _
  | succ levels ih =>
      by_cases hsame : (s == t) = true
      · rw [checkWithin, if_pos hsame]
        exact brackets_pure _
      · intro c
        have hdenied := Bracketed.turnedDown c.guard (s, t)
        have hplan := brackets_run (fun a b => brackets_map Verdict.accepts (ih a b))
          (rulePlan env s t)
        rw [run_rulePlan] at hplan
        rw [run_verdict levels hsame]
        cases hjudge : c.guard.judge (s, t) with
        | entered =>
            exact .entered hjudge (hplan { c with guard := c.guard.record (s, t) .entered })
        | _ =>
            rw [hjudge] at hdenied
            exact hdenied (by simp)

theorem brackets_checkSubtype (env : Env) (s t : Ty) : Brackets (env.checkSubtype s t) :=
  brackets_checkWithin (Limits.subtypeDepth + 1) s t

theorem brackets_isSubtype (env : Env) (s t : Ty) : Brackets (env.isSubtype s t) :=
  brackets_map Verdict.accepts (brackets_checkSubtype env s t)

theorem brackets_checkContains (env : Env) (s t : Ty) : Brackets (env.checkContains s t) := by
  have hplan := brackets_run (brackets_isSubtype env) (containsPlan s t)
  rw [run_containsPlan] at hplan
  exact hplan

theorem brackets_allM {α : Type} {f : α → CheckM Bool} (hf : ∀ x, Brackets (f x))
    (xs : List α) : Brackets (xs.allM f) := by
  induction xs with
  | nil => exact brackets_pure true
  | cons x xs ih =>
      refine brackets_bind (hf x) fun b => ?_
      cases b with
      | true => exact ih
      | false => exact brackets_pure false

theorem brackets_checkAssignable (env : Env) (target source : Ty) :
    Brackets (env.checkAssignable target source) := by
  have hother : Brackets
      (if source.isWildcard then pure false else env.isSubtype source target) := by
    split
    · exact brackets_pure false
    · exact brackets_isSubtype env source target
  cases target with
  | wild upper lower =>
      rw [Env.checkAssignable]
      split
      · exact brackets_pure true
      · have hbounds := brackets_allM fun bound => brackets_isSubtype env source bound
        refine brackets_bind (hbounds upper) fun b => ?_
        cases b with
        | true => exact hbounds lower
        | false => exact brackets_pure false
  | _ => exact hother

end Subtyping

/-- What a checker can be asked. -/
inductive Query where
  | checkSubtype (source target : Ty)
  | isSubtype (source target : Ty)
  | contains (actual formal : Ty)

/-- A verdict, or a yes or no. -/
abbrev Answer : Type := Verdict ⊕ Bool

namespace Query

def ask (env : Env) : Query → CheckM Answer
  | checkSubtype source target => .inl <$> env.checkSubtype source target
  | isSubtype source target => .inr <$> env.isSubtype source target
  | contains actual formal => .inr <$> env.checkContains actual formal

/-- Puts one query after the other to the same checker. The registry may change in between. -/
def askAll (queries : List (Env × Query)) : CheckM (List Answer) :=
  queries.mapM fun (env, query) => query.ask env

open CheckM Subtyping

theorem brackets_ask (env : Env) (query : Query) : Brackets (query.ask env) := by
  cases query with
  | checkSubtype source target => exact brackets_map _ (brackets_checkSubtype env source target)
  | isSubtype source target => exact brackets_map _ (brackets_isSubtype env source target)
  | contains actual formal => exact brackets_map _ (brackets_checkContains env actual formal)

theorem askAll_cons (env : Env) (query : Query) (queries : List (Env × Query)) :
    askAll ((env, query) :: queries) =
      (query.ask env >>= fun answer => askAll queries >>= fun answers =>
        pure (answer :: answers)) :=
  List.mapM_cons

theorem brackets_askAll (queries : List (Env × Query)) : Brackets (askAll queries) := by
  induction queries with
  | nil => exact brackets_pure []
  | cons first queries ih =>
      rw [askAll_cons]
      exact brackets_bind (brackets_ask first.1 first.2) fun _ =>
        brackets_bind ih fun _ => brackets_pure _

end Query

/-! ## Collections -/

/-- A computation that leaves every type that it enters. -/
def CollectM.Brackets (m : CollectM Nat) : Prop :=
  ∀ s, Bracketed s.guard (m.run s).2.guard

namespace CollectM

theorem brackets_pure (level : Nat) : Brackets (pure level) := fun s => .idle s.guard

theorem brackets_highest {α : Type} {collect : α → CollectM Nat}
    (h : ∀ item, Brackets (collect item)) (base : Nat) (items : List α) :
    Brackets (highest collect base items) := by
  induction items generalizing base with
  | nil => exact brackets_pure base
  | cons item items ih =>
      intro s
      rw [run_highest_cons]
      exact (h item s).trans (ih _ _)

theorem brackets_record {m : CollectM Nat} (hm : Brackets m) (token : Token) :
    Brackets (record token m) := by
  intro s
  have hdenied := Bracketed.turnedDown s.guard token.type
  rw [run_record]
  cases s.level? token.type with
  | some level => exact .idle _
  | none =>
      cases hjudge : s.guard.judge token.type with
      | entered => exact .entered hjudge (hm (s.opened token.type))
      | _ =>
          rw [hjudge] at hdenied
          exact hdenied (by simp)

theorem brackets_collectAncestor (env : Env) (fuel : Nat) (origin : Token) (raw : ClassRef) :
    Brackets (origin.collectAncestor env fuel raw) := by
  induction fuel generalizing raw with
  | zero => exact brackets_pure 0
  | succ fuel ih =>
      rw [Token.collectAncestor]
      cases origin.elementAt? env raw with
      | none => exact brackets_pure 0
      | some element => exact brackets_record (brackets_highest (fun _ => ih _) _ _) element

theorem brackets_collect (env : Env) (fuel : Nat) (token : Token) :
    Brackets (token.collect env fuel) := by
  induction fuel generalizing token with
  | zero => exact brackets_pure 0
  | succ fuel ih =>
      rw [Token.collect]
      cases env.upperBounds? token.type with
      | none => exact brackets_collectAncestor env _ token _
      | some bounds => exact brackets_record (brackets_highest (fun _ => ih _) _ _) token

end CollectM

/-- Every recursion gives up its guard with no key held, and leaves no key that is not held:
the visits for raw classes, for each array around a component as well, for the occurrence of
a variable and for what a type implies; a checker after any series of queries; an assignment;
and the collecting of supertypes. -/
theorem recursions_settled (env : Env) :
    (∀ componentRaws t, (env.rawTypeVisit componentRaws t).guard.Settled .visit) ∧
      (∀ (t : Ty) v, (t.occurrenceVisit v).guard.Settled .visit) ∧
      (∀ t, (env.covariantVisit t).guard.Settled .visit) ∧
      (∀ queries, ((Query.askAll queries).run .fresh).2.guard.Settled .subtyping) ∧
      (∀ target source,
        ((env.checkAssignable target source).run .fresh).2.guard.Settled .subtyping) ∧
      ∀ token : Token, (token.collection env).guard.Settled .closure := by
  refine ⟨?_, ?_, ?_, ?_, ?_, ?_⟩
  · intro componentRaws t
    exact Visit.settled_run (brackets_rawTypeHandler env componentRaws) .visit [t] []
  · intro t v
    exact Visit.settled_run (brackets_occurrenceHandler v) .visit [t] false
  · intro t
    exact Visit.settled_run (brackets_covariantHandler env) .visit [t] .empty
  · intro queries
    exact (Query.brackets_askAll queries .fresh).settled
  · intro target source
    exact (Subtyping.brackets_checkAssignable env target source .fresh).settled
  · intro token
    exact (CollectM.brackets_collect env _ token .start).settled

end Generics
