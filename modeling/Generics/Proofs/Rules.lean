import Generics.Subtyping
import Generics.Proofs.Ancestry
import Generics.Proofs.Vocabulary

/-!
The rules of subtyping, apart from the order in which a checker asks. `Rule`
derives a pair of types in one step from pairs of a relation, and `Holds` is
the greatest relation in which every pair is so derived. Views in the rules
have no bound on their steps.

Pairs may be compared up to equality of types, and the pair that is being
derived may itself be taken to hold: neither leads out of the greatest
relation.
-/

namespace Generics.Subtyping

open Ty (Same)

/-- The rule for a parameterized target once the view of the source is found. -/
def viewRule (env : Env) (below : Asking) (view : Ty) (owner : Option Ty) (raw : ClassRef)
    (args : List Ty) : CheckM Bool := do
  if (viewArgs env raw view).length ≠ args.length then
    return false
  if ← ((viewArgs env raw view).zip args).allM fun pair => contains below pair.1 pair.2 then
    ownerRule env below view owner raw
  else
    return false

/-- A type argument is equal to the one asked for, or within all bounds of a
wildcard. -/
inductive Contained (X : Ty → Ty → Prop) : Ty → Ty → Prop where
  | equal {actual formal} (h : Same actual formal) : Contained X actual formal
  | bounds {actual upper lower} (hupper : ∀ b ∈ upper, X actual b)
      (hlower : ∀ b ∈ lower, X b actual) : Contained X actual (.wild upper lower)

/-- The owner of a target, if it matters, is above that of the view. -/
inductive Owned (env : Env) (X : Ty → Ty → Prop) (raw : ClassRef) (view : Ty) :
    Option Ty → Prop where
  | absent : Owned env X raw view none
  | static {owner} (h : env.classes.isStatic raw = true) : Owned env X raw view (some owner)
  | inner {owner viewOwner viewRaw viewArgs}
      (hview : view = .param (some viewOwner) viewRaw viewArgs) (h : X viewOwner owner) :
      Owned env X raw view (some owner)

/-- One step of subtyping. The left side is opened when the right side is not a
wildcard. -/
inductive Rule (env : Env) (X : Ty → Ty → Prop) : Ty → Ty → Prop where
  | equal {s t} (h : Same s t) : Rule env X s t
  | lower {s upper lower b} (hb : b ∈ lower) (h : X s b) : Rule env X s (.wild upper lower)
  | upper {upper lower t b} (ht : t.isWildcard = false) (hb : b ∈ upper) (h : X b t) :
      Rule env X (.wild upper lower) t
  | bound {v t b} (ht : t.isWildcard = false) (hb : b ∈ env.bounds.effective v) (h : X b t) :
      Rule env X (.var v) t
  | components {s t} (h : X s t) : Rule env X (.array s) (.array t)
  | ofArrayClass {c d t} (hc : c.component? = some d) (h : X (.cls d) t) :
      Rule env X (.cls c) (.array t)
  | toArrayClass {s c d} (hc : c.component? = some d) (h : X s (.cls d)) :
      Rule env X (.array s) (.cls c)
  /-- An array of a generic type is below what an array of objects is below. -/
  | aboveArrays {s c} (hc : c.component? = none)
      (h : env.isSubclass (.arrayOf .object) c = true) : Rule env X (.array s) (.cls c)
  | ancestor {s c d} (hs : s.raw? = some c) (h : env.isSubclass c d = true) :
      Rule env X s (.cls d)
  | parameterized {s c owner raw args view} (hs : s.raw? = some c)
      (hsub : env.isSubclass c raw = true) (hview : env.View s raw view)
      (hargs : List.Forall₂ (Contained X) (viewArgs env raw view) args)
      (howner : Owned env X raw view owner) : Rule env X s (.param owner raw args)

variable {env : Env} {X Y : Ty → Ty → Prop} {s t : Ty}

theorem Contained.mono (hXY : ∀ a b, X a b → Y a b) (h : Contained X s t) :
    Contained Y s t := by
  cases h with
  | equal h => exact .equal h
  | bounds hupper hlower =>
      exact .bounds (fun b hb => hXY _ _ (hupper b hb)) fun b hb => hXY _ _ (hlower b hb)

theorem Rule.mono (hXY : ∀ a b, X a b → Y a b) (h : Rule env X s t) : Rule env Y s t := by
  cases h with
  | equal h => exact .equal h
  | lower hb h => exact .lower hb (hXY _ _ h)
  | upper ht hb h => exact .upper ht hb (hXY _ _ h)
  | bound ht hb h => exact .bound ht hb (hXY _ _ h)
  | components h => exact .components (hXY _ _ h)
  | ofArrayClass hc h => exact .ofArrayClass hc (hXY _ _ h)
  | toArrayClass hc h => exact .toArrayClass hc (hXY _ _ h)
  | aboveArrays hc h => exact .aboveArrays hc h
  | ancestor hs h => exact .ancestor hs h
  | parameterized hs hsub hview hargs howner =>
      refine .parameterized hs hsub hview (hargs.imp fun _ _ => Contained.mono hXY) ?_
      cases howner with
      | absent => exact .absent
      | static h => exact .static h
      | inner hview h => exact .inner hview (hXY _ _ h)

/-- The greatest relation in which every pair follows by a rule. -/
def Holds (env : Env) (s t : Ty) : Prop :=
  ∃ X : Ty → Ty → Prop, (∀ a b, X a b → Rule env X a b) ∧ X s t

theorem Holds.rule (h : Holds env s t) : Rule env (Holds env) s t := by
  obtain ⟨X, hX, hst⟩ := h
  exact (hX s t hst).mono fun a b hab => ⟨X, hX, hab⟩

theorem holds_of_rule (h : Rule env (Holds env) s t) : Holds env s t := by
  refine ⟨fun a b => Rule env (Holds env) a b, ?_, h⟩
  intro a b hab
  exact hab.mono fun _ _ => Holds.rule

theorem holds_iff_rule : Holds env s t ↔ Rule env (Holds env) s t :=
  ⟨Holds.rule, holds_of_rule⟩

theorem holds_of_same (h : Same s t) : Holds env s t :=
  holds_of_rule (.equal h)

/-! ## Pairs up to equality -/

section

variable {w : Vocabulary env} {s' t' : Ty}

open Vocabulary

/-- Pairs equal to those of a relation. -/
def UpTo (w : Vocabulary env) (X : Ty → Ty → Prop) (s t : Ty) : Prop :=
  ∃ a b, X a b ∧ w.Alike a s ∧ w.Alike b t

theorem isWildcard_alike (h : w.Alike s t) : s.isWildcard = t.isWildcard := by
  obtain ⟨-, -, hsame⟩ := h
  cases s <;> cases t <;> simp_all [Same, BEq.beq, Ty.beq, Ty.isWildcard]

theorem raw?_alike (h : w.Alike s t) : s.raw? = t.raw? := by
  cases h.1 with
  | cls _ => rw [alike_cls h]
  | param _ _ _ =>
      obtain ⟨_, _, rfl, -⟩ := alike_param h
      rfl
  | array _ =>
      obtain ⟨_, rfl, -⟩ := alike_array h
      rfl
  | wildUpper _ =>
      obtain ⟨_, rfl, -⟩ := alike_wildUpper h
      rfl
  | wildLower _ _ =>
      obtain ⟨_, _, rfl, -⟩ := alike_wildLower h
      rfl
  | var _ =>
      obtain ⟨_, rfl, -⟩ := alike_var h
      rfl

theorem Contained.upTo (hs : w.Alike s s') (ht : w.Alike t t') (h : Contained X s t) :
    Contained (UpTo w X) s' t' := by
  cases h with
  | equal h =>
      exact .equal (alike_trans (alike_symm hs) (alike_trans ⟨hs.1, ht.1, h⟩ ht)).2.2
  | bounds hupper hlower =>
      cases ht.1 with
      | wildUpper _ =>
          obtain ⟨upper', rfl, hu⟩ := alike_wildUpper ht
          refine .bounds ?_ (by simp)
          intro b hb
          rw [List.mem_singleton.mp hb]
          exact ⟨_, _, hupper _ List.mem_cons_self, hs, hu⟩
      | wildLower _ _ =>
          obtain ⟨upper', lower', rfl, hu, hl⟩ := alike_wildLower ht
          refine .bounds ?_ ?_
          · intro b hb
            rw [List.mem_singleton.mp hb]
            exact ⟨_, _, hupper _ List.mem_cons_self, hs, hu⟩
          · intro b hb
            rw [List.mem_singleton.mp hb]
            exact ⟨_, _, hlower _ List.mem_cons_self, hl, hs⟩

theorem viewArgs_alike {view view' : Ty} {raw : ClassRef} (hraw : w.isClass raw)
    (h : w.Alike view view') :
    List.Forall₂ w.Alike (viewArgs env raw view) (viewArgs env raw view') := by
  have hparameters : List.Forall₂ w.Alike ((env.classes.parameters raw).map Ty.var)
      ((env.classes.parameters raw).map Ty.var) := by
    rw [List.forall₂_map_left_iff, List.forall₂_map_right_iff, List.forall₂_same]
    exact fun v hv => alike_refl (.var (w.parameters raw hraw v hv))
  cases h.1 with
  | cls _ =>
      rw [alike_cls h]
      exact hparameters
  | param _ _ _ =>
      obtain ⟨_, args', rfl, -, hargs⟩ := alike_param h
      exact hargs
  | array _ =>
      obtain ⟨_, rfl, -⟩ := alike_array h
      exact hparameters
  | wildUpper _ =>
      obtain ⟨_, rfl, -⟩ := alike_wildUpper h
      exact hparameters
  | wildLower _ _ =>
      obtain ⟨_, _, rfl, -⟩ := alike_wildLower h
      exact hparameters
  | var _ =>
      obtain ⟨_, rfl, -⟩ := alike_var h
      exact hparameters

theorem contained_args_upTo {actuals actuals' formals formals' : List Ty}
    (hactuals : List.Forall₂ w.Alike actuals actuals')
    (hformals : List.Forall₂ w.Alike formals formals')
    (h : List.Forall₂ (Contained X) actuals formals) :
    List.Forall₂ (Contained (UpTo w X)) actuals' formals' := by
  induction h generalizing actuals' formals' with
  | nil =>
      cases hactuals
      cases hformals
      exact .nil
  | cons hhead _ ih =>
      cases hactuals with
      | cons ha hactuals =>
          cases hformals with
          | cons hf hformals => exact .cons (hhead.upTo ha hf) (ih hactuals hformals)

theorem Owned.upTo {raw : ClassRef} {view view' : Ty} {owner owner' : Option Ty}
    (hview : w.Alike view view') (howner : Option.Rel w.Alike owner owner')
    (h : Owned env X raw view owner) : Owned env (UpTo w X) raw view' owner' := by
  cases h with
  | absent =>
      cases howner
      exact .absent
  | static h =>
      cases howner
      exact .static h
  | inner hshape h =>
      cases howner with
      | some houter =>
          subst hshape
          obtain ⟨viewOwner', _, rfl, hviewOwner, -⟩ := alike_param hview
          cases hviewOwner with
          | some hinner => exact .inner rfl ⟨_, _, h, hinner, houter⟩

/-- Equal types follow by the same rules. -/
theorem Rule.upTo (hs : w.Alike s s') (ht : w.Alike t t') (h : Rule env X s t) :
    Rule env (UpTo w X) s' t' := by
  cases h with
  | equal h =>
      exact .equal (alike_trans (alike_symm hs) (alike_trans ⟨hs.1, ht.1, h⟩ ht)).2.2
  | lower hb h =>
      cases ht.1 with
      | wildUpper _ => cases hb
      | wildLower _ _ =>
          obtain ⟨upper', lower', rfl, -, hl⟩ := alike_wildLower ht
          rw [List.mem_singleton.mp hb] at h
          exact .lower List.mem_cons_self ⟨_, _, h, hs, hl⟩
  | upper hwild hb h =>
      rw [isWildcard_alike ht] at hwild
      cases hs.1 with
      | wildUpper _ =>
          obtain ⟨upper', rfl, hu⟩ := alike_wildUpper hs
          rw [List.mem_singleton.mp hb] at h
          exact .upper hwild List.mem_cons_self ⟨_, _, h, hu, ht⟩
      | wildLower _ _ =>
          obtain ⟨upper', lower', rfl, hu, -⟩ := alike_wildLower hs
          rw [List.mem_singleton.mp hb] at h
          exact .upper hwild List.mem_cons_self ⟨_, _, h, hu, ht⟩
  | bound hwild hb h =>
      rw [isWildcard_alike ht] at hwild
      obtain ⟨v', rfl, hbounds⟩ := alike_var hs
      obtain ⟨b', hb', hbb'⟩ := forall₂_mem_left (effective_alike hbounds) hb
      exact .bound hwild hb' ⟨_, _, h, hbb', ht⟩
  | components h =>
      obtain ⟨_, rfl, hcs⟩ := alike_array hs
      obtain ⟨_, rfl, hct⟩ := alike_array ht
      exact .components ⟨_, _, h, hcs, hct⟩
  | ofArrayClass hc h =>
      rw [alike_cls hs]
      obtain ⟨_, rfl, hct⟩ := alike_array ht
      cases hs.1 with
      | cls hclass => exact .ofArrayClass hc ⟨_, _, h, alike_refl (.cls (w.component _ hclass _ hc)), hct⟩
  | toArrayClass hc h =>
      rw [alike_cls ht]
      obtain ⟨_, rfl, hcs⟩ := alike_array hs
      cases ht.1 with
      | cls hclass => exact .toArrayClass hc ⟨_, _, h, hcs, alike_refl (.cls (w.component _ hclass _ hc))⟩
  | aboveArrays hc h =>
      rw [alike_cls ht]
      obtain ⟨_, rfl, -⟩ := alike_array hs
      exact .aboveArrays hc h
  | ancestor hraw h =>
      rw [raw?_alike hs] at hraw
      rw [alike_cls ht]
      exact .ancestor hraw h
  | parameterized hraw hsub hview hargs howner =>
      rw [raw?_alike hs] at hraw
      obtain ⟨owner', args', rfl, ho, ha⟩ := alike_param ht
      obtain ⟨view', hview', hviews⟩ := view_alike hs hview
      cases ht.1 with
      | param _ hclass _ =>
          exact .parameterized hraw hsub hview'
            (contained_args_upTo (viewArgs_alike hclass hviews) ha hargs)
            (howner.upTo hviews ho)

/-- Equal types are related alike. -/
theorem Holds.alike (h : Holds env s t) (hs : w.Alike s s') (ht : w.Alike t t') :
    Holds env s' t' := by
  refine ⟨UpTo w (Holds env), ?_, s, t, h, hs, ht⟩
  rintro a b ⟨a', b', hab, ha, hb⟩
  exact hab.rule.upTo ha hb

/-! ## Open pairs -/

/-- Derivable by rules, where the pairs that are held may be used without
being derived. -/
def Assuming (w : Vocabulary env) (held : List (Ty × Ty)) (s t : Ty) : Prop :=
  ∃ X : Ty → Ty → Prop, X s t ∧ ∀ a b, X a b →
    w.Writes a ∧ w.Writes b ∧ (held.contains (a, b) = true ∨ Rule env X a b)

variable {held : List (Ty × Ty)}

theorem assuming_of_held (hs : w.Writes s) (ht : w.Writes t)
    (h : held.contains (s, t) = true) : Assuming w held s t := by
  refine ⟨fun a b => a = s ∧ b = t, ⟨rfl, rfl⟩, ?_⟩
  rintro a b ⟨rfl, rfl⟩
  exact ⟨hs, ht, Or.inl h⟩

theorem assuming_of_rule (hs : w.Writes s) (ht : w.Writes t)
    (h : Rule env (Assuming w held) s t) : Assuming w held s t := by
  refine ⟨fun a b => Assuming w held a b ∨ (a = s ∧ b = t), Or.inr ⟨rfl, rfl⟩, ?_⟩
  rintro a b (⟨X, hab, hX⟩ | ⟨rfl, rfl⟩)
  · obtain ⟨ha, hb, hheld | hrule⟩ := hX a b hab
    · exact ⟨ha, hb, Or.inl hheld⟩
    · exact ⟨ha, hb, Or.inr (hrule.mono fun a b hab => Or.inl ⟨X, hab, hX⟩)⟩
  · exact ⟨hs, ht, Or.inr (h.mono fun a b => Or.inl)⟩

theorem same_of_beq_pair {a b x y : Ty} (h : ((a, b) == (x, y)) = true) :
    Same a x ∧ Same b y :=
  Bool.and_eq_true_iff.mp h

theorem contains_alike {a b : Ty} (ha : w.Alike a s) (hb : w.Alike b t)
    (h : held.contains (a, b) = true) : held.contains (s, t) = true := by
  obtain ⟨⟨x, y⟩, hmem, heq⟩ := List.contains_iff_exists_mem_beq.mp h
  obtain ⟨hx, hy⟩ := same_of_beq_pair heq
  have hsx : Same s x := Ty.same_trans (alike_symm ha).2.2 hx
  have hty : Same t y := Ty.same_trans (alike_symm hb).2.2 hy
  exact List.contains_iff_exists_mem_beq.mpr
    ⟨(x, y), hmem, Bool.and_eq_true_iff.mpr ⟨hsx, hty⟩⟩

/-- A pair that follows by a rule when it is taken to hold itself, holds. -/
theorem assuming_of_open (hs : w.Writes s) (ht : w.Writes t)
    (h : Rule env (Assuming w ((s, t) :: held)) s t) : Assuming w held s t := by
  have hopen : Assuming w ((s, t) :: held) s t :=
    assuming_of_held hs ht (by simp)
  refine ⟨UpTo w (Assuming w ((s, t) :: held)),
    ⟨s, t, hopen, alike_refl hs, alike_refl ht⟩, ?_⟩
  rintro a b ⟨a', b', ⟨X, hab, hX⟩, ha, hb⟩
  refine ⟨ha.2.1, hb.2.1, ?_⟩
  obtain ⟨ha', hb', hheld | hrule⟩ := hX a' b' hab
  · rw [List.contains_cons, Bool.or_eq_true] at hheld
    rcases hheld with heq | hheld
    · -- the open pair itself, up to equality
      obtain ⟨hsa, htb⟩ := same_of_beq_pair heq
      right
      exact h.upTo (alike_trans (alike_symm ⟨ha', hs, hsa⟩) ha)
        (alike_trans (alike_symm ⟨hb', ht, htb⟩) hb)
    · exact Or.inl (contains_alike ha hb hheld)
  · right
    refine (hrule.upTo ha hb).mono ?_
    rintro x y ⟨x', y', hxy, hx, hy⟩
    exact ⟨x', y', ⟨X, hxy, hX⟩, hx, hy⟩

theorem holds_of_assuming (h : Assuming w [] s t) : Holds env s t := by
  obtain ⟨X, hst, hX⟩ := h
  refine ⟨X, ?_, hst⟩
  intro a b hab
  obtain ⟨-, -, hheld | hrule⟩ := hX a b hab
  · cases hheld
  · exact hrule

end

end Generics.Subtyping
