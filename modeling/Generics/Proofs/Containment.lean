import Generics.Proofs.Assignability

/-!
Containment of type arguments. An argument spans the types between its lower and
its upper bound; a type spans itself. One argument is contained in another when
it is equal to it or the other is a wildcard that spans it. Since subtyping
between the bounds is a partial order, so is containment.
-/

namespace Generics

namespace Vocabulary

variable {env : Env}

/-- Types that are spelled out without variables and wildcards. -/
inductive Fixed (w : Vocabulary env) : Ty → Prop where
  | cls {c} (hc : w.isClass c) : Fixed w (.cls c)
  | param {owner raw args} (howner : ∀ t ∈ owner, Fixed w t) (hraw : w.isClass raw)
      (hargs : ∀ t ∈ args, Fixed w t) : Fixed w (.param owner raw args)
  | array {component} (h : Fixed w component) : Fixed w (.array component)

/-- Classes about which nothing is generic, generic forms with every parameter
replaced by a type without variables and wildcards, and the arrays of these. -/
inductive Concrete (w : Vocabulary env) : Ty → Prop where
  | cls {c} (hc : w.isClass c) (h : env.classes.genericForm c = .cls c) : Concrete w (.cls c)
  | form {c} {σ : Substitution} (hc : w.isClass c)
      (hbound : ∀ v, Ty.Occurs v (env.classes.genericForm c) → (σ.get? v).isSome = true)
      (hfixed : ∀ v t, σ.get? v = some t → Fixed w t) :
      Concrete w ((env.classes.genericForm c).subst σ)
  | array {t} (h : Concrete w t) : Concrete w t.arrayOf

/-- Type arguments that are concrete or a wildcard with a concrete bound. -/
inductive Argument (w : Vocabulary env) : Ty → Prop where
  | type {t} (h : Concrete w t) : Argument w t
  | unbounded : Argument w .unbounded
  | extending {bound t} (hbound : Concrete w bound) (h : Ty.subtypeOf bound = .ok t) :
      Argument w t
  | super {bound t} (hbound : Concrete w bound) (h : Ty.supertypeOf bound = .ok t) :
      Argument w t

variable {w : Vocabulary env}

theorem Fixed.writes {t : Ty} (h : Fixed w t) : w.Writes t := by
  induction h with
  | cls hc => exact .cls hc
  | param _ hraw _ howner hargs => exact .param howner hraw hargs
  | array _ ih => exact .array ih

theorem Fixed.closed {t : Ty} (h : Fixed w t) : env.upperBounds? t = none := by
  cases h <;> rfl

theorem Concrete.writes {t : Ty} (h : Concrete w t) : w.Writes t := by
  induction h with
  | cls hc _ => exact .cls hc
  | form hc hbound hfixed => exact subst_form_writes hc hbound fun v t hget => (hfixed v t hget).writes
  | array _ ih => exact arrayOf_writes ih

end Vocabulary

namespace Subtyping

open Vocabulary
open Ty (Same)

variable {env : Env}

/-- What can bound an argument: a concrete type, or the root class, which bounds
the wildcards without an upper bound whether or not it is generic. -/
inductive Bounding (w : Vocabulary env) : Ty → Prop where
  | object : Bounding w .object
  | stacked {t} (h : Stacked w w.NamedArrays t) : Bounding w t

/-- An argument, with its upper bound and the lower bound that it may have. -/
inductive Spans (w : Vocabulary env) : Ty → Ty → Option Ty → Prop where
  | type {t} (h : Bounding w t) : Spans w t t (some t)
  | wild {upper lower} (hupper : Bounding w upper) (hlower : ∀ b ∈ lower, Bounding w b) :
      Spans w (.wild [upper] lower.toList) upper lower

variable {w : Vocabulary env} {s t u : Ty}

/-! ## Bounds -/

/-- Concrete types have array levels over a type of a class that is no array. -/
theorem stacked_of_concrete (hcoherent : ∀ t, w.Concrete t → env.Coherent t)
    (ht : Concrete w t) : Stacked w w.NamedArrays t := by
  have hclass : ∀ c, w.isClass c → env.classes.genericForm c = .cls c →
      env.Coherent (.cls c) := fun c hc hform => hcoherent _ (.cls hc hform)
  induction ht with
  | cls hc hform => exact stacked_cls hclass hc hform
  | form hc hbound hfixed =>
      exact stacked_form hclass (fun v t hget => ⟨(hfixed v t hget).writes, (hfixed v t hget).closed⟩)
        (fun _ hc hbound => hcoherent _ (.form hc hbound hfixed)) hc hbound
  | array _ ih => exact stacked_arrayOf ih

theorem Bounding.writes (h : Bounding w t) : w.Writes t := by
  cases h with
  | object => exact writes_object
  | stacked h => exact h.writes

theorem Bounding.isWildcard (h : Bounding w t) : t.isWildcard = false := by
  cases h with
  | object => rfl
  | stacked h => exact stacked_isWildcard h

/-- Only the root class is above the root class. -/
theorem eq_object_of_holds (h : w.Orderly) (ht : Bounding w t) (hholds : Holds env .object t) :
    t = .object := by
  cases ht with
  | object => rfl
  | stacked ht =>
      cases ht with
      | base ht =>
          rcases above_arrays h List.mem_cons_self ht hholds with heq | heq
          · exact heq
          · exact heq
      | array ht _ _ =>
          exfalso
          cases ht with
          | generic _ _ =>
              cases hholds.rule with
              | equal hsame =>
                  obtain ⟨_, hcls, -⟩ := Ty.same_cls.mp hsame
                  cases hcls
              | ofArrayClass hcomponent _ => cases hcomponent
          | ofClass hc =>
              have hsub := (holds_cls_iff rfl).mp hholds
              rw [not_isSubclass_array hc rfl w.object rfl] at hsub
              cases hsub

/-- What is below a type below the root class is below the root class. -/
theorem holds_object_trans (h : w.Orderly) (hs : Stacked w w.NamedArrays s)
    (ht : Stacked w w.NamedArrays t) (hst : Holds env s t) (hto : Holds env t .object) :
    Holds env s .object := by
  cases hs with
  | array hs _ _ => exact holds_array_top hs List.mem_cons_self
  | base hs =>
      cases ht with
      | array ht _ _ => exact absurd hst (not_holds_array hs ht)
      | base ht =>
          obtain ⟨c, hcraw, hc, hcarray⟩ := hs.raw
          obtain ⟨d, hdraw, hd, hdarray⟩ := ht.raw
          have hsub := isSubclass_of_holds hcraw hdraw hst
          have hobject := (holds_cls_iff hdraw).mp hto
          exact (holds_cls_iff hcraw).mpr
            (isSubclass_trans h hc hd w.object hcarray hdarray rfl hsub hobject)

theorem bounding_trans (h : w.Orderly) (hs : Bounding w s) (ht : Bounding w t)
    (hu : Bounding w u) (hst : Holds env s t) (htu : Holds env t u) : Holds env s u := by
  cases ht with
  | object =>
      obtain rfl := eq_object_of_holds h hu htu
      exact hst
  | stacked ht =>
      cases hs with
      | object =>
          obtain rfl := eq_object_of_holds h (.stacked ht) hst
          exact htu
      | stacked hs =>
          cases hu with
          | object => exact holds_object_trans h hs ht hst htu
          | stacked hu => exact stacked_trans h hs ht hu hst htu

theorem bounding_antisymm (h : w.Orderly) (hnamed : w.NamedArrays) (hs : Bounding w s)
    (ht : Bounding w t) (hst : Holds env s t) (hts : Holds env t s) : Same s t := by
  cases hs with
  | object =>
      rw [eq_object_of_holds h ht hst]
      exact Ty.same_refl _
  | stacked hs =>
      cases ht with
      | object =>
          rw [eq_object_of_holds h (.stacked hs) hts]
          exact Ty.same_refl _
      | stacked ht => exact stacked_antisymm h hnamed hs ht hst hts

/-! ## Spans -/

theorem spans_upper (h : Bounding w t) : Spans w (.wild [t] []) t none :=
  @Spans.wild _ _ t none h fun _ hb => by cases hb

theorem spans_lower (hs : Bounding w s) (ht : Bounding w t) :
    Spans w (.wild [s] [t]) s (some t) :=
  @Spans.wild _ _ s (some t) hs fun _ hb => by
    obtain rfl := Option.some.inj hb
    exact ht

theorem spans_of_argument (hcoherent : ∀ t, w.Concrete t → env.Coherent t) (h : w.Argument t) :
    ∃ upper lower, Spans w t upper lower := by
  have hbounding : ∀ {t}, w.Concrete t → Bounding w t := fun ht =>
    .stacked (stacked_of_concrete hcoherent ht)
  cases h with
  | type h => exact ⟨_, _, .type (hbounding h)⟩
  | unbounded => exact ⟨.object, none, spans_upper .object⟩
  | @extending bound _ hbound h =>
      unfold Ty.subtypeOf at h
      split at h
      · cases h
      · cases h
        exact ⟨bound, none, spans_upper (hbounding hbound)⟩
  | @super bound _ hbound h =>
      unfold Ty.supertypeOf at h
      split at h
      · cases h
      · cases h
        exact ⟨.object, some bound, spans_lower .object (hbounding hbound)⟩

section

variable {x y z upper upper' : Ty} {lower lower' : Option Ty}

theorem Spans.writes (h : Spans w x upper lower) : w.Writes x := by
  cases h with
  | type h => exact h.writes
  | wild hupper hlower =>
      cases lower with
      | none => exact .wildUpper hupper.writes
      | some b => exact .wildLower hupper.writes (hlower b rfl).writes

theorem Spans.bounding (h : Spans w x upper lower) :
    Bounding w upper ∧ ∀ b ∈ lower, Bounding w b := by
  cases h with
  | type h => exact ⟨h, by simpa using h⟩
  | wild hupper hlower => exact ⟨hupper, hlower⟩

/-- An argument is below what its upper bound is below. -/
theorem holds_upper (h : Spans w x upper lower) (ht : t.isWildcard = false) :
    Holds env x t ↔ Holds env upper t := by
  cases h with
  | type _ => exact Iff.rfl
  | wild _ _ =>
      constructor
      · intro hholds
        cases hholds.rule with
        | equal hsame =>
            cases t with
            | wild _ _ => cases ht
            | _ => exact absurd hsame (by simp [Same, BEq.beq, Ty.beq])
        | lower _ _ => cases ht
        | upper _ hb hbelow =>
            rw [List.mem_singleton.mp hb] at hbelow
            exact hbelow
        | ancestor hraw _ => cases hraw
        | parameterized hraw _ _ _ _ => cases hraw
      · exact fun hholds => holds_of_rule (.upper ht List.mem_cons_self hholds)

/-- An argument is above what its lower bound is above. -/
theorem holds_lower (h : Spans w x upper lower) (ht : t.isWildcard = false) :
    Holds env t x ↔ ∃ b ∈ lower, Holds env t b := by
  cases h with
  | type _ => simp
  | wild _ _ =>
      constructor
      · intro hholds
        cases hholds.rule with
        | equal hsame =>
            cases t with
            | wild _ _ => cases ht
            | _ => exact absurd hsame (by simp [Same, BEq.beq, Ty.beq])
        | lower hb hholds => exact ⟨_, by simpa using hb, hholds⟩
        | upper hwild _ _ => cases hwild
        | bound hwild _ _ => cases hwild
      · rintro ⟨b, hb, hholds⟩
        exact holds_of_rule (.lower (by simpa using hb) hholds)

/-- The bounds of one argument lie between those of another. -/
def Within (env : Env) (upper upper' : Ty) (lower lower' : Option Ty) : Prop :=
  Holds env upper upper' ∧ ∀ b' ∈ lower', ∃ b ∈ lower, Holds env b' b

theorem same_span {bound bound' : Ty} {limit limit' : Option Ty} :
    Same (.wild [bound] limit.toList) (.wild [bound'] limit'.toList) ↔
      Same bound bound' ∧ Option.Rel Same limit limit' := by
  cases limit with
  | none =>
      cases limit' with
      | none => simp [Ty.same_wildUpper, Option.rel_none_none]
      | some _ => simp [Ty.same_wildUpper]
  | some _ =>
      cases limit' with
      | none => simp [Ty.same_wildLower]
      | some _ => simp [Ty.same_wildLower]

theorem within_of_same (hx : Spans w x upper lower) (hy : Spans w y upper' lower')
    (h : Same x y) : Within env upper upper' lower lower' := by
  have hwild := isWildcard_alike ⟨hx.writes, hy.writes, h⟩
  have hback := Ty.same_symm hx.writes.writable h
  cases hx with
  | type hx =>
      cases hy with
      | type _ => exact ⟨holds_of_same h, by simpa using holds_of_same hback⟩
      | wild _ _ => cases hx.isWildcard.symm.trans hwild
  | wild _ _ =>
      cases hy with
      | type hy => cases hwild.trans hy.isWildcard
      | wild _ _ =>
          obtain ⟨-, hlower⟩ := same_span.mp hback
          refine ⟨holds_of_same (same_span.mp h).1, ?_⟩
          intro b hb
          cases hlower with
          | none => cases hb
          | some hsame =>
              obtain rfl := Option.some.inj hb
              exact ⟨_, rfl, holds_of_same hsame⟩

/-- Contained are equal arguments, and in wildcards those between their bounds. -/
theorem contained_iff (hx : Spans w x upper lower) (hy : Spans w y upper' lower') :
    Contained (Holds env) x y ↔
      (y.isWildcard = true ∨ Same x y) ∧ Within env upper upper' lower lower' := by
  constructor
  · intro h
    cases h with
    | equal h => exact ⟨Or.inr h, within_of_same hx hy h⟩
    | bounds hupper hlower =>
        refine ⟨Or.inl rfl, ?_⟩
        cases hy with
        | type hy => cases hy.isWildcard
        | wild hyupper hylower =>
            refine ⟨(holds_upper hx hyupper.isWildcard).mp (hupper _ List.mem_cons_self), ?_⟩
            intro b hb
            exact (holds_lower hx (hylower b hb).isWildcard).mp (hlower b (by simpa using hb))
  · rintro ⟨hwild | hsame, hwithin, hlower⟩
    · cases hy with
      | type hy =>
          rw [hy.isWildcard] at hwild
          cases hwild
      | wild hyupper hylower =>
          apply Contained.bounds
          · intro b hb
            obtain rfl := List.mem_singleton.mp hb
            exact (holds_upper hx hyupper.isWildcard).mpr hwithin
          · intro b hb
            have hb : b ∈ lower' := by simpa using hb
            exact (holds_lower hx (hylower b hb).isWildcard).mpr (hlower b hb)
    · exact .equal hsame

theorem within_trans {upper'' : Ty} {lower'' : Option Ty} (h : w.Orderly)
    (hx : Spans w x upper lower) (hy : Spans w y upper' lower') (hz : Spans w z upper'' lower'')
    (hxy : Within env upper upper' lower lower') (hyz : Within env upper' upper'' lower' lower'') :
    Within env upper upper'' lower lower'' := by
  refine ⟨bounding_trans h hx.bounding.1 hy.bounding.1 hz.bounding.1 hxy.1 hyz.1, ?_⟩
  intro c hc
  obtain ⟨b, hb, hcb⟩ := hyz.2 c hc
  obtain ⟨a, ha, hba⟩ := hxy.2 b hb
  exact ⟨a, ha, bounding_trans h (hz.bounding.2 c hc) (hy.bounding.2 b hb) (hx.bounding.2 a ha)
    hcb hba⟩

/-- Bounds that lie between each other are equal. -/
theorem same_of_within (h : w.Orderly) (hnamed : w.NamedArrays) (hx : Spans w x upper lower)
    (hy : Spans w y upper' lower') (hxy : Within env upper upper' lower lower')
    (hyx : Within env upper' upper lower' lower) :
    Same upper upper' ∧ Option.Rel Same lower lower' := by
  refine ⟨bounding_antisymm h hnamed hx.bounding.1 hy.bounding.1 hxy.1 hyx.1, ?_⟩
  cases lower with
  | none =>
      cases lower' with
      | none => exact .none
      | some b =>
          obtain ⟨a, ha, -⟩ := hxy.2 b rfl
          cases ha
  | some a =>
      obtain ⟨b, hb, hab⟩ := hyx.2 a rfl
      obtain rfl : lower' = some b := hb
      obtain ⟨a', ha', hba⟩ := hxy.2 b rfl
      cases ha'
      exact .some (bounding_antisymm h hnamed (hx.bounding.2 a rfl) (hy.bounding.2 b rfl) hab hba)

/-! ## The order -/

theorem contained_trans (h : w.Orderly) {upper'' : Ty} {lower'' : Option Ty}
    (hx : Spans w x upper lower) (hy : Spans w y upper' lower') (hz : Spans w z upper'' lower'')
    (hxy : Contained (Holds env) x y) (hyz : Contained (Holds env) y z) :
    Contained (Holds env) x z := by
  rw [contained_iff hx hy] at hxy
  rw [contained_iff hy hz] at hyz
  refine (contained_iff hx hz).mpr ⟨?_, within_trans h hx hy hz hxy.2 hyz.2⟩
  rcases hyz.1 with hwild | hsame
  · exact Or.inl hwild
  · rcases hxy.1 with hwild | hsame'
    · rw [isWildcard_alike ⟨hy.writes, hz.writes, hsame⟩] at hwild
      exact Or.inl hwild
    · exact Or.inr (Ty.same_trans hsame' hsame)

theorem contained_antisymm (h : w.Orderly) (hnamed : w.NamedArrays)
    (hx : Spans w x upper lower) (hy : Spans w y upper' lower')
    (hxy : Contained (Holds env) x y) (hyx : Contained (Holds env) y x) : Same x y := by
  rw [contained_iff hx hy] at hxy
  rw [contained_iff hy hx] at hyx
  have hsame := same_of_within h hnamed hx hy hxy.2 hyx.2
  rcases hxy.1 with hywild | hsame'
  · rcases hyx.1 with hxwild | hsame'
    · cases hx with
      | type hx =>
          rw [hx.isWildcard] at hxwild
          cases hxwild
      | wild _ _ =>
          cases hy with
          | type hy =>
              rw [hy.isWildcard] at hywild
              cases hywild
          | wild _ _ => exact same_span.mpr hsame
    · exact Ty.same_symm hy.writes.writable hsame'
  · exact hsame'

end

theorem answers_checkContains (hs : w.Writes s) (ht : w.Writes t) :
    Answers [] (env.checkContains s t) (Contained (Holds env) s t) (Contained (Holds env) s t) :=
  answers_contains (fun _ _ => answers_isSubtype) hs ht

/-- Between arguments without variables containment is a partial order, as far as
no limit is met on the way from end to end. -/
theorem contains_partialOrder (h : w.Orderly) (hcoherent : ∀ t, w.Concrete t → env.Coherent t)
    {x y z : Ty} (hx : w.Argument x) (hy : w.Argument y) (hz : w.Argument z) :
    ((env.checkContains x y).ask = true → (env.checkContains y z).ask = true →
      ((env.checkContains x z).run .fresh).2.hits = 0 → (env.checkContains x z).ask = true) ∧
    (w.NamedArrays → (env.checkContains x y).ask = true → (env.checkContains y x).ask = true →
      (x == y) = true) := by
  obtain ⟨_, _, hx⟩ := spans_of_argument hcoherent hx
  obtain ⟨_, _, hy⟩ := spans_of_argument hcoherent hy
  obtain ⟨_, _, hz⟩ := spans_of_argument hcoherent hz
  have hcontained : ∀ {s t : Ty}, w.Writes s → w.Writes t →
      (env.checkContains s t).ask = true → Contained (Holds env) s t := fun hs ht =>
    (answers_checkContains hs ht).sound _ ⟨rfl, rfl⟩
  constructor
  · intro hxy hyz hhits
    apply (answers_checkContains hx.writes hz.writes).complete _ ⟨rfl, rfl⟩ hhits
    exact contained_trans h hx hy hz (hcontained hx.writes hy.writes hxy)
      (hcontained hy.writes hz.writes hyz)
  · intro hnamed hxy hyx
    exact contained_antisymm h hnamed hx hy (hcontained hx.writes hy.writes hxy)
      (hcontained hy.writes hx.writes hyx)

theorem boxEnv_tops : ∀ d ∈ [ClassRef.object, .cloneable, .serializable],
    boxEnv.classes.genericForm d = .cls d ∧ boxEnv.classes.directSupertypes d = [] := by
  simp only [List.forall_mem_cons]
  exact ⟨⟨rfl, rfl⟩, ⟨rfl, rfl⟩, ⟨rfl, rfl⟩, List.forall_mem_nil _⟩

/-- What bounds objects from below bounds boxed strings from below, and any type;
not the other way round. -/
theorem contains_boxes :
    let objects := Ty.wild [.object] [.object]
    let boxes := Ty.wild [.object] [.param none boxClass [.cls stringClass]]
    (boxEnv.checkContains objects boxes).ask = true ∧
      (boxEnv.checkContains boxes .unbounded).ask = true ∧
      (boxEnv.checkContains objects .unbounded).ask = true ∧
      (boxEnv.checkContains boxes objects).ask = false := by
  let w := Vocabulary.ofRegular boxEnv_regular
  have hnamed : w.NamedArrays :=
    namedArrays_ofRegular boxEnv_regular (handle_isArray (by decide))
  have hflat := @flat_of_edges boxEnv 2 rfl
  have htops := fun d hd => (boxEnv_tops d hd).2
  have h : w.Orderly := orderly_of_flat (fun d hd => (boxEnv_tops d hd).1) htops hflat
  have hobject : w.Concrete .object := .cls w.object rfl
  have hbox : w.Concrete
      ((boxEnv.classes.genericForm boxClass).subst ⟨[(boxVar, .cls stringClass)]⟩) := by
    apply Concrete.form (show ClassRef.isRegular _ _ = true by decide)
    · intro v hv
      have hform : Ty.Occurs v (.param none boxClass [.var boxVar]) := hv
      cases hform with
      | arg hmem hoccurs =>
          obtain rfl := List.mem_singleton.mp hmem
          cases hoccurs with
          | var heq => simp [Substitution.get?_cons, heq]
    · intro v t hget
      obtain ⟨_, hmem, -⟩ := Substitution.mem_of_get? hget
      obtain rfl := (Prod.mk.inj (List.mem_singleton.mp hmem)).2
      exact .cls (show ClassRef.isRegular _ _ = true by decide)
  obtain ⟨htrans, hantisymm⟩ := contains_partialOrder h
    (fun t ht => coherent_of_flat htops hflat ht.writes) (.super hobject rfl) (.super hbox rfl)
    .unbounded
  have hbelow : (boxEnv.checkContains (.wild [.object] [.object])
      (.wild [.object] [.param none boxClass [.cls stringClass]])).ask = true := by decide
  have habove : (boxEnv.checkContains
      (.wild [.object] [.param none boxClass [.cls stringClass]]) .unbounded).ask = true := by
    decide
  refine ⟨hbelow, habove, htrans hbelow habove (by decide), ?_⟩
  rw [← Bool.not_eq_true]
  intro hback
  exact absurd (hantisymm hnamed hbelow hback) (by decide)

/-- Two wildcards that are bounded by array classes over one component, of which
one has a name of its own, contain each other and are not equal. -/
theorem contains_namedArray : ¬∀ (env : Env) (w : Vocabulary env) (x y : Ty), w.Orderly →
    (∀ t, w.Concrete t → env.Coherent t) → w.Argument x → w.Argument y →
    (env.checkContains x y).ask = true → (env.checkContains y x).ask = true →
    (x == y) = true := by
  intro hclaim
  let w := Vocabulary.ofRegular textEnv_regular
  have hforms : ∀ d ∈ [ClassRef.object, .cloneable, .serializable],
      textEnv.classes.genericForm d = .cls d ∧ textEnv.classes.directSupertypes d = [] := by
    simp only [List.forall_mem_cons]
    exact ⟨⟨rfl, rfl⟩, ⟨rfl, rfl⟩, ⟨rfl, rfl⟩, List.forall_mem_nil _⟩
  have hflat := @flat_of_edges textEnv 1 rfl
  have htops := fun d hd => (hforms d hd).2
  have h : w.Orderly := orderly_of_flat (fun d hd => (hforms d hd).1) htops hflat
  have htext : w.Concrete (.cls textClass) :=
    .cls (show ClassRef.isRegular _ _ = true by decide) rfl
  have hstrings : w.Concrete (.cls (.arrayOf stringClass)) :=
    .cls (show ClassRef.isRegular _ _ = true by decide) rfl
  have hsame := hclaim textEnv w _ _ h (fun t ht => coherent_of_flat htops hflat ht.writes)
    (.extending htext rfl) (.extending hstrings rfl) (by decide) (by decide)
  exact absurd hsame (by decide)

end Subtyping

end Generics
