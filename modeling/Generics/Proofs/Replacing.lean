import Generics.Proofs.Resolvers
import Generics.Proofs.Session

/-!
Replacing the variables of a token, one after the other. Every call resolves the
type with all bindings made so far. Bindings of different variables to types that
mention none of them stay clear of each other: they may be made in any order and
made again, and if the types are in canonical form, together they are one
substitution. In general a call also replaces what an earlier binding has put in: a
call for a variable that does not occur leaves the type alone exactly when no
variable that does occur was bound before.
-/

namespace Generics

open Ty (Same Occurs)

/-! ## Occurrence -/

namespace Ty

theorem occurs_of_beq {v v' : TyVar} {t : Ty} (hv : (v == v') = true) (h : Occurs v t) :
    Occurs v' t := by
  induction h with
  | owner _ ih => exact .owner ih
  | arg hmem _ ih => exact .arg hmem ih
  | component _ ih => exact .component ih
  | upper hmem _ ih => exact .upper hmem ih
  | lower hmem _ ih => exact .lower hmem ih
  | var h => exact .var (BEq.trans h hv)

theorem ne_of_occurs {v w : TyVar} {t : Ty} (hv : ¬Occurs v t) (hw : Occurs w t) :
    (v == w) = false := by
  rw [← Bool.not_eq_true]
  exact fun hvw => hv (occurs_of_beq (BEq.symm hvw) hw)

theorem forall_arrays {P : Ty → Prop} {t : Ty} (harray : ∀ t, P t → P (array t)) (n : Nat)
    (h : P t) : P (array^[n] t) := by
  induction n with
  | zero => exact h
  | succ n ih =>
      rw [Function.iterate_succ_apply']
      exact harray _ ih

theorem found_growth : Growth fun found found' : Bool => found = true → found' = true where
  refl _ := id
  trans h h' := h' ∘ h

theorem occurrenceInArgs_grows {visit : Ty → Visit Bool → Visit Bool}
    (hvisit : ∀ t s, Visit.Grows (fun found found' => found = true → found' = true) s (visit t s))
    (args : List Ty) (s : Visit Bool) :
    Visit.Grows (fun found found' => found = true → found' = true) s
      (occurrenceInArgs visit args s) := by
  induction args generalizing s with
  | nil => exact .refl found_growth s
  | cons t args ih =>
      rw [occurrenceInArgs]
      split
      · exact .refl found_growth s
      · exact (hvisit t s).trans found_growth (ih (visit t s))

theorem occurrenceHandler_adds (v : TyVar) :
    (occurrenceHandler v).Adds fun found found' => found = true → found' = true := by
  intro visit hvisit t s
  cases t with
  | cls _ => exact .refl found_growth s
  | param owner _ args =>
      exact (Visit.all_grows found_growth hvisit owner.toList s).trans found_growth
        (occurrenceInArgs_grows hvisit args _)
  | array component => exact hvisit component s
  | wild upper lower =>
      exact (Visit.all_grows found_growth hvisit upper s).trans found_growth
        (Visit.all_grows found_growth hvisit lower _)
  | var w =>
      rw [occurrenceHandler]
      split
      · exact Visit.grows_modify fun _ => rfl
      · exact .refl found_growth s

theorem occurrenceInArgs_preserves {P : Bool → Prop} {visit : Ty → Visit Bool → Visit Bool}
    {args : List Ty} (hvisit : ∀ t ∈ args, ∀ s, P s.acc → P (visit t s).acc) {s : Visit Bool}
    (hs : P s.acc) : P (occurrenceInArgs visit args s).acc := by
  induction args generalizing s with
  | nil => exact hs
  | cons t args ih =>
      obtain ⟨ht, hargs⟩ := List.forall_mem_cons.mp hvisit
      rw [occurrenceInArgs]
      split
      · exact hs
      · exact ih hargs (ht s hs)

/-- What the limited visit finds is spelled out in the type. -/
theorem occurs_of_mentions {t : Ty} {v : TyVar} (h : t.mentions v = true) : Occurs v t := by
  refine Visit.within_preserves (P := fun found => found = true → Occurs v t)
    (Q := fun y => Occurs v y → Occurs v t) found_growth (occurrenceHandler_adds v) ?_
    (Profile.visit.maxDepth + 1) id (s := .start .visit false) nofun h
  intro visit _ hvisit y s hy hs
  cases y with
  | cls _ => exact hs
  | param owner raw args =>
      apply occurrenceInArgs_preserves (P := fun found => found = true → Occurs v t)
      · exact fun a ha s => hvisit a s fun hv => hy (.arg ha hv)
      · apply Visit.all_preserves (P := fun found => found = true → Occurs v t) _ hs
        intro o ho s
        obtain rfl := Option.mem_toList.mp ho
        exact hvisit o s fun hv => hy (.owner hv)
  | array component => exact hvisit component s (fun hv => hy (.component hv)) hs
  | wild upper lower =>
      apply Visit.all_preserves (P := fun found => found = true → Occurs v t)
      · exact fun b hb s => hvisit b s fun hv => hy (.lower hb hv)
      · apply Visit.all_preserves (P := fun found => found = true → Occurs v t) _ hs
        exact fun b hb s => hvisit b s fun hv => hy (.upper hb hv)
  | var w =>
      rw [occurrenceHandler]
      split
      · exact fun _ => hy (.var ‹_›)
      · exact hs

/-- A type is written with the variables that occur in it. -/
theorem written_of_occurs {isClass : ClassRef → Prop} {isVar : TyVar → Prop} {t : Ty}
    (ht : t.Formed isClass) (h : ∀ v, Occurs v t → isVar v) : t.Written (fun _ => True) isVar := by
  have hid : t.subst .empty = t := subst_eq_self ht fun _ _ => rfl
  rw [← hid]
  exact written_subst (fun _ _ => trivial) ht.writable fun v _ hv => .var (h v hv)

/-- What is put in for the variables of a type is all that counts. -/
theorem subst_congr {isClass : ClassRef → Prop} {σ τ : Substitution} {t : Ty}
    (ht : t.Formed isClass) (h : ∀ v, Occurs v t → (var v).subst σ = (var v).subst τ) :
    t.subst σ = t.subst τ := by
  have hid : t.subst .empty = t := subst_eq_self ht fun _ _ => rfl
  calc
    t.subst σ = (t.subst .empty).subst σ := by rw [hid]
    _ = t.subst τ := subst_subst ht.writable (fun v _ => .var trivial) h

end Ty

/-! ## Bindings of different variables -/

namespace Substitution

/-- The variables of the bindings are different. -/
def Distinct (pairs : List (TyVar × Ty)) : Prop :=
  pairs.Pairwise fun p q => (p.1 == q.1) = false

instance (pairs : List (TyVar × Ty)) : Decidable (Distinct pairs) :=
  inferInstanceAs (Decidable (pairs.Pairwise fun p q => (p.1 == q.1) = false))

variable {pairs pairs' : List (TyVar × Ty)} {v : TyVar} {t : Ty}

theorem Distinct.perm (h : Distinct pairs) (hperm : pairs'.Perm pairs) : Distinct pairs' :=
  (hperm.pairwise_iff fun {_ _} h => by rw [BEq.comm]; exact h).mpr h

/-- Of different variables each is mapped to what it is paired with. -/
theorem get?_iff_mem (h : Distinct pairs) :
    get? ⟨pairs⟩ v = some t ↔ ∃ w, (w, t) ∈ pairs ∧ (w == v) = true := by
  refine ⟨mem_of_get?, ?_⟩
  rintro ⟨w, hmem, hwv⟩
  induction pairs with
  | nil => cases hmem
  | cons pair pairs ih =>
      obtain ⟨hhead, htail⟩ := List.pairwise_cons.mp h
      rw [get?_cons]
      rcases List.mem_cons.mp hmem with rfl | hmem
      · rw [if_pos hwv]
      · have hne : (pair.1 == v) = false := by
          rw [← Bool.not_eq_true]
          intro hpair
          have hboth := BEq.trans hpair (BEq.symm hwv)
          rw [hhead _ hmem] at hboth
          cases hboth
        rw [hne]
        exact ih htail hmem

theorem get?_perm (h : Distinct pairs) (hperm : pairs'.Perm pairs) (v : TyVar) :
    get? ⟨pairs'⟩ v = get? ⟨pairs⟩ v := by
  ext t
  rw [get?_iff_mem h, get?_iff_mem (h.perm hperm)]
  simp only [hperm.mem_iff]

/-- Bindings of different variables to types that mention none of them. -/
structure Apart (pairs : List (TyVar × Ty)) : Prop where
  distinct : Distinct pairs
  unmentioned : ∀ p ∈ pairs, ∀ q ∈ pairs, ¬Occurs p.1 q.2

theorem Apart.perm (h : Apart pairs) (hperm : pairs'.Perm pairs) : Apart pairs' where
  distinct := h.distinct.perm hperm
  unmentioned p hp q hq := h.unmentioned p (hperm.mem_iff.mp hp) q (hperm.mem_iff.mp hq)

theorem Apart.sublist (h : Apart pairs) (hsub : pairs'.Sublist pairs) : Apart pairs' where
  distinct := h.distinct.sublist hsub
  unmentioned p hp q hq := h.unmentioned p (hsub.subset hp) q (hsub.subset hq)

theorem Binds.formed_subst (h : Binds ⟨pairs⟩ (Ty.Formed fun _ => True))
    (ht : t.Formed fun _ => True) : (t.subst ⟨pairs⟩).Formed fun _ => True :=
  Ty.formed_subst ClassRef.family_all ht.written fun v => h.image (.var v)

/-- What is bound stays as it is. -/
theorem Apart.subst_value (h : Apart pairs) (hvalues : Binds ⟨pairs⟩ (Ty.Formed fun _ => True))
    (hmem : (v, t) ∈ pairs) : t.subst ⟨pairs⟩ = t := by
  apply Ty.subst_eq_self (hvalues _ hmem)
  intro w hw
  rw [Ty.subst_var]
  cases hget : get? ⟨pairs⟩ w with
  | none => rfl
  | some u =>
      obtain ⟨w', hmem', hw'⟩ := mem_of_get? hget
      exact absurd (Ty.occurs_of_beq (BEq.symm hw') hw) (h.unmentioned _ hmem' _ hmem)

/-- To make some of the bindings first changes nothing. -/
theorem Apart.subst_subst {done : List (TyVar × Ty)} (h : Apart pairs)
    (hvalues : Binds ⟨pairs⟩ (Ty.Formed fun _ => True)) (hdone : done <+: pairs)
    (ht : t.Formed fun _ => True) : (t.subst ⟨done⟩).subst ⟨pairs⟩ = t.subst ⟨pairs⟩ := by
  obtain ⟨rest, rfl⟩ := hdone
  have hmem : ∀ v s, get? ⟨done⟩ v = some s → ∃ w, (w, s) ∈ done ++ rest := by
    intro v s hget
    obtain ⟨w, hw, -⟩ := mem_of_get? hget
    exact ⟨w, List.mem_append_left rest hw⟩
  apply Ty.subst_subst ht.writable
  · intro v _
    rw [Ty.subst_var]
    cases hget : get? ⟨done⟩ v with
    | none => exact .var trivial
    | some s =>
        obtain ⟨w, hw⟩ := hmem v s hget
        exact (hvalues _ hw).writable
  · intro v _
    rw [Ty.subst_var]
    cases hget : get? ⟨done⟩ v with
    | none => rfl
    | some s =>
        obtain ⟨w, hw⟩ := hmem v s hget
        rw [Option.getD_some, h.subst_value hvalues hw, Ty.subst_var, get?_append, hget]
        rfl

end Substitution

/-! ## One call after the other -/

namespace Token

open Substitution

/-- Replaces several variables, one after the other. -/
def replacingAll (token : Token) (pairs : List (TyVar × Ty)) : Except TypeFault Token :=
  pairs.foldlM (fun token (v, value) => token.replacing v value) token

theorem replacingAll_cons (token : Token) (v : TyVar) (value : Ty) (pairs : List (TyVar × Ty)) :
    token.replacingAll ((v, value) :: pairs) =
      token.replacing v value >>= fun token => token.replacingAll pairs :=
  List.foldlM_cons

theorem replacingAll_cons_ok {token found : Token} {pair : TyVar × Ty}
    {pairs : List (TyVar × Ty)} (h : token.replacingAll (pair :: pairs) = .ok found) :
    ∃ next, token.replacing pair.1 pair.2 = .ok next ∧ next.replacingAll pairs = .ok found := by
  rw [replacingAll_cons] at h
  cases hnext : token.replacing pair.1 pair.2 with
  | error _ =>
      rw [hnext] at h
      cases h
  | ok next =>
      rw [hnext] at h
      exact ⟨next, rfl, h⟩

variable {pairs done rest repeats : List (TyVar × Ty)} {t value : Ty} {v : TyVar}
  {token found : Token}

/-- A call that neither leaves the token alone nor closes a circle binds the variable. -/
theorem replacing_of_not_mentions (token : Token) (hself : isVariable v value = false)
    (hmentions : value.mentions v = false) :
    token.replacing v value =
      match token.scope.bind v value with
      | .error fault => .error (.unmatched fault)
      | .ok scope => .ok ⟨scope.resolve token.type, scope⟩ := by
  rw [replacing, hself, hmentions]
  rfl

theorem replacing_of_not_occurs (token : Token) (h : ¬Occurs v value) :
    token.replacing v value =
      match token.scope.bind v value with
      | .error fault => .error (.unmatched fault)
      | .ok scope => .ok ⟨scope.resolve token.type, scope⟩ := by
  have hmentions : value.mentions v = false :=
    Bool.eq_false_of_not_eq_true fun hmentions => h (Ty.occurs_of_mentions hmentions)
  exact replacing_of_not_mentions token (isVariable_of_not_occurs h) hmentions

theorem get?_of_apart (h : Distinct (done ++ (v, value) :: rest)) : get? ⟨done⟩ v = none := by
  rw [Option.eq_none_iff_forall_ne_some]
  intro u hget
  obtain ⟨w, hmem, hw⟩ := mem_of_get? hget
  have hne := (List.pairwise_append.mp h).2.2 _ hmem _ List.mem_cons_self
  exact absurd hw (by rw [hne]; exact Bool.false_ne_true)

/-- One more binding that stays apart from those made before. -/
theorem replacing_next (h : Apart (done ++ [(v, value)])) (hscope : token.scope = ⟨done⟩) :
    token.replacing v value =
      .ok ⟨resolve ⟨done ++ [(v, value)]⟩ token.type, ⟨done ++ [(v, value)]⟩⟩ := by
  have hmem : (v, value) ∈ done ++ [(v, value)] := List.mem_append_right done List.mem_cons_self
  have hoccurs := h.unmentioned _ hmem _ hmem
  have hfree := get?_of_apart h.distinct
  rw [replacing_of_not_occurs _ hoccurs, hscope,
    bind_unbound (isVariable_of_not_occurs hoccurs) hfree, insertIfNew_of_unmapped value hfree]

/-- A call that was made before leaves the scope alone. -/
theorem replacing_again (h : Apart pairs) (hscope : token.scope = ⟨pairs⟩)
    (hmem : (v, value) ∈ pairs) :
    token.replacing v value = .ok ⟨resolve ⟨pairs⟩ token.type, ⟨pairs⟩⟩ := by
  have hoccurs := h.unmentioned _ hmem _ hmem
  have hget : get? ⟨pairs⟩ v = some value := (get?_iff_mem h.distinct).mpr ⟨v, hmem, BEq.rfl⟩
  have hbind : Substitution.bind ⟨pairs⟩ v value = .ok ⟨pairs⟩ := by
    simp [Substitution.bind, isVariable_of_not_occurs hoccurs, hget]
  rw [replacing_of_not_occurs _ hoccurs, hscope, hbind]

/-! ## The scope after all calls -/

/-- Calls that stay apart succeed, and each adds its binding. -/
theorem scope_replacingAll (h : Apart (done ++ rest)) (hscope : token.scope = ⟨done⟩) :
    ∃ found, token.replacingAll rest = .ok found ∧ found.scope = ⟨done ++ rest⟩ := by
  induction rest generalizing done token with
  | nil =>
      rw [List.append_nil]
      exact ⟨token, rfl, hscope⟩
  | cons pair rest ih =>
      rw [List.append_cons] at h ⊢
      have hnext := replacing_next (h.sublist (List.sublist_append_left _ rest)) hscope
      rw [replacingAll_cons, hnext]
      exact ih h rfl

theorem scope_replacingAll_again (h : Apart pairs) (hscope : token.scope = ⟨pairs⟩)
    (hrepeats : repeats ⊆ pairs) :
    ∃ found, token.replacingAll repeats = .ok found ∧ found.scope = ⟨pairs⟩ := by
  induction repeats generalizing token with
  | nil => exact ⟨token, rfl, hscope⟩
  | cons pair repeats ih =>
      obtain ⟨hpair, hrest⟩ := List.cons_subset.mp hrepeats
      rw [replacingAll_cons, replacing_again h hscope hpair]
      exact ih rfl hrest

/-! ## The type after all calls -/

section

variable (ht : t.Formed fun _ => True)

include ht

/-- Calls that stay apart are one substitution, if the values are in canonical form. -/
theorem replacingAll_apart (h : Apart (done ++ rest))
    (hvalues : Binds ⟨done ++ rest⟩ (Ty.Formed fun _ => True)) :
    replacingAll ⟨t.subst ⟨done⟩, ⟨done⟩⟩ rest =
      .ok ⟨t.subst ⟨done ++ rest⟩, ⟨done ++ rest⟩⟩ := by
  induction rest generalizing done with
  | nil => rw [List.append_nil]; rfl
  | cons pair rest ih =>
      rw [List.append_cons] at h hvalues ⊢
      have hnext := h.sublist (List.sublist_append_left (done ++ [pair]) rest)
      have hvaluesNext : Binds ⟨done ++ [pair]⟩ (Ty.Formed fun _ => True) :=
        fun p hp => hvalues p (List.mem_append_left rest hp)
      have hvaluesDone : Binds ⟨done⟩ (Ty.Formed fun _ => True) :=
        fun p hp => hvaluesNext p (List.mem_append_left [pair] hp)
      rw [replacingAll_cons, replacing_next hnext rfl,
        Ty.resolve_eq_subst (hvaluesDone.formed_subst ht),
        hnext.subst_subst hvaluesNext (List.prefix_append done _) ht]
      exact ih h hvalues

/-- Calls that were made before change nothing. -/
theorem replacingAll_again (h : Apart pairs) (hvalues : Binds ⟨pairs⟩ (Ty.Formed fun _ => True))
    (hrepeats : repeats ⊆ pairs) :
    replacingAll ⟨t.subst ⟨pairs⟩, ⟨pairs⟩⟩ repeats = .ok ⟨t.subst ⟨pairs⟩, ⟨pairs⟩⟩ := by
  induction repeats with
  | nil => rfl
  | cons pair repeats ih =>
      obtain ⟨hpair, hrest⟩ := List.cons_subset.mp hrepeats
      rw [replacingAll_cons, replacing_again h rfl hpair,
        Ty.resolve_eq_subst (hvalues.formed_subst ht),
        h.subst_subst hvalues (List.prefix_refl pairs) ht]
      exact ih hrest

end

/-- Calls for different variables with types that mention none of them succeed in every order,
make the same bindings, and may be repeated. With values in canonical form they amount to one
substitution, and to repeat some of them changes nothing. -/
theorem replacingAll_order (ht : t.Formed fun _ => True)
    (hdistinct : pairs.Pairwise fun p q => (p.1 == q.1) = false)
    (hunmentioned : ∀ p ∈ pairs, ∀ q ∈ pairs, ¬Occurs p.1 q.2)
    {order : List (TyVar × Ty)} (horder : order.Perm pairs) :
    ∃ token, (ofType t).replacingAll order = .ok token ∧
      (∀ v, token.scope.get? v = get? ⟨pairs⟩ v) ∧ token.scope.bindings.Perm pairs ∧
      (∀ repeats ⊆ pairs, ∃ again, token.replacingAll repeats = .ok again ∧
        again.scope = token.scope) ∧
      ((∀ p ∈ pairs, p.2.Formed fun _ => True) → token.type = resolve ⟨pairs⟩ t ∧
        ∀ repeats ⊆ pairs, token.replacingAll repeats = .ok token) := by
  have hapart : Apart order := Apart.perm ⟨hdistinct, hunmentioned⟩ horder
  have hget := get?_perm hdistinct horder
  have hsubset : ∀ {repeats}, repeats ⊆ pairs → repeats ⊆ order := fun h p hp =>
    horder.mem_iff.mpr (h hp)
  obtain ⟨token, hrun, hscope⟩ : ∃ token, (ofType t).replacingAll order = .ok token ∧
      token.scope = ⟨order⟩ := @scope_replacingAll [] order (ofType t) hapart rfl
  refine ⟨token, hrun, by rw [hscope]; exact hget, by rw [hscope]; exact horder, ?_, ?_⟩
  · intro repeats hrepeats
    rw [hscope]
    exact scope_replacingAll_again hapart hscope (hsubset hrepeats)
  · intro hvalues
    have hbinds : Binds ⟨order⟩ (Ty.Formed fun _ => True) := fun p hp =>
      hvalues p (horder.mem_iff.mp hp)
    have hall := @replacingAll_apart [] order t ht hapart hbinds
    have hstart : t.subst ⟨[]⟩ = t := Ty.subst_eq_self ht fun _ _ => rfl
    rw [hstart, List.nil_append] at hall
    obtain rfl := Except.ok.inj (hall.symm.trans hrun)
    refine ⟨?_, fun repeats hrepeats => replacingAll_again ht hapart hbinds (hsubset hrepeats)⟩
    rw [Ty.resolve_eq_subst ht]
    refine Ty.subst_congr ht fun v _ => ?_
    rw [Ty.subst_var, Ty.subst_var, hget]

/-- Rows and cells are replaced in the other order, and the rows once more. -/
theorem replacingAll_order_table :
    let strings := Ty.wild [Env.stringType] []
    ∃ token, (ofType tableShape).replacingAll [(cellVar, Env.stringType), (rowVar, strings)] =
        .ok token ∧
      token.type = .param none tableClass [strings, Env.stringType.arrayOf] ∧
      token.replacingAll [(rowVar, strings)] = .ok token := by
  let pairs : List (TyVar × Ty) :=
    [(rowVar, .wild [Env.stringType] []), (cellVar, Env.stringType)]
  have hvalues : ∀ p ∈ pairs, p.2.Formed fun _ => True := by
    simp only [pairs, List.forall_mem_cons]
    exact ⟨.wildUpper (.cls trivial), .cls trivial, List.forall_mem_nil _⟩
  have hclass : ∀ v, ¬Occurs v Env.stringType := fun _ hv => by cases hv
  have hwild : ∀ v, ¬Occurs v (.wild [Env.stringType] []) := by
    intro v hv
    cases hv with
    | upper hmem hv =>
        obtain rfl := List.mem_singleton.mp hmem
        exact hclass v hv
    | lower hmem _ => cases hmem
  have hunmentioned : ∀ p ∈ pairs, ∀ q ∈ pairs, ¬Occurs p.1 q.2 := by
    intro p _
    simp only [pairs, List.forall_mem_cons]
    exact ⟨hwild p.1, hclass p.1, List.forall_mem_nil _⟩
  obtain ⟨token, hrun, -, -, -, hformed⟩ := replacingAll_order tableShape_formed (by decide)
    hunmentioned (List.Perm.swap _ _ _)
  obtain ⟨htype, hagain⟩ := hformed hvalues
  exact ⟨token, hrun, htype, hagain _ (by simp [pairs])⟩

/-! ## Where the calls do not agree -/

/-- The order of the calls does not matter, for bindings that meet a condition. -/
def OrdersAgree (condition : List (TyVar × Ty) → Prop) : Prop :=
  ∀ (t : Ty) (pairs order : List (TyVar × Ty)) (token found : Token), t.Formed (fun _ => True) →
    Distinct pairs → condition pairs → order.Perm pairs →
    (ofType t).replacingAll pairs = .ok token → (ofType t).replacingAll order = .ok found →
    (found.type == token.type) = true

/-- To repeat calls changes no type, for bindings that meet a condition. -/
def RepeatsAgree (condition : List (TyVar × Ty) → Prop) : Prop :=
  ∀ (t : Ty) (pairs repeats : List (TyVar × Ty)) (token again : Token),
    t.Formed (fun _ => True) → Distinct pairs → condition pairs → repeats ⊆ pairs →
    (ofType t).replacingAll pairs = .ok token → token.replacingAll repeats = .ok again →
    (again.type == token.type) = true

/-- A list of what a variable stands for. -/
def listOf (v : TyVar) : Ty := .param none Env.listClass [.var v]

theorem listOf_formed (v : TyVar) : (listOf v).Formed fun _ => True := by
  refine .param nofun trivial ?_
  intro t ht
  obtain rfl := List.mem_singleton.mp ht
  exact .var v

/-- An array over a class that is not written as an array class is put in for rows. -/
def looseBindings : List (TyVar × Ty) :=
  [(cellVar, Env.stringType), (rowVar, .array Env.stringType)]

theorem looseBindings_unmentioned :
    ∀ p ∈ looseBindings, ∀ q ∈ looseBindings, ¬Occurs p.1 q.2 := by
  have hclass (v : TyVar) : ¬Occurs v Env.stringType := fun hv => by cases hv
  have harray (v : TyVar) : ¬Occurs v (.array Env.stringType) := by
    intro hv
    cases hv with
    | component hv => exact hclass v hv
  intro p _
  simp only [looseBindings, List.forall_mem_cons]
  exact ⟨hclass p.1, harray p.1, List.forall_mem_nil _⟩

theorem not_ordersAgree :
    ¬OrdersAgree fun pairs => ∀ p ∈ pairs, ∀ q ∈ pairs, ¬Occurs p.1 q.2 := by
  intro hclaim
  have hsame := hclaim (listOf rowVar) looseBindings looseBindings.reverse
    ⟨.param none Env.listClass [.array Env.stringType], _⟩
    ⟨.param none Env.listClass [Env.stringType.arrayOf], _⟩ (listOf_formed rowVar)
    (by decide) looseBindings_unmentioned (List.reverse_perm _) rfl rfl
  exact absurd hsame (by decide)

theorem not_repeatsAgree :
    ¬RepeatsAgree fun pairs => ∀ p ∈ pairs, ∀ q ∈ pairs, ¬Occurs p.1 q.2 := by
  intro hclaim
  have hsame := hclaim (listOf rowVar) looseBindings looseBindings
    ⟨.param none Env.listClass [.array Env.stringType], _⟩
    ⟨.param none Env.listClass [Env.stringType.arrayOf], _⟩ (listOf_formed rowVar)
    (by decide) looseBindings_unmentioned (List.Subset.refl _) rfl rfl
  exact absurd hsame (by decide)

/-- Arrays of cells, nested deeper than the search for a variable goes. -/
def deepCells : Ty := Ty.array^[100] (.var cellVar)

theorem deepCells_formed : deepCells.Formed fun _ => True := by
  have h := Ty.forall_arrays
    (P := fun t => t.Formed (fun _ => True) ∧ t.class? = none ∧ t.isWildcard = false)
    (fun _ h => ⟨.array h.1 h.2.1 h.2.2, rfl, rfl⟩) 100 ⟨.var cellVar, rfl, rfl⟩
  exact h.1

theorem deepCells_mentions : deepCells.mentions cellVar = false := by decide +kernel

/-- Cells are replaced by what is nested too deep, whatever the type is. -/
theorem replacing_deepCells (hscope : token.scope.bind cellVar deepCells = .ok θ) :
    token.replacingAll [(cellVar, deepCells)] = .ok ⟨θ.resolve token.type, θ⟩ := by
  rw [replacingAll_cons, replacing_of_not_mentions token rfl deepCells_mentions, hscope]
  rfl

theorem not_repeatsAgree_deep : ¬RepeatsAgree fun pairs =>
    (∀ p ∈ pairs, p.2.Formed fun _ => True) ∧
      ∀ p ∈ pairs, ∀ q ∈ pairs, q.2.mentions p.1 = false := by
  intro hclaim
  let scope : Substitution := ⟨[(cellVar, deepCells)]⟩
  have hself : isVariable cellVar deepCells = false := rfl
  have hget : scope.get? cellVar = some deepCells := rfl
  have hbind : scope.bind cellVar deepCells = .ok scope := by
    simp [Substitution.bind, hself, hget]
  let token : Token := ⟨scope.resolve (.var cellVar), scope⟩
  have hfirst : (ofType (.var cellVar)).replacingAll [(cellVar, deepCells)] = .ok token :=
    replacing_deepCells rfl
  have hsecond : token.replacingAll [(cellVar, deepCells)] =
      .ok ⟨scope.resolve token.type, scope⟩ := replacing_deepCells hbind
  have hsame := hclaim (.var cellVar) [(cellVar, deepCells)] [(cellVar, deepCells)] _ _
    (.var cellVar) (List.pairwise_singleton _ _)
    ⟨List.forall_mem_singleton.mpr deepCells_formed,
      List.forall_mem_singleton.mpr (List.forall_mem_singleton.mpr deepCells_mentions)⟩
    (List.Subset.refl _) hfirst hsecond
  exact absurd hsame (by decide +kernel)

/-- An array over a class becomes an array class by the calls after the one that puts it in, and
when that one is repeated. A value in which its own variable occurs too deep to be found gets
deeper when the call is repeated. -/
theorem replacingAll_order_lost :
    (¬OrdersAgree fun pairs => ∀ p ∈ pairs, ∀ q ∈ pairs, ¬Occurs p.1 q.2) ∧
    (¬RepeatsAgree fun pairs => ∀ p ∈ pairs, ∀ q ∈ pairs, ¬Occurs p.1 q.2) ∧
    ¬RepeatsAgree fun pairs => (∀ p ∈ pairs, p.2.Formed fun _ => True) ∧
      ∀ p ∈ pairs, ∀ q ∈ pairs, q.2.mentions p.1 = false :=
  ⟨not_ordersAgree, not_repeatsAgree, not_repeatsAgree_deep⟩

/-! ## A variable that does not occur -/

variable {σ τ : Substitution} {w : TyVar} {z : TyVar}

theorem bind_eq_insertIfNew (hself : isVariable v value = false) (h : σ.bind v value = .ok τ) :
    τ = σ.insertIfNew v value := by
  rw [Substitution.bind, hself] at h
  cases hget : σ.get? v with
  | none =>
      rw [hget] at h
      cases h
      exact (insertIfNew_of_unmapped value hget).symm
  | some existing =>
      simp only [hget, Bool.false_eq_true, if_false] at h
      split at h
      · cases h
        exact (insertIfNew_of_mapped value hget).symm
      · cases h

/-- A call that succeeds leaves the token alone, or binds the variable, unless it
is bound, and resolves the type with all bindings. -/
theorem replacing_cases (h : token.replacing v value = .ok found) :
    isVariable v value = true ∧ found = token ∨
      isVariable v value = false ∧ found =
        ⟨(token.scope.insertIfNew v value).resolve token.type,
          token.scope.insertIfNew v value⟩ := by
  unfold replacing at h
  split at h
  · cases h
    exact Or.inl ⟨‹_›, rfl⟩
  · rename_i hself
    rw [Bool.not_eq_true] at hself
    split at h
    · cases h
    · split at h
      · cases h
      · rename_i scope hscope
        cases h
        rw [bind_eq_insertIfNew hself hscope]
        exact Or.inr ⟨hself, rfl⟩

/-- No variable is bound to itself. -/
def Proper (σ : Substitution) : Prop := ∀ v t, σ.get? v = some t → isVariable v t = false

theorem proper_insertIfNew (h : Proper σ) (hself : isVariable v value = false) :
    Proper (σ.insertIfNew v value) := by
  intro w t hget
  rw [get?_insertIfNew_or, Option.or_eq_some_iff] at hget
  rcases hget with hget | ⟨-, hget⟩
  · exact h w t hget
  · split at hget
    · rename_i hvw
      cases hget
      cases value with
      | var x =>
          rw [← Bool.not_eq_true] at hself ⊢
          exact fun hx => hself (BEq.trans hx (BEq.symm hvw))
      | _ => rfl
    · cases hget

/-- What one call preserves, all calls preserve. -/
theorem replacingAll_preserves {P : Token → Prop}
    (hstep : ∀ p ∈ pairs, ∀ token found, P token → token.replacing p.1 p.2 = .ok found → P found)
    (htoken : P token) (h : token.replacingAll pairs = .ok found) : P found := by
  induction pairs generalizing token with
  | nil =>
      cases h
      exact htoken
  | cons pair pairs ih =>
      obtain ⟨hpair, hpairs⟩ := List.forall_mem_cons.mp hstep
      obtain ⟨next, hnext, hrest⟩ := replacingAll_cons_ok h
      exact ih hpairs (hpair token next htoken hnext) hrest

/-- A token in canonical form whose scope binds no variable to itself. -/
structure Sound (token : Token) : Prop where
  formed : token.Formed fun _ => True
  proper : Proper token.scope

theorem sound_replacing (h : Sound token) (hvalue : value.Formed fun _ => True)
    (hreplaced : token.replacing v value = .ok found) : Sound found := by
  refine ⟨formed_replacing ClassRef.family_all h.formed hvalue hreplaced, ?_⟩
  rcases replacing_cases hreplaced with ⟨-, rfl⟩ | ⟨hself, rfl⟩
  · exact h.proper
  · exact proper_insertIfNew h.proper hself

theorem sound_replacingAll (ht : t.Formed fun _ => True)
    (hvalues : ∀ p ∈ pairs, p.2.Formed fun _ => True)
    (h : (ofType t).replacingAll pairs = .ok token) : Sound token := by
  refine replacingAll_preserves (fun p hp _ _ hsound => sound_replacing hsound (hvalues p hp)) ?_ h
  exact ⟨⟨ht, fun _ hp => absurd hp List.not_mem_nil⟩, nofun⟩

/-- A call for a variable that does not occur replaces what was bound before. -/
theorem image_of_not_occurs (hz : ¬Occurs z t) (hw : Occurs w t) :
    (σ.insertIfNew z value).get? w = σ.get? w := by
  rw [get?_insertIfNew_or, Ty.ne_of_occurs hz hw]
  simp

/-- The type stays as it is when none of its variables is bound. -/
theorem type_replacing_of_unbound (htoken : Sound token) (hz : ¬Occurs z token.type)
    (hfound : token.replacing z value = .ok found)
    (hunbound : ∀ w, Occurs w token.type → token.scope.get? w = none) :
    found.type = token.type := by
  rcases replacing_cases hfound with ⟨-, rfl⟩ | ⟨-, rfl⟩
  · rfl
  · rw [Ty.resolve_eq_subst htoken.formed.type]
    refine Ty.subst_eq_self htoken.formed.type fun w hw => ?_
    rw [Ty.subst_var, image_of_not_occurs hz hw, hunbound w hw]
    rfl

/-- Only if none of its variables is bound. -/
theorem unbound_of_same_type (htoken : Sound token) (hz : ¬Occurs z token.type)
    (hself : isVariable z value = false) (hfound : token.replacing z value = .ok found)
    (hsame : Same found.type token.type) (hw : Occurs w token.type) :
    token.scope.get? w = none := by
  have htype := htoken.formed.type
  rcases replacing_cases hfound with ⟨hself', -⟩ | ⟨-, rfl⟩
  · rw [hself] at hself'
    cases hself'
  · rw [Ty.resolve_eq_subst htype] at hsame
    have hwritable : (token.type.subst (token.scope.insertIfNew z value)).Writable := by
      refine Ty.writable_subst htype.writable fun v hv => ?_
      rw [Ty.subst_var, image_of_not_occurs hz hv, ← Ty.subst_var]
      exact (htoken.formed.scope.image (.var v)).writable
    have himage := Ty.same_var_of_same htype.writable (Ty.same_symm hwritable hsame) w hw
    rw [Ty.subst_var, image_of_not_occurs hz hw] at himage
    cases hget : token.scope.get? w with
    | none => rfl
    | some u =>
        rw [hget] at himage
        obtain ⟨x, rfl, hx⟩ := Ty.same_var.mp himage
        have hproper := htoken.proper w _ hget
        rw [isVariable, BEq.symm hx] at hproper
        cases hproper

/-- The variables in the type of a token are not bound, and those that are bound
were replaced. -/
structure Exhausted (done : List (TyVar × Ty)) (token : Token) : Prop where
  unbound : ∀ w, Occurs w token.type → token.scope.get? w = none
  replaced : ∀ w t, token.scope.get? w = some t → ∃ p ∈ done, (p.1 == w) = true

/-- A variable that a value does not mention stays out of the scope that binds it. -/
theorem get?_of_exhausted (h : Exhausted done token) (hself : ¬Occurs v value)
    (hdone : ∀ p ∈ done, ¬Occurs p.1 value) (hw : Occurs w value) :
    (token.scope.insertIfNew v value).get? w = none := by
  rw [get?_insertIfNew_or, Ty.ne_of_occurs hself hw, if_neg Bool.false_ne_true, Option.or_none,
    Option.eq_none_iff_forall_ne_some]
  intro t hget
  obtain ⟨p, hp, hpw⟩ := h.replaced w t hget
  exact hdone p hp (Ty.occurs_of_beq (BEq.symm hpw) hw)

/-- A value that mentions no variable replaced so far brings none back. -/
theorem exhausted_replacing (htoken : Sound token) (h : Exhausted done token)
    (hvalue : value.Formed fun _ => True) (hself : ¬Occurs v value)
    (hdone : ∀ p ∈ done, ¬Occurs p.1 value) (hfound : token.replacing v value = .ok found) :
    Exhausted (done ++ [(v, value)]) found := by
  have htype := htoken.formed.type
  rcases replacing_cases hfound with ⟨hvariable, -⟩ | ⟨-, rfl⟩
  · rw [isVariable_of_not_occurs hself] at hvariable
    cases hvariable
  constructor
  · intro w hw
    rw [Ty.resolve_eq_subst htype] at hw
    have hwritten : (token.type.subst (token.scope.insertIfNew v value)).Written (fun _ => True)
        fun w => (token.scope.insertIfNew v value).get? w = none := by
      refine Ty.written_subst (fun _ _ => trivial) htype.writable fun x _ hx => ?_
      rw [Ty.subst_var, get?_insertIfNew_or, h.unbound x hx, Option.none_or]
      split
      · exact Ty.written_of_occurs hvalue fun y hy => get?_of_exhausted h hself hdone hy
      · refine .var ?_
        rw [get?_insertIfNew_or, h.unbound x hx, Option.none_or, if_neg ‹_›]
    obtain ⟨w', hw', heq⟩ := Ty.isVar_of_occurs hw hwritten
    rw [← get?_of_beq _ heq]
    exact hw'
  · intro w t hget
    rw [get?_insertIfNew_or, Option.or_eq_some_iff] at hget
    rcases hget with hget | ⟨-, hget⟩
    · obtain ⟨p, hp, hpw⟩ := h.replaced w t hget
      exact ⟨p, List.mem_append_left _ hp, hpw⟩
    · split at hget
      · exact ⟨(v, value), List.mem_append_right _ List.mem_cons_self, ‹_›⟩
      · cases hget

theorem exhausted_replacingAll (htoken : Sound token) (h : Exhausted done token)
    (hvalues : ∀ p ∈ rest, p.2.Formed fun _ => True) (hself : ∀ p ∈ rest, ¬Occurs p.1 p.2)
    (hlater : (done ++ rest).Pairwise fun p q => ¬Occurs p.1 q.2)
    (hfound : token.replacingAll rest = .ok found) : Exhausted (done ++ rest) found := by
  induction rest generalizing done token with
  | nil =>
      cases hfound
      rwa [List.append_nil]
  | cons pair rest ih =>
      obtain ⟨hvalue, hvalues⟩ := List.forall_mem_cons.mp hvalues
      obtain ⟨hpair, hself⟩ := List.forall_mem_cons.mp hself
      have hdone := fun p hp => (List.pairwise_append.mp hlater).2.2 p hp pair List.mem_cons_self
      obtain ⟨next, hnext, hrest⟩ := replacingAll_cons_ok hfound
      rw [List.append_cons] at hlater ⊢
      exact ih (sound_replacing htoken hvalue hnext)
        (exhausted_replacing htoken h hvalue hpair hdone hnext) hvalues hself hlater hrest

def keyVar : TyVar := ⟨2, .synthetic "table", "K"⟩

theorem not_occurs_listOf (hvw : (v == w) = false) : ¬Occurs w (listOf v) := by
  intro hw
  cases hw with
  | arg hmem hw =>
      obtain rfl := List.mem_singleton.mp hmem
      cases hw with
      | var h =>
          rw [hvw] at h
          cases h

end Token

end Generics
