import Generics.Proofs.Canonical

/-!
Bounds as sets. A wildcard keeps of equal bounds the first, so no two of its
bounds are equal, and then as many bounds, each equal to one of the others, are
the same set: every bound of the others is met. This makes equality symmetric on
all types that are kept so, with as many bounds as there may be.
-/

namespace Generics

section

variable {α β : Type} {R : α → β → Prop} {l : List α} {l' : List β}

/-- Where each member of a list has a partner in another list, and no two of them the same,
the partners are as many as the members. -/
theorem exists_partners (hapart : l.Pairwise fun a b => ∀ c, R a c → ¬R b c)
    (h : ∀ a ∈ l, ∃ c ∈ l', R a c) :
    ∃ partners : List β, partners.length = l.length ∧ partners.Nodup ∧
      ∀ c ∈ partners, c ∈ l' ∧ ∃ a ∈ l, R a c := by
  induction l with
  | nil => exact ⟨[], rfl, List.nodup_nil, nofun⟩
  | cons a l ih =>
      obtain ⟨hhead, htail⟩ := List.pairwise_cons.mp hapart
      obtain ⟨⟨c, hc, hac⟩, hrest⟩ := List.forall_mem_cons.mp h
      obtain ⟨partners, hlength, hnodup, hpartners⟩ := ih htail hrest
      have hnew : c ∉ partners := by
        intro hmem
        obtain ⟨-, b, hb, hbc⟩ := hpartners c hmem
        exact hhead b hb c hac hbc
      refine ⟨c :: partners, by simp [hlength], List.nodup_cons.mpr ⟨hnew, hnodup⟩,
        List.forall_mem_cons.mpr ⟨⟨hc, a, List.mem_cons_self, hac⟩, ?_⟩⟩
      intro d hd
      obtain ⟨hmem, b, hb, hbd⟩ := hpartners d hd
      exact ⟨hmem, b, List.mem_cons_of_mem _ hb, hbd⟩

/-- When the other list is no longer, each of its members is a partner. -/
theorem exists_partner_left (hapart : l.Pairwise fun a b => ∀ c, R a c → ¬R b c)
    (h : ∀ a ∈ l, ∃ c ∈ l', R a c) (hlength : l.length = l'.length) :
    ∀ c ∈ l', ∃ a ∈ l, R a c := by
  obtain ⟨partners, hpartners, hnodup, hmem⟩ := exists_partners hapart h
  have hperm : partners.Perm l' :=
    (hnodup.subperm fun c hc => (hmem c hc).1).perm_of_length_le (by omega)
  intro c hc
  exact (hmem c (hperm.mem_iff.mpr hc)).2

end

namespace Ty

/-- Types as they are kept: no wildcard has two equal bounds on one side, at any depth. -/
inductive DistinctBounds : Ty → Prop where
  | cls (c : ClassRef) : DistinctBounds (cls c)
  | param {owner raw args} (howner : ∀ t ∈ owner, DistinctBounds t)
      (hargs : ∀ t ∈ args, DistinctBounds t) : DistinctBounds (param owner raw args)
  | array {component} (h : DistinctBounds component) : DistinctBounds (array component)
  | wild {upper lower} (hupper : ∀ t ∈ upper, DistinctBounds t)
      (hlower : ∀ t ∈ lower, DistinctBounds t) (hupperApart : upper.Pairwise (¬Same · ·))
      (hlowerApart : lower.Pairwise (¬Same · ·)) : DistinctBounds (wild upper lower)
  | var (v : TyVar) : DistinctBounds (var v)

/-- Equal bound lists without repetition meet each other's bounds. -/
theorem bounds_same_symm {bounds bounds' : List Ty}
    (hsymm : ∀ b ∈ bounds, ∀ c, Same b c → Same c b) (hapart : bounds.Pairwise (¬Same · ·))
    (hlength : bounds.length = bounds'.length) (h : ∀ b ∈ bounds, ∃ c ∈ bounds', Same b c) :
    ∀ c ∈ bounds', ∃ b ∈ bounds, Same c b := by
  have hpartners : bounds.Pairwise fun a b => ∀ c, Same a c → ¬Same b c :=
    hapart.imp_of_mem fun _ hb hab c hac hbc => hab (same_trans hac (hsymm _ hb c hbc))
  intro c hc
  obtain ⟨b, hb, hbc⟩ := exists_partner_left hpartners h hlength c hc
  exact ⟨b, hb, hsymm b hb c hbc⟩

/-- On the types as they are kept equality is symmetric. -/
theorem DistinctBounds.same_symm {s t : Ty} (hs : s.DistinctBounds) (h : Same s t) :
    Same t s := by
  induction hs generalizing t with
  | cls _ =>
      obtain ⟨d, rfl, hd⟩ := same_cls.mp h
      exact same_cls.mpr ⟨_, rfl, hd.symm⟩
  | @param owner raw args _ _ howner hargs =>
      obtain ⟨owner', raw', args', rfl, hraw, howners, hall⟩ := same_param.mp h
      refine same_param.mpr ⟨owner, raw, args, rfl, hraw.symm, ?_, ?_⟩
      · cases howners with
        | none => exact .none
        | some hsame => exact .some (howner _ rfl hsame)
      · refine List.Forall₂.flip (List.forall₂_iff_zip.mpr ⟨hall.length_eq, fun {a b} hab => ?_⟩)
        exact hargs a (List.of_mem_zip hab).1 (List.forall₂_zip hall hab)
  | array _ ih =>
      obtain ⟨component', rfl, hc⟩ := same_array.mp h
      exact same_array.mpr ⟨_, rfl, ih hc⟩
  | wild _ _ hupperApart hlowerApart hupper hlower =>
      obtain ⟨upper', lower', rfl, ⟨hul, hu⟩, hll, hl⟩ := same_wild.mp h
      refine same_wild.mpr ⟨_, _, rfl, ⟨hul.symm, ?_⟩, hll.symm, ?_⟩
      · exact bounds_same_symm (fun b hb _ => hupper b hb) hupperApart hul hu
      · exact bounds_same_symm (fun b hb _ => hlower b hb) hlowerApart hll hl
  | var _ =>
      obtain ⟨w, rfl, hv⟩ := same_var.mp h
      exact same_var.mpr ⟨_, rfl, BEq.symm hv⟩

/-! ## What is built -/

theorem DistinctBounds.pairwise_eraseDups {ts : List Ty} (h : ∀ t ∈ ts, DistinctBounds t) :
    ts.eraseDups.Pairwise (¬Same · ·) := by
  match ts with
  | [] => exact .nil
  | t :: ts =>
      obtain ⟨ht, hts⟩ := List.forall_mem_cons.mp h
      rw [List.eraseDups_cons]
      have hrest : ∀ u ∈ ts.filter (fun u => !u == t), DistinctBounds u :=
        fun u hu => hts u (List.mem_of_mem_filter hu)
      refine List.pairwise_cons.mpr ⟨fun u hu hsame => ?_, pairwise_eraseDups hrest⟩
      have hdiffer := (List.mem_filter.mp (mem_of_mem_eraseDups hu)).2
      rw [show (u == t) = true from ht.same_symm hsame] at hdiffer
      cases hdiffer
termination_by ts.length
decreasing_by
  exact Nat.lt_succ_of_le (List.length_filter_le _ _)

/-- A wildcard keeps no two equal bounds, whatever it is built from. -/
theorem distinctBounds_wildcard {upper lower : List Ty} (hupper : ∀ t ∈ upper, DistinctBounds t)
    (hlower : ∀ t ∈ lower, DistinctBounds t) : (wildcard upper lower).DistinctBounds := by
  have hkept : ∀ {ts : List Ty}, (∀ t ∈ ts, DistinctBounds t) → ∀ t ∈ ts.eraseDups,
      DistinctBounds t := fun h t ht => h t (mem_of_mem_eraseDups ht)
  rw [wildcard]
  split
  · refine .wild ?_ (hkept hlower) (List.pairwise_singleton _ _)
      (DistinctBounds.pairwise_eraseDups hlower)
    exact List.forall_mem_singleton.mpr (.cls _)
  · exact .wild (hkept hupper) (hkept hlower) (DistinctBounds.pairwise_eraseDups hupper)
      (DistinctBounds.pairwise_eraseDups hlower)

theorem distinctBounds_arrayOf {t : Ty} (h : t.DistinctBounds) : t.arrayOf.DistinctBounds := by
  induction h with
  | cls c => exact .cls _
  | param howner hargs _ _ => exact .array (.param howner hargs)
  | array h _ => exact .array (.array h)
  | wild _ _ _ _ hupper hlower =>
      rw [arrayOf, arraysOf_eq_map, arraysOf_eq_map]
      exact distinctBounds_wildcard (List.forall_mem_map.mpr hupper)
        (List.forall_mem_map.mpr hlower)
  | var v => exact .array (.var v)

/-- A wildcard with at most one bound on each side has no bound twice. -/
theorem Formed.distinctBounds {isClass : ClassRef → Prop} {t : Ty} (h : t.Formed isClass) :
    t.DistinctBounds := by
  induction h with
  | cls _ => exact .cls _
  | param _ _ _ howner hargs => exact .param howner hargs
  | array _ _ _ ih => exact .array ih
  | wildUpper _ ih =>
      exact .wild (List.forall_mem_singleton.mpr ih) (List.forall_mem_nil _)
        (List.pairwise_singleton _ _) .nil
  | wildLower _ _ ihupper ihlower =>
      exact .wild (List.forall_mem_singleton.mpr ihupper) (List.forall_mem_singleton.mpr ihlower)
        (List.pairwise_singleton _ _) (List.pairwise_singleton _ _)
  | var v => exact .var v

/-- Replacing variables keeps the bounds of every wildcard different. -/
theorem distinctBounds_subst {σ : Substitution} {t : Ty} (h : t.DistinctBounds)
    (himage : σ.Binds DistinctBounds) : (t.subst σ).DistinctBounds := by
  induction h with
  | cls c => exact .cls c
  | param _ _ howner hargs =>
      rw [subst_param]
      refine .param (fun t ht => ?_) (List.forall_mem_map.mpr hargs)
      obtain ⟨o, rfl, rfl⟩ := Option.map_eq_some_iff.mp ht
      exact howner o rfl
  | array _ ih => exact distinctBounds_arrayOf ih
  | wild _ _ _ _ hupper hlower =>
      rw [subst, substList_eq_map, substList_eq_map]
      exact distinctBounds_wildcard (List.forall_mem_map.mpr hupper)
        (List.forall_mem_map.mpr hlower)
  | var v => exact himage.image (.var v)

end Ty

end Generics
