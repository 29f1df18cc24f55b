import Generics.Proofs.Occurrences

/-!
Equal types may stand for each other. On the types as they are kept equality is an equivalence,
and what is made of equal types is equal: the array over them, and what a substitution makes of
them. A wildcard is built anew then, and bounds that were different may have become equal. As many
of them are dropped on either side, in whatever order they stand, since the bounds that are left
have partners among each other both ways.
-/

namespace Generics

namespace Ty

variable {s t : Ty} {v : TyVar} {ts us : List Ty} {σ : Substitution}

/-! ## Bounds as a set -/

/-- Each type of a list equals one of another list. -/
abbrev Partnered (ts us : List Ty) : Prop := ∀ t ∈ ts, ∃ u ∈ us, Same t u

/-- What equality of wildcards asks of their bounds. -/
abbrev SameBounds (ts us : List Ty) : Prop := ts.length = us.length ∧ Partnered ts us

/-- Of equal types one is kept. -/
theorem exists_kept {t : Ty} {ts : List Ty} (ht : t ∈ ts) : ∃ u ∈ ts.eraseDups, Same t u := by
  match ts with
  | first :: rest =>
      rw [List.eraseDups_cons]
      by_cases hsame : Same t first
      · exact ⟨first, List.mem_cons_self, hsame⟩
      · have hrest : t ∈ rest.filter fun u => !u == first := by
          have hne : t ≠ first := fun heq => hsame (heq ▸ same_refl t)
          exact List.mem_filter.mpr ⟨(List.mem_cons.mp ht).resolve_left hne, by simpa using hsame⟩
        obtain ⟨u, hu, htu⟩ := exists_kept hrest
        exact ⟨u, List.mem_cons_of_mem _ hu, htu⟩
termination_by ts.length
decreasing_by
  exact Nat.lt_succ_of_le (List.length_filter_le _ _)

theorem Partnered.eraseDups (h : Partnered ts us) : Partnered ts.eraseDups us.eraseDups := by
  intro t ht
  obtain ⟨u, hu, htu⟩ := h t (mem_of_mem_eraseDups ht)
  obtain ⟨w, hw, huw⟩ := exists_kept hu
  exact ⟨w, hw, same_trans htu huw⟩

/-- Different types with partners in another list are no more than those of the other list. -/
theorem Partnered.length_le (h : Partnered ts us) (hkept : ∀ t ∈ ts, DistinctBounds t)
    (hapart : ts.Pairwise (¬Same · ·)) : ts.length ≤ us.length := by
  have hpartners : ts.Pairwise fun a b => ∀ c, Same a c → ¬Same b c :=
    hapart.imp_of_mem fun _ hb hab c hac hbc => hab (same_trans hac ((hkept _ hb).same_symm hbc))
  obtain ⟨partners, hlength, hnodup, hmem⟩ := exists_partners hpartners h
  rw [← hlength]
  exact (hnodup.subperm fun c hc => (hmem c hc).1).length_le

/-- Lists with partners in each other keep as many types, and these have partners too. -/
theorem sameBounds_eraseDups (hts : ∀ t ∈ ts, DistinctBounds t) (hus : ∀ u ∈ us, DistinctBounds u)
    (h : Partnered ts us) (hback : Partnered us ts) : SameBounds ts.eraseDups us.eraseDups := by
  refine ⟨le_antisymm ?_ ?_, h.eraseDups⟩
  · exact h.eraseDups.length_le (fun t ht => hts t (mem_of_mem_eraseDups ht))
      (DistinctBounds.pairwise_eraseDups hts)
  · exact hback.eraseDups.length_le (fun u hu => hus u (mem_of_mem_eraseDups hu))
      (DistinctBounds.pairwise_eraseDups hus)

/-- Wildcards are equal that are built from bounds of which the same is left. -/
theorem same_wildcard {upper lower upper' lower' : List Ty}
    (hupper : SameBounds upper.eraseDups upper'.eraseDups)
    (hlower : SameBounds lower.eraseDups lower'.eraseDups) :
    Same (wildcard upper lower) (wildcard upper' lower') := by
  refine same_wild.mpr ⟨_, _, rfl, ?_, hlower⟩
  cases hfirst : upper.eraseDups with
  | nil =>
      rw [hfirst] at hupper
      rw [List.length_eq_zero_iff.mp hupper.1.symm]
      exact ⟨rfl, List.forall_mem_singleton.mpr ⟨object, List.mem_cons_self, same_refl object⟩⟩
  | cons t rest =>
      cases hsecond : upper'.eraseDups with
      | nil =>
          rw [hfirst, hsecond] at hupper
          cases hupper.1
      | cons u rest' =>
          rw [hfirst, hsecond] at hupper
          exact hupper

/-- Equal bounds stay equal as a set when the same is made of each of them. -/
theorem SameBounds.map {f : Ty → Ty} {bounds bounds' : List Ty} (h : SameBounds bounds bounds')
    (hbounds : ∀ b ∈ bounds, DistinctBounds b) (hbounds' : ∀ b ∈ bounds', DistinctBounds b)
    (hapart : bounds.Pairwise (¬Same · ·)) (hkept : ∀ b, DistinctBounds b → DistinctBounds (f b))
    (hf : ∀ b ∈ bounds, ∀ c ∈ bounds', Same b c → Same (f b) (f c)) :
    SameBounds (bounds.map f).eraseDups (bounds'.map f).eraseDups := by
  refine sameBounds_eraseDups (List.forall_mem_map.mpr fun b hb => hkept b (hbounds b hb))
    (List.forall_mem_map.mpr fun b hb => hkept b (hbounds' b hb)) ?_ ?_
  · refine List.forall_mem_map.mpr fun b hb => ?_
    obtain ⟨c, hc, hbc⟩ := h.2 b hb
    exact ⟨f c, List.mem_map_of_mem hc, hf b hb c hc hbc⟩
  · refine List.forall_mem_map.mpr fun c hc => ?_
    obtain ⟨b, hb, hcb⟩ := bounds_same_symm (fun b hb _ => (hbounds b hb).same_symm) hapart
      h.1 h.2 c hc
    have hsame := hf b hb c hc ((hbounds' c hc).same_symm hcb)
    exact ⟨f b, List.mem_map_of_mem hb, (hkept b (hbounds b hb)).same_symm hsame⟩

/-! ## What is made of equal types -/

/-- Wildcards that are built anew from equal ones, with the same made of each bound, are equal. -/
theorem same_wildcard_map {f : Ty → Ty} {upper lower upper' lower' : List Ty}
    (hs : (wild upper lower).DistinctBounds) (ht : (wild upper' lower').DistinctBounds)
    (h : Same (wild upper lower) (wild upper' lower'))
    (hkept : ∀ b, DistinctBounds b → DistinctBounds (f b))
    (hupper : ∀ b ∈ upper, ∀ c, DistinctBounds c → Same b c → Same (f b) (f c))
    (hlower : ∀ b ∈ lower, ∀ c, DistinctBounds c → Same b c → Same (f b) (f c)) :
    Same (wildcard (upper.map f) (lower.map f)) (wildcard (upper'.map f) (lower'.map f)) := by
  obtain ⟨_, _, heq, huppers, hlowers⟩ := same_wild.mp h
  cases heq
  cases hs with
  | wild hu hl huApart hlApart =>
      cases ht with
      | wild hu' hl' _ _ =>
          refine same_wildcard ?_ ?_
          · exact SameBounds.map huppers hu hu' huApart hkept
              fun b hb c hc => hupper b hb c (hu' c hc)
          · exact SameBounds.map hlowers hl hl' hlApart hkept
              fun b hb c hc => hlower b hb c (hl' c hc)

/-- The arrays over equal types are equal. -/
theorem DistinctBounds.same_arrayOf (hs : s.DistinctBounds) (ht : t.DistinctBounds)
    (h : Same s t) : Same s.arrayOf t.arrayOf := by
  induction hs generalizing t with
  | cls _ =>
      obtain ⟨d, rfl, hname⟩ := same_cls.mp h
      exact same_cls.mpr ⟨_, rfl, by simp [hname]⟩
  | param _ _ _ _ =>
      obtain ⟨_, _, _, rfl, -⟩ := same_param.mp h
      exact same_array.mpr ⟨_, rfl, h⟩
  | array _ _ =>
      obtain ⟨_, rfl, -⟩ := same_array.mp h
      exact same_array.mpr ⟨_, rfl, h⟩
  | wild hupper hlower hupperApart hlowerApart ihupper ihlower =>
      obtain ⟨_, _, rfl, -⟩ := same_wild.mp h
      rw [arrayOf, arrayOf]
      simp only [arraysOf_eq_map]
      exact same_wildcard_map (.wild hupper hlower hupperApart hlowerApart) ht h
        (fun _ => distinctBounds_arrayOf) (fun b hb c hc => ihupper b hb hc)
        fun b hb c hc => ihlower b hb hc
  | var _ =>
      obtain ⟨_, rfl, -⟩ := same_var.mp h
      exact same_array.mpr ⟨_, rfl, h⟩

/-- What a substitution makes of equal types is equal, as long as what it puts in is kept as types
are kept. -/
theorem DistinctBounds.same_subst (hσ : σ.Binds DistinctBounds) (hs : s.DistinctBounds)
    (ht : t.DistinctBounds) (h : Same s t) : Same (s.subst σ) (t.subst σ) := by
  induction hs generalizing t with
  | cls _ =>
      obtain ⟨d, rfl, hname⟩ := same_cls.mp h
      exact same_cls.mpr ⟨d, rfl, hname⟩
  | param howner hargs ihowner ihargs =>
      obtain ⟨owner', raw', args', rfl, hraw, howners, hall⟩ := same_param.mp h
      cases ht with
      | param howner' hargs' =>
          rw [subst_param, subst_param]
          refine same_param.mpr ⟨_, _, _, rfl, hraw, ?_, ?_⟩
          · cases howners with
            | none => exact .none
            | some hsame => exact .some (ihowner _ rfl (howner' _ rfl) hsame)
          · rw [List.forall₂_map_left_iff, List.forall₂_map_right_iff]
            refine List.forall₂_iff_zip.mpr ⟨hall.length_eq, fun {a b} hab => ?_⟩
            obtain ⟨ha, hb⟩ := List.of_mem_zip hab
            exact ihargs a ha (hargs' b hb) (List.forall₂_zip hall hab)
  | array hcomponent ih =>
      obtain ⟨component', rfl, hsame⟩ := same_array.mp h
      cases ht with
      | array hcomponent' =>
          exact (distinctBounds_subst hcomponent hσ).same_arrayOf
            (distinctBounds_subst hcomponent' hσ) (ih hcomponent' hsame)
  | wild hupper hlower hupperApart hlowerApart ihupper ihlower =>
      obtain ⟨_, _, rfl, -⟩ := same_wild.mp h
      rw [subst, subst]
      simp only [substList_eq_map]
      exact same_wildcard_map (.wild hupper hlower hupperApart hlowerApart) ht h
        (fun _ hb => distinctBounds_subst hb hσ) (fun b hb c hc => ihupper b hb hc)
        fun b hb c hc => ihlower b hb hc
  | var v =>
      obtain ⟨w, rfl, hvw⟩ := same_var.mp h
      exact same_image_of_beq σ hvw

theorem DistinctBounds.same_resolve (hσ : σ.Binds DistinctBounds) (hs : s.DistinctBounds)
    (ht : t.DistinctBounds) (h : Same s t) : Same (σ.resolve s) (σ.resolve t) := by
  unfold Substitution.resolve
  split
  · exact h
  · exact hs.same_subst hσ ht h

/-- In equal types the same variables occur, and where they are looked for without a refusal they
are found. -/
theorem DistinctBounds.mentions_eq (hs : s.DistinctBounds) (h : Same s t)
    (hsQuiet : (s.occurrenceVisit v).guard.refusals = 0)
    (htQuiet : (t.occurrenceVisit v).guard.refusals = 0) : s.mentions v = t.mentions v := by
  rw [Bool.eq_iff_iff]
  constructor
  · exact fun hv => mentions_of_quiet htQuiet (occurs_of_same (occurs_of_mentions hv) h)
  · exact fun hv =>
      mentions_of_quiet hsQuiet (occurs_of_same (occurs_of_mentions hv) (hs.same_symm h))

/-- On the types as they are kept equality is an equivalence, and arrays, substitutions that put
such types in, and the search for a variable do not tell equal types apart. -/
theorem same_respected (hσ : σ.Binds DistinctBounds) :
    Equivalence (fun s t : {t : Ty // t.DistinctBounds} => Same s.1 t.1) ∧
      ∀ s t : Ty, s.DistinctBounds → t.DistinctBounds → Same s t →
        Same (σ.resolve s) (σ.resolve t) ∧ Same s.arrayOf t.arrayOf ∧
          ∀ v, (s.occurrenceVisit v).guard.refusals = 0 →
            (t.occurrenceVisit v).guard.refusals = 0 → s.mentions v = t.mentions v := by
  constructor
  · exact ⟨fun s => same_refl s.1, fun {s _} h => s.2.same_symm h, fun h h' => same_trans h h'⟩
  · intro s t hs ht h
    exact ⟨hs.same_resolve hσ ht h, hs.same_arrayOf ht h, fun v => hs.mentions_eq h⟩

/-- A list of what is below some bounds. -/
def listBelow (bounds : List Ty) : Ty :=
  param none (.named "List" .interface) [wild bounds []]

def boundVar (name : String) : TyVar := ⟨0, .synthetic "m", name⟩

def firstBounds : Ty := wild [var (boundVar "X"), cls (.named "Text" .ordinary),
  listBelow [var (boundVar "Y"), var (boundVar "X")]] []

/-- The same bounds in another order, on both levels. -/
def secondBounds : Ty := wild [listBelow [var (boundVar "X"), var (boundVar "Y")],
  var (boundVar "X"), cls (.named "Text" .ordinary)] []

/-- Makes two of the three bounds equal, and changes both bounds of the list. -/
def boundNames : Substitution :=
  ⟨[(boundVar "X", cls (.named "Text" .ordinary)), (boundVar "Y", var (boundVar "X"))]⟩

theorem distinctBounds_listBelow {bounds : List Ty} (h : ∀ b ∈ bounds, DistinctBounds b)
    (hapart : bounds.Pairwise (¬Same · ·)) : (listBelow bounds).DistinctBounds :=
  .param nofun (List.forall_mem_singleton.mpr (.wild h nofun hapart .nil))

theorem same_respected_bounds : boundNames.Binds DistinctBounds ∧ firstBounds.DistinctBounds ∧
    secondBounds.DistinctBounds ∧ Same firstBounds secondBounds ∧
    boundNames.resolve firstBounds = wild [cls (.named "Text" .ordinary),
      listBelow [var (boundVar "X"), cls (.named "Text" .ordinary)]] [] ∧
    Same (boundNames.resolve firstBounds) (boundNames.resolve secondBounds) ∧
    Same firstBounds.arrayOf secondBounds.arrayOf ∧
    firstBounds.mentions (boundVar "Y") = secondBounds.mentions (boundVar "Y") := by
  have hbinds : boundNames.Binds DistinctBounds :=
    List.forall_mem_cons.mpr ⟨.cls _, List.forall_mem_singleton.mpr (.var _)⟩
  have hpair : ∀ a b : String, ∀ t ∈ [var (boundVar a), var (boundVar b)], DistinctBounds t :=
    fun _ _ => List.forall_mem_cons.mpr ⟨.var _, List.forall_mem_singleton.mpr (.var _)⟩
  have hfirst : firstBounds.DistinctBounds := by
    refine .wild ?_ nofun (by decide) .nil
    exact List.forall_mem_cons.mpr ⟨.var _, List.forall_mem_cons.mpr ⟨.cls _,
      List.forall_mem_singleton.mpr (distinctBounds_listBelow (hpair "Y" "X") (by decide))⟩⟩
  have hsecond : secondBounds.DistinctBounds := by
    refine .wild ?_ nofun (by decide) .nil
    exact List.forall_mem_cons.mpr ⟨distinctBounds_listBelow (hpair "X" "Y") (by decide),
      List.forall_mem_cons.mpr ⟨.var _, List.forall_mem_singleton.mpr (.cls _)⟩⟩
  have hsame : Same firstBounds secondBounds := by decide
  obtain ⟨-, hrespected⟩ := same_respected hbinds
  obtain ⟨hresolve, harray, hmentions⟩ := hrespected _ _ hfirst hsecond hsame
  exact ⟨hbinds, hfirst, hsecond, hsame, rfl, hresolve, harray,
    hmentions _ (by decide +kernel) (by decide +kernel)⟩

end Ty

end Generics
