import Generics.Proofs.Search

/-!
Searches that go together although one of them takes more nodes for equal.
Where nodes have equal images, the search through the images leaves some of
them aside that the other search looks at. What it leaves aside equals an
image that stands in its queue or was seen, so nothing that lies above is
lost, and it ends with the image of what the other search finds, in no more
steps.
-/

namespace Generics

variable {α α' β β' : Type}

/-- Expansions of nodes and of their images, where equal nodes have equal
images, and images that only became equal are expanded alike. -/
structure Merging [BEq α] [BEq α'] (expand : α → Expansion α β) (expand' : α' → Expansion α' β')
    (R : α → α' → Prop) (S : β → β' → Prop) : Prop where
  related : ∀ {a a'}, R a a' → (expand a).Related R S (expand' a')
  equal : ∀ {a a' s s'}, R a a' → R s s' → (a == s) = true → (a' == s') = true
  merged : ∀ {a a' s s'}, R a a' → R s s' → (a' == s') = true → (a == s) = true ∨
    (expand' a').Related (fun x y => (x == y) = true) (fun _ _ => True) (expand' s')
  trans : ∀ {x y z : α}, (x == y) = true → (y == z) = true → (x == z) = true
  transImage : ∀ {x y z : α'}, (x == y) = true → (y == z) = true → (x == z) = true

/-- A queue beside a queue of images. An image is left out only when it is
known: it equals one that was seen or one that stands before it. -/
inductive Covers [BEq α'] (R : α → α' → Prop) : List α' → List α → List α' → Prop where
  | nil {known} : Covers R known [] []
  | keep {known a a' rest rest'} (h : R a a') (hrest : Covers R (a' :: known) rest rest') :
      Covers R known (a :: rest) (a' :: rest')
  | leave {known a a' rest rest'} (h : R a a') (hknown : known.contains a' = true)
      (hrest : Covers R known rest rest') : Covers R known (a :: rest) rest'

namespace Covers

variable [BEq α'] {R : α → α' → Prop} {known known' queue' more' : List α'} {queue more : List α}

theorem mono (h : Covers R known queue queue')
    (hknown : ∀ x, known.contains x = true → known'.contains x = true) :
    Covers R known' queue queue' := by
  induction h generalizing known' with
  | nil => exact .nil
  | keep h _ ih =>
      refine .keep h (ih ?_)
      intro x hx
      rw [List.contains_cons, Bool.or_eq_true] at hx ⊢
      exact hx.imp_right (hknown x)
  | leave h hcontains _ ih => exact .leave h (hknown _ hcontains) (ih hknown)

/-- Nodes that are queued together with their images. -/
theorem append (h : Covers R known queue queue') (hmore : List.Forall₂ R more more') :
    Covers R known (queue ++ more) (queue' ++ more') := by
  induction h with
  | @nil known =>
      induction hmore generalizing known with
      | nil => exact .nil
      | cons h _ ih => exact .keep h ih
  | keep h _ ih => exact .keep h ih
  | leave h hcontains _ ih => exact .leave h hcontains ih

/-- Nodes that are queued while their images are known. -/
theorem absorb (h : Covers R known queue queue')
    (hmore : ∀ a ∈ more, ∃ a', R a a' ∧ (queue' ++ known).contains a' = true) :
    Covers R known (queue ++ more) queue' := by
  induction h with
  | nil =>
      induction more with
      | nil => exact .nil
      | cons a more ih =>
          obtain ⟨a', ha, hcontains⟩ := hmore a List.mem_cons_self
          exact .leave ha hcontains (ih fun x hx => hmore x (List.mem_cons_of_mem a hx))
  | keep h _ ih =>
      refine .keep h (ih ?_)
      intro x hx
      obtain ⟨x', hxx', hcontains⟩ := hmore x hx
      refine ⟨x', hxx', ?_⟩
      simp only [List.cons_append, List.contains_cons, List.contains_append,
        Bool.or_eq_true] at hcontains ⊢
      tauto
  | leave h hcontains _ ih => exact .leave h hcontains (ih hmore)

end Covers

section

variable [BEq α] [BEq α'] {expand : α → Expansion α β} {expand' : α' → Expansion α' β'}
variable {R : α → α' → Prop} {S : β → β' → Prop}

/-- The two searches under way. The same was seen by both, and what lies above a
seen image is queued or seen. -/
structure Merged (expand' : α' → Expansion α' β') (R : α → α' → Prop)
    (queue seen : List α) (queue' seen' : List α') : Prop where
  queued : Covers R seen' queue queue'
  known : ∀ s ∈ seen, ∃ s', R s s' ∧ seen'.contains s' = true
  images : ∀ s' ∈ seen', ∃ s, R s s' ∧ seen.contains s = true
  closed : ∀ s' ∈ seen', ∃ more', expand' s' = .next more' ∧
    ∀ x ∈ more', (queue' ++ seen').contains x = true

variable {queue seen rest : List α} {queue' seen' rest' : List α'} {a : α} {a' : α'} {b : β}

theorem Merging.contains_of_beq (h : Merging expand expand' R S) {xs : List α'} {x y : α'}
    (hxy : (x == y) = true) (hy : xs.contains y = true) : xs.contains x = true := by
  obtain ⟨z, hz, hyz⟩ := List.contains_iff_exists_mem_beq.mp hy
  exact List.contains_iff_exists_mem_beq.mpr ⟨z, hz, h.transImage hxy hyz⟩

/-- The image of a seen node is known. -/
theorem Merged.contains_image (h : Merging expand expand' R S)
    (hstate : Merged expand' R queue seen queue' seen') (ha : R a a')
    (hseen : seen.contains a = true) : seen'.contains a' = true := by
  obtain ⟨s, hs, heq⟩ := List.contains_iff_exists_mem_beq.mp hseen
  obtain ⟨s', hss', hcontains⟩ := hstate.known s hs
  exact h.contains_of_beq (h.equal ha hss' heq) hcontains

/-- A known image adds nothing to what is known. -/
theorem Merging.covers_of_known (h : Merging expand expand' R S) {known : List α'}
    (hknown : known.contains a' = true) (hrest : Covers R (a' :: known) rest rest') :
    Covers R known rest rest' := by
  apply hrest.mono
  intro x hx
  rw [List.contains_cons, Bool.or_eq_true] at hx
  exact hx.elim (fun hxa => h.contains_of_beq hxa hknown) id

/-- The queue of images goes on without an image that was seen before. -/
theorem Merged.leave (h : Merging expand expand' R S)
    (hstate : Merged expand' R (a :: rest) seen (a' :: rest') seen') (ha : R a a')
    (hrest : Covers R seen' rest rest') (hknown : seen'.contains a' = true) :
    Merged expand' R (a :: rest) seen rest' seen' := by
  refine { hstate with queued := .leave ha hknown hrest, closed := ?_ }
  intro s' hs'
  obtain ⟨more', hmore', habove⟩ := hstate.closed s' hs'
  refine ⟨more', hmore', fun x hx => ?_⟩
  have hx := habove x hx
  simp only [List.cons_append, List.contains_cons, List.contains_append,
    Bool.or_eq_true] at hx ⊢
  rcases hx with hxa | hx
  · exact Or.inr (h.contains_of_beq hxa hknown)
  · exact hx

/-- A new node whose image is known is no goal, and the images of the nodes
above it are known too. -/
theorem Merged.above_known (h : Merging expand expand' R S)
    (hstate : Merged expand' R queue seen queue' seen') (ha : R a a')
    (hknown : seen'.contains a' = true) (hnew : seen.contains a = false) :
    ∃ more, expand a = .next more ∧
      ∀ x ∈ more, ∃ x', R x x' ∧ (queue' ++ seen').contains x' = true := by
  obtain ⟨s', hs', heq⟩ := List.contains_iff_exists_mem_beq.mp hknown
  obtain ⟨s, hs, hseen⟩ := hstate.images s' hs'
  obtain ⟨seenMore, hseenMore, habove⟩ := hstate.closed s' hs'
  have hne : ¬(a == s) = true := by
    intro has
    obtain ⟨z, hz, hsz⟩ := List.contains_iff_exists_mem_beq.mp hseen
    rw [List.contains_iff_exists_mem_beq.mpr ⟨z, hz, h.trans has hsz⟩] at hnew
    cases hnew
  have hmerged := (h.merged ha hs heq).resolve_left hne
  have hrelated := h.related ha
  rw [hseenMore] at hmerged
  generalize expand' a' = e' at hmerged hrelated
  generalize expand a = e at hrelated
  cases hmerged with
  | next hequal =>
      cases hrelated with
      | @next more more' hmore =>
          refine ⟨more, rfl, fun x hx => ?_⟩
          obtain ⟨x', hx', hxx'⟩ := forall₂_mem_left hmore hx
          obtain ⟨y, hy, hxy⟩ := forall₂_mem_left hequal hx'
          exact ⟨x', hxx', h.contains_of_beq hxy (habove y hy)⟩

/-- A node is taken from the queue, and its image from the queue of images. -/
theorem Merged.pass {more : List α} {more' : List α'}
    [ReflBEq α] [ReflBEq α'] (hstate : Merged expand' R (a :: rest) seen (a' :: rest') seen')
    (ha : R a a') (hrest : Covers R (a' :: seen') rest rest') (hexpand : expand' a' = .next more')
    (hmore : List.Forall₂ R more more') :
    Merged expand' R (rest ++ more) (a :: seen) (rest' ++ more') (a' :: seen') where
  queued := hrest.append hmore
  known := by
    intro s hs
    rcases List.mem_cons.mp hs with rfl | hs
    · exact ⟨a', ha, by simp⟩
    · obtain ⟨s', hss', hcontains⟩ := hstate.known s hs
      exact ⟨s', hss', by rw [List.contains_cons, hcontains, Bool.or_true]⟩
  images := by
    intro s' hs'
    rcases List.mem_cons.mp hs' with rfl | hs'
    · exact ⟨a, ha, by simp⟩
    · obtain ⟨s, hss', hcontains⟩ := hstate.images s' hs'
      exact ⟨s, hss', by rw [List.contains_cons, hcontains, Bool.or_true]⟩
  closed := by
    intro s' hs'
    rcases List.mem_cons.mp hs' with rfl | hs'
    · refine ⟨more', hexpand, fun x hx => ?_⟩
      exact List.contains_iff_exists_mem_beq.mpr ⟨x, by simp [hx], BEq.rfl⟩
    · obtain ⟨above, habove, hcontains⟩ := hstate.closed s' hs'
      refine ⟨above, habove, fun x hx => ?_⟩
      have hx := hcontains x hx
      simp only [List.cons_append, List.contains_cons, List.contains_append,
        Bool.or_eq_true] at hx ⊢
      tauto

/-- A node is taken from the queue, while its image is known. -/
theorem Merged.absorb {more : List α}
    (hstate : Merged expand' R (a :: rest) seen queue' seen') (ha : R a a')
    (hknown : seen'.contains a' = true) (hqueue : Covers R seen' (rest ++ more) queue') :
    Merged expand' R (rest ++ more) (a :: seen) queue' seen' where
  queued := hqueue
  known := by
    intro s hs
    rcases List.mem_cons.mp hs with rfl | hs
    · exact ⟨a', ha, hknown⟩
    · exact hstate.known s hs
  images := by
    intro s' hs'
    obtain ⟨s, hss', hcontains⟩ := hstate.images s' hs'
    exact ⟨s, hss', by rw [List.contains_cons, hcontains, Bool.or_true]⟩
  closed := hstate.closed

/-- The search through the images finds the image of what is found, in no more steps. -/
theorem searchList_merged [ReflBEq α] [ReflBEq α'] (h : Merging expand expand' R S) (steps : Nat)
    {steps' : Nat} (hsteps : steps ≤ steps')
    (hstate : Merged expand' R queue seen queue' seen')
    (hfound : searchList expand steps queue seen = .found b) :
    ∃ b', searchList expand' steps' queue' seen' = .found b' ∧ S b b' := by
  induction steps generalizing queue seen queue' seen' steps' with
  | zero =>
      simp only [searchList] at hfound
      split at hfound <;> cases hfound
  | succ steps ih =>
      -- a node with a known image changes nothing for the search through the images
      have hleft : ∀ {a : α} {a' : α'} {rest : List α} {queue' : List α'} {steps' : Nat},
          steps ≤ steps' → R a a' → seen'.contains a' = true → Covers R seen' rest queue' →
          Merged expand' R (a :: rest) seen queue' seen' →
          searchList expand (steps + 1) (a :: rest) seen = .found b →
          ∃ b', searchList expand' steps' queue' seen' = .found b' ∧ S b b' := by
        intro a a' rest queue' steps' hsteps ha hknown hrest hstate hfound
        simp only [searchList] at hfound
        cases hseen : seen.contains a with
        | true =>
            rw [if_pos hseen] at hfound
            exact ih hsteps { hstate with queued := hrest } hfound
        | false =>
            obtain ⟨more, hmore, habove⟩ := hstate.above_known h ha hknown hseen
            simp only [hseen, hmore, Bool.false_eq_true, if_false] at hfound
            exact ih hsteps (hstate.absorb ha hknown (hrest.absorb habove)) hfound
      cases hstate.queued with
      | nil => cases hfound
      | leave ha hknown hrest =>
          exact hleft (by omega) ha hknown hrest hstate hfound
      | @keep _ a a' rest rest' ha hrest =>
          obtain ⟨steps', rfl⟩ := Nat.exists_eq_succ_of_ne_zero (show steps' ≠ 0 by omega)
          have hsteps : steps ≤ steps' := by omega
          cases hknown : seen'.contains a' with
          | true =>
              simp only [searchList, hknown, if_true]
              have hrest := h.covers_of_known hknown hrest
              exact hleft hsteps ha hknown hrest (hstate.leave h ha hrest hknown) hfound
          | false =>
              have hnew : seen.contains a = false := by
                rw [← Bool.not_eq_true]
                intro hseen
                rw [hstate.contains_image h ha hseen] at hknown
                cases hknown
              simp only [searchList, hnew, hknown, Bool.false_eq_true, if_false] at hfound ⊢
              have hrelated := h.related ha
              generalize hexpand : expand a = e at hrelated hfound
              generalize hexpand' : expand' a' = e' at hrelated
              cases hrelated with
              | goal hb =>
                  cases hfound
                  exact ⟨_, rfl, hb⟩
              | next hmore =>
                  exact ih hsteps (hstate.pass ha hrest hexpand' hmore) hfound

theorem search_merged [ReflBEq α] [ReflBEq α'] (h : Merging expand expand' R S) (ha : R a a') {steps : Nat}
    (hfound : search expand steps a = .found b) :
    ∃ b', search expand' steps a' = .found b' ∧ S b b' := by
  rw [search_eq_searchList] at hfound ⊢
  refine searchList_merged h steps (le_refl _) ?_ hfound
  exact
    { queued := .keep ha .nil
      known := by simp
      images := by simp
      closed := by simp }

end

end Generics
