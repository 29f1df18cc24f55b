import Generics.Search
import Mathlib.Tactic

/-!
What breadth-first search finds. The reference is a search by levels: the
first goal exactly `n` edges below a node, in the order of the expansions,
without a queue and without remembering what was seen. Searching with a
queue finds the goal of the first level that has one, although nodes that
equal earlier ones are left aside, as long as equal nodes are equally far
from a goal.

The number of steps is not part of the reference. It can only replace an
answer by `outOfSteps`, and it does not when the nodes that differ from each
other have fewer edges in total than there are steps.
-/

namespace Generics

variable {α β : Type}

namespace Expansion

def goal? : Expansion α β → Option β
  | goal b => some b
  | next _ => none

/-- The nodes to look at next; a goal has none. -/
def nodes : Expansion α β → List α
  | goal _ => []
  | next more => more

end Expansion

/-- The first goal exactly `n` edges below a node. -/
def firstAt (expand : α → Expansion α β) : Nat → α → Option β
  | 0, a => (expand a).goal?
  | n + 1, a => (expand a).nodes.findSome? (firstAt expand n)

/-- A goal on the first level that has one, and the first there. -/
def Nearest (expand : α → Expansion α β) (a : α) (b : β) : Prop :=
  ∃ n, firstAt expand n a = some b ∧ ∀ m < n, firstAt expand m a = none

/-- No goal on the first `n` levels. -/
def FreeTo (expand : α → Expansion α β) (n : Nat) (a : α) : Prop :=
  ∀ m < n, firstAt expand m a = none

/-- The nodes of a search on which leaving equal nodes aside does no harm. -/
structure Faithful [BEq α] (expand : α → Expansion α β) (P : α → Prop) :
    Prop where
  nodes : ∀ {a}, P a → ∀ a' ∈ (expand a).nodes, P a'
  /-- A node equal to one without goals at a distance has none there. -/
  equal : ∀ {a s}, P a → P s → (a == s) = true →
    ∀ n, firstAt expand n s = none → firstAt expand n a = none

section Levels

variable {expand : α → Expansion α β}

theorem goal?_of_free {n : Nat} {a : α} (h : FreeTo expand (n + 1) a) :
    (expand a).goal? = none :=
  h 0 (Nat.succ_pos n)

theorem nodes_free {n : Nat} {a a' : α} (h : FreeTo expand (n + 1) a)
    (hmem : a' ∈ (expand a).nodes) : FreeTo expand n a' := by
  intro m hm
  have hlevel : (expand a).nodes.findSome? (firstAt expand m) = none :=
    h (m + 1) (Nat.succ_lt_succ hm)
  exact List.findSome?_eq_none_iff.mp hlevel a' hmem

theorem FreeTo.mono {m n : Nat} {a : α} (h : FreeTo expand n a) (hm : m ≤ n) :
    FreeTo expand m a :=
  fun k hk => h k (lt_of_lt_of_le hk hm)

theorem FreeTo.succ {n : Nat} {a : α} (h : FreeTo expand n a)
    (hn : firstAt expand n a = none) : FreeTo expand (n + 1) a := by
  intro m hm
  rcases Nat.lt_succ_iff_lt_or_eq.mp hm with hlt | rfl
  · exact h m hlt
  · exact hn

/-- Some level has a goal, so some level is the first that has one. -/
theorem exists_nearest {n : Nat} {a : α} {b : β}
    (h : firstAt expand n a = some b) : ∃ b', Nearest expand a b' := by
  classical
  have hex : ∃ k, firstAt expand k a ≠ none := ⟨n, by simp [h]⟩
  obtain ⟨b', hb'⟩ := Option.ne_none_iff_exists'.mp (Nat.find_spec hex)
  refine ⟨b', Nat.find hex, hb', ?_⟩
  intro m hm
  simpa using Nat.find_min hex hm

theorem nearest_unique {a : α} {b b' : β} (h : Nearest expand a b)
    (h' : Nearest expand a b') : b = b' := by
  obtain ⟨n, hn, hfree⟩ := h
  obtain ⟨n', hn', hfree'⟩ := h'
  have heq : n = n' := by
    rcases Nat.lt_trichotomy n n' with hlt | heq | hgt
    · exact absurd (hfree' n hlt) (by simp [hn])
    · exact heq
    · exact absurd (hfree n' hgt) (by simp [hn'])
  subst heq
  exact Option.some.inj (hn.symm.trans hn')

end Levels

/-! ## Related searches -/

theorem forall₂_mem_left {α β : Type} {R : α → β → Prop} {as : List α} {bs : List β}
    (h : List.Forall₂ R as bs) {a : α} (ha : a ∈ as) : ∃ b ∈ bs, R a b := by
  induction h with
  | nil => cases ha
  | cons hhead _ ih =>
      rcases List.mem_cons.mp ha with rfl | hrest
      · exact ⟨_, List.mem_cons_self, hhead⟩
      · obtain ⟨b, hb, hab⟩ := ih hrest
        exact ⟨b, List.mem_cons_of_mem _ hb, hab⟩

/-- Two expansions that go together: both goals, or as many nodes, in order. -/
inductive Expansion.Related {α' β' : Type} (R : α → α' → Prop)
    (S : β → β' → Prop) : Expansion α β → Expansion α' β' → Prop where
  | goal {b b'} (h : S b b') : Related R S (.goal b) (.goal b')
  | next {as as'} (h : List.Forall₂ R as as') : Related R S (.next as) (.next as')

theorem Expansion.Related.imp {α' β' : Type} {R R' : α → α' → Prop} {S S' : β → β' → Prop}
    {e : Expansion α β} {e' : Expansion α' β'} (h : e.Related R S e')
    (hR : ∀ a a', R a a' → R' a a') (hS : ∀ b b', S b b' → S' b b') : e.Related R' S' e' := by
  cases h with
  | goal hb => exact .goal (hS _ _ hb)
  | next hnodes => exact .next (hnodes.imp hR)

theorem Expansion.Related.flip {α' β' : Type} {R : α → α' → Prop} {S : β → β' → Prop}
    {e : Expansion α β} {e' : Expansion α' β'} (h : e.Related R S e') :
    e'.Related (fun a' a => R a a') (fun b' b => S b b') e := by
  cases h with
  | goal h => exact .goal h
  | next h => exact .next h.flip

theorem firstAt_related {α' β' : Type} {R : α → α' → Prop} {S : β → β' → Prop}
    {expand : α → Expansion α β} {expand' : α' → Expansion α' β'}
    (hexpand : ∀ a a', R a a' → (expand a).Related R S (expand' a'))
    (n : Nat) {a : α} {a' : α'} (h : R a a') :
    Option.Rel S (firstAt expand n a) (firstAt expand' n a') := by
  induction n generalizing a a' with
  | zero =>
      have hrelated := hexpand a a' h
      simp only [firstAt]
      generalize expand a = e, expand' a' = e' at hrelated
      cases hrelated with
      | goal hb => exact .some hb
      | next _ => exact .none
  | succ n ih =>
      have hrelated := hexpand a a' h
      simp only [firstAt]
      generalize expand a = e, expand' a' = e' at hrelated
      cases hrelated with
      | goal hb => exact .none
      | next hnodes =>
          simp only [Expansion.nodes]
          induction hnodes with
          | nil => exact .none
          | cons hhead _ htail =>
              have hfirst := ih hhead
              simp only [List.findSome?_cons]
              generalize firstAt expand n _ = o, firstAt expand' n _ = o' at hfirst
              cases hfirst with
              | some hb => exact .some hb
              | none => exact htail

theorem nearest_related {α' β' : Type} {R : α → α' → Prop} {S : β → β' → Prop}
    {expand : α → Expansion α β} {expand' : α' → Expansion α' β'}
    (hexpand : ∀ a a', R a a' → (expand a).Related R S (expand' a'))
    {a : α} {a' : α'} (h : R a a') {b : β} (hb : Nearest expand a b) :
    ∃ b', Nearest expand' a' b' ∧ S b b' := by
  obtain ⟨n, hn, hfree⟩ := hb
  have hlevel := firstAt_related hexpand n h
  rw [hn] at hlevel
  generalize hfirst : firstAt expand' n a' = o at hlevel
  cases hlevel with
  | @some _ b' hs =>
      refine ⟨b', ⟨n, hfirst, ?_⟩, hs⟩
      intro m hm
      have hbelow := firstAt_related hexpand m h
      rw [hfree m hm] at hbelow
      generalize firstAt expand' m a' = o at hbelow
      cases hbelow
      rfl

/-! ## The queue -/

section Queue

variable [BEq α] {expand : α → Expansion α β}

/-- The search with its queue as one list. -/
def searchList (expand : α → Expansion α β) :
    Nat → List α → List α → Outcome β
  | 0, queue, _ => if queue.isEmpty then .missing else .outOfSteps
  | _ + 1, [], _ => .missing
  | steps + 1, a :: rest, seen =>
    if seen.contains a then searchList expand steps rest seen
    else
      match expand a with
      | .goal b => .found b
      | .next more => searchList expand steps (rest ++ more) (a :: seen)

theorem searchFrom_eq_searchList (steps : Nat) (queue : Queue α) (seen : List α) :
    searchFrom expand steps queue seen =
      searchList expand steps queue.toList seen := by
  induction steps generalizing queue seen with
  | zero => rfl
  | succ steps ih =>
      cases hpop : queue.pop? with
      | none =>
          rw [Queue.pop?_eq_none.mp hpop]
          simp [searchFrom, searchList, hpop]
      | some entry =>
          obtain ⟨a, rest⟩ := entry
          rw [Queue.toList_of_pop? hpop]
          simp only [searchFrom, searchList, hpop]
          split
          · exact ih rest seen
          · cases expand a with
            | goal b => rfl
            | next more =>
                simpa using ih (rest.pushAll more) (a :: seen)

theorem search_eq_searchList (steps : Nat) (a : α) :
    search expand steps a = searchList expand steps [a] [] := by
  rw [search, searchFrom_eq_searchList, Queue.toList_ofList]

theorem contains_related {R : α → α → Prop}
    (hbeq : ∀ a a' x x', R a a' → R x x' → (a == x) = (a' == x')) {seen seen' : List α}
    (hseen : List.Forall₂ R seen seen') {a a' : α} (ha : R a a') :
    seen.contains a = seen'.contains a' := by
  induction hseen with
  | nil => rfl
  | cons hx _ ih => rw [List.contains_cons, List.contains_cons, hbeq _ _ _ _ ha hx, ih]

/-- Searches from related nodes take the same steps, when related nodes are
equal to one another alike. -/
theorem searchList_related {R : α → α → Prop} {S : β → β → Prop}
    (hexpand : ∀ a a', R a a' → (expand a).Related R S (expand a'))
    (hbeq : ∀ a a' x x', R a a' → R x x' → (a == x) = (a' == x')) (steps : Nat)
    {queue queue' seen seen' : List α} (hqueue : List.Forall₂ R queue queue')
    (hseen : List.Forall₂ R seen seen') {b : β}
    (h : searchList expand steps queue seen = .found b) :
    ∃ b', searchList expand steps queue' seen' = .found b' ∧ S b b' := by
  induction steps generalizing queue queue' seen seen' with
  | zero =>
      simp only [searchList] at h
      split at h <;> cases h
  | succ steps ih =>
      cases hqueue with
      | nil => cases h
      | @cons a a' rest rest' ha hrest =>
          simp only [searchList, contains_related hbeq hseen ha] at h ⊢
          split at h
          · rename_i hknown
            rw [if_pos hknown]
            exact ih hrest hseen h
          · rename_i hnew
            rw [if_neg hnew]
            have hrelated := hexpand a a' ha
            generalize expand a = e, expand a' = e' at hrelated h
            cases hrelated with
            | goal hb =>
                cases h
                exact ⟨_, rfl, hb⟩
            | next hmore => exact ih (List.rel_append hrest hmore) (.cons ha hseen) h

theorem search_related {R : α → α → Prop} {S : β → β → Prop}
    (hexpand : ∀ a a', R a a' → (expand a).Related R S (expand a'))
    (hbeq : ∀ a a' x x', R a a' → R x x' → (a == x) = (a' == x')) {steps : Nat} {a a' : α}
    (ha : R a a') {b : β} (h : search expand steps a = .found b) :
    ∃ b', search expand steps a' = .found b' ∧ S b b' := by
  rw [search_eq_searchList] at h ⊢
  exact searchList_related hexpand hbeq steps (.cons ha .nil) .nil h

/-- The queue of a search under way. The goal that the search by levels finds
is `r` edges below the leader; what stands before the leader has no goal up to
that distance, what stands behind it has none nearer, and what was seen has no
goal up to that distance either. -/
structure Led (expand : α → Expansion α β) (P : α → Prop) (b : β) (r : Nat)
    (before : List α) (leader : α) (behind seen : List α) : Prop where
  first : firstAt expand r leader = some b
  free : FreeTo expand r leader
  before_free : ∀ a ∈ before, FreeTo expand (r + 1) a
  behind_free : ∀ a ∈ behind, FreeTo expand r a
  seen_free : ∀ a ∈ seen, FreeTo expand (r + 1) a
  before_in : ∀ a ∈ before, P a
  leader_in : P leader
  behind_in : ∀ a ∈ behind, P a
  seen_in : ∀ a ∈ seen, P a

variable {P : α → Prop} {b : β}

/-- A node in front of the leader is looked at and adds nothing but nodes
behind it. -/
theorem Led.pass (hfaithful : Faithful expand P) {r : Nat} {a leader : α}
    {before behind seen more : List α}
    (h : Led expand P b r (a :: before) leader behind seen)
    (hmore : expand a = .next more) :
    Led expand P b r before leader (behind ++ more) (a :: seen) where
  first := h.first
  free := h.free
  before_free := fun x hx => h.before_free x (List.mem_cons_of_mem a hx)
  behind_free := by
    intro x hx
    rcases List.mem_append.mp hx with hold | hnew
    · exact h.behind_free x hold
    · apply nodes_free (h.before_free a List.mem_cons_self)
      simpa [hmore, Expansion.nodes] using hnew
  seen_free := by
    intro x hx
    rcases List.mem_cons.mp hx with rfl | hold
    · exact h.before_free x List.mem_cons_self
    · exact h.seen_free x hold
  before_in := fun x hx => h.before_in x (List.mem_cons_of_mem a hx)
  leader_in := h.leader_in
  behind_in := by
    intro x hx
    rcases List.mem_append.mp hx with hold | hnew
    · exact h.behind_in x hold
    · apply hfaithful.nodes (h.before_in a List.mem_cons_self)
      simpa [hmore, Expansion.nodes] using hnew
  seen_in := by
    intro x hx
    rcases List.mem_cons.mp hx with rfl | hold
    · exact h.before_in x List.mem_cons_self
    · exact h.seen_in x hold

/-- When the leader itself is looked at and is no goal, the first of its nodes
that is near enough leads. -/
theorem Led.advance (hfaithful : Faithful expand P) {r : Nat} {leader : α}
    {behind seen more : List α}
    (h : Led expand P b (r + 1) [] leader behind seen)
    (hmore : expand leader = .next more) :
    ∃ before leader' behind', behind ++ more = before ++ leader' :: behind' ∧
      Led expand P b r before leader' behind' (leader :: seen) := by
  have hfirst : more.findSome? (firstAt expand r) = some b := by
    simpa [firstAt, hmore, Expansion.nodes] using h.first
  obtain ⟨skipped, leader', behind', rfl, hlead, hskipped⟩ :=
    List.findSome?_eq_some_iff.mp hfirst
  have hfree : ∀ a ∈ skipped ++ leader' :: behind', FreeTo expand r a := by
    intro a ha
    apply nodes_free h.free
    simpa [hmore, Expansion.nodes] using ha
  have hin : ∀ a ∈ skipped ++ leader' :: behind', P a := by
    intro a ha
    apply hfaithful.nodes h.leader_in
    simpa [hmore, Expansion.nodes] using ha
  refine ⟨behind ++ skipped, leader', behind', by simp, ?_⟩
  refine
    { first := hlead
      free := hfree leader' (by simp)
      before_free := ?_
      behind_free := fun a ha => hfree a (by simp [ha])
      seen_free := ?_
      before_in := ?_
      leader_in := hin leader' (by simp)
      behind_in := fun a ha => hin a (by simp [ha])
      seen_in := ?_ }
  · intro a ha
    rcases List.mem_append.mp ha with hold | hnew
    · exact h.behind_free a hold
    · exact (hfree a (by simp [hnew])).succ (hskipped a hnew)
  · intro a ha
    rcases List.mem_cons.mp ha with rfl | hold
    · exact h.free
    · exact (h.seen_free a hold).mono (Nat.le_succ _)
  · intro a ha
    rcases List.mem_append.mp ha with hold | hnew
    · exact h.behind_in a hold
    · exact hin a (by simp [hnew])
  · intro a ha
    rcases List.mem_cons.mp ha with rfl | hold
    · exact h.leader_in
    · exact h.seen_in a hold

/-- The leader equals no seen node, since seen nodes are farther from a goal. -/
theorem Led.leader_unseen (hfaithful : Faithful expand P) {r : Nat}
    {before behind seen : List α} {leader : α}
    (h : Led expand P b r before leader behind seen) :
    seen.contains leader = false := by
  by_contra hseen
  rw [Bool.not_eq_false, List.contains_iff_exists_mem_beq] at hseen
  obtain ⟨s, hs, heq⟩ := hseen
  have hnone := hfaithful.equal h.leader_in (h.seen_in s hs) heq r
    (h.seen_free s hs r (Nat.lt_succ_self r))
  rw [h.first] at hnone
  cases hnone

theorem searchList_of_led (hfaithful : Faithful expand P) (steps : Nat)
    {r : Nat} {before behind seen : List α} {leader : α}
    (h : Led expand P b r before leader behind seen) :
    searchList expand steps (before ++ leader :: behind) seen = .found b ∨
      searchList expand steps (before ++ leader :: behind) seen = .outOfSteps := by
  induction steps generalizing r before leader behind seen with
  | zero => exact Or.inr (by simp [searchList])
  | succ steps ih =>
      cases before with
      | nil =>
          simp only [List.nil_append, searchList, h.leader_unseen hfaithful,
            Bool.false_eq_true, if_false]
          cases r with
          | zero =>
              have hgoal : (expand leader).goal? = some b := h.first
              cases hexpand : expand leader with
              | goal b' =>
                  left
                  simpa [hexpand, Expansion.goal?] using hgoal
              | next more => simp [hexpand, Expansion.goal?] at hgoal
          | succ r =>
              have hgoal := goal?_of_free h.free
              cases hexpand : expand leader with
              | goal b' => simp [hexpand, Expansion.goal?] at hgoal
              | next more =>
                  obtain ⟨before, leader', behind', hqueue, hled⟩ :=
                    h.advance hfaithful hexpand
                  simp only [hqueue]
                  exact ih hled
      | cons a before =>
          simp only [List.cons_append, searchList]
          split
          · exact ih
              { h with
                before_free := fun x hx =>
                  h.before_free x (List.mem_cons_of_mem a hx)
                before_in := fun x hx =>
                  h.before_in x (List.mem_cons_of_mem a hx) }
          · have hgoal := goal?_of_free (h.before_free a List.mem_cons_self)
            cases hexpand : expand a with
            | goal b' => simp [hexpand, Expansion.goal?] at hgoal
            | next more =>
                simpa using ih (h.pass hfaithful hexpand)

/-- Without a goal at any distance nothing is found. -/
theorem searchList_ne_found (steps : Nat) {queue : List α} (seen : List α)
    (h : ∀ a ∈ queue, ∀ n, firstAt expand n a = none) (b : β) :
    searchList expand steps queue seen ≠ .found b := by
  induction steps generalizing queue seen with
  | zero => cases queue <;> simp [searchList]
  | succ steps ih =>
      cases queue with
      | nil => simp [searchList]
      | cons a rest =>
          have hrest : ∀ x ∈ rest, ∀ n, firstAt expand n x = none :=
            fun x hx => h x (List.mem_cons_of_mem a hx)
          have ha := h a List.mem_cons_self
          simp only [searchList]
          split
          · exact ih seen hrest
          · cases hexpand : expand a with
            | goal b' =>
                have hgoal : (expand a).goal? = none := ha 0
                simp [hexpand, Expansion.goal?] at hgoal
            | next more =>
                apply ih
                intro x hx
                rcases List.mem_append.mp hx with hold | hnew
                · exact hrest x hold
                · intro n
                  apply nodes_free (n := n + 1) (fun m _ => ha m) ?_ n
                    (Nat.lt_succ_self n)
                  simpa [hexpand, Expansion.nodes] using hnew

/-- What is found is the goal of some node, one of those that the search may meet. -/
theorem goal_of_searchList (hnodes : ∀ a, P a → ∀ a' ∈ (expand a).nodes, P a') {steps : Nat}
    {queue seen : List α} (hqueue : ∀ a ∈ queue, P a)
    (h : searchList expand steps queue seen = .found b) : ∃ a, P a ∧ expand a = .goal b := by
  induction steps generalizing queue seen with
  | zero =>
      simp only [searchList] at h
      split at h <;> cases h
  | succ steps ih =>
      cases queue with
      | nil => cases h
      | cons first rest =>
          have hfirst := hqueue first List.mem_cons_self
          have hrest : ∀ a ∈ rest, P a := fun a ha => hqueue a (List.mem_cons_of_mem first ha)
          simp only [searchList] at h
          split at h
          · exact ih hrest h
          · cases hexpand : expand first with
            | goal b' =>
                rw [hexpand] at h
                cases h
                exact ⟨first, hfirst, hexpand⟩
            | next more =>
                rw [hexpand] at h
                refine ih ?_ h
                intro a ha
                rcases List.mem_append.mp ha with hold | hnew
                · exact hrest a hold
                · apply hnodes first hfirst
                  rw [hexpand]
                  exact hnew

theorem goal_of_search (hnodes : ∀ a, P a → ∀ a' ∈ (expand a).nodes, P a') {steps : Nat} {a : α}
    (ha : P a) (h : search expand steps a = .found b) : ∃ a, P a ∧ expand a = .goal b := by
  rw [search_eq_searchList] at h
  exact goal_of_searchList hnodes (by simpa using ha) h

/-- A goal at the start is found in one step. -/
theorem search_of_goal (steps : Nat) {a : α} (h : expand a = .goal b) :
    search expand (steps + 1) a = .found b := by
  rw [search_eq_searchList]
  simp [searchList, h]

/-- The search finds the nearest goal, or nothing for want of steps. -/
theorem search_of_nearest (hfaithful : Faithful expand P) {a : α} (ha : P a)
    (h : Nearest expand a b) (steps : Nat) :
    search expand steps a = .found b ∨ search expand steps a = .outOfSteps := by
  obtain ⟨n, hfirst, hfree⟩ := h
  rw [search_eq_searchList]
  have hled : Led expand P b n [] a [] [] :=
    { first := hfirst
      free := hfree
      before_free := by simp
      behind_free := by simp
      seen_free := by simp
      before_in := by simp
      leader_in := ha
      behind_in := by simp
      seen_in := by simp }
  exact searchList_of_led hfaithful steps hled

/-- What the search finds is the nearest goal. -/
theorem nearest_of_search (hfaithful : Faithful expand P) {a : α} (ha : P a)
    {steps : Nat} (h : search expand steps a = .found b) : Nearest expand a b := by
  have hsome : ∃ n, firstAt expand n a ≠ none := by
    by_contra hnone
    push Not at hnone
    rw [search_eq_searchList] at h
    exact searchList_ne_found steps [] (by simpa using hnone) b h
  obtain ⟨n, hn⟩ := hsome
  obtain ⟨b₀, hb₀⟩ := Option.ne_none_iff_exists'.mp hn
  obtain ⟨b', hb'⟩ := exists_nearest hb₀
  rcases search_of_nearest hfaithful ha hb' steps with hfound | hout
  · rw [h] at hfound
    cases hfound
    exact hb'
  · rw [h] at hout
    cases hout

/-! ## Steps -/

/-- A search has steps enough when the edges of any nodes that differ from one
another number less than the steps. -/
theorem searchList_ne_outOfSteps (hnodes : ∀ {a}, P a → ∀ a' ∈ (expand a).nodes, P a')
    (bound : Nat)
    (hbound : ∀ seen : List α, (∀ a ∈ seen, P a) →
      seen.Pairwise (fun a s => ¬(a == s) = true) →
        (seen.map fun a => (expand a).nodes.length).sum ≤ bound)
    (steps : Nat) {queue seen : List α} (hqueue : ∀ a ∈ queue, P a)
    (hseen : ∀ a ∈ seen, P a)
    (hdistinct : seen.Pairwise (fun a s => ¬(a == s) = true))
    (hsteps : queue.length + bound ≤
      steps + (seen.map fun a => (expand a).nodes.length).sum) :
    searchList expand steps queue seen ≠ .outOfSteps := by
  induction steps generalizing queue seen with
  | zero =>
      have hused := hbound seen hseen hdistinct
      have hempty : queue = [] := List.length_eq_zero_iff.mp (by omega)
      simp [searchList, hempty]
  | succ steps ih =>
      cases queue with
      | nil => simp [searchList]
      | cons a rest =>
          have hrest : ∀ x ∈ rest, P x :=
            fun x hx => hqueue x (List.mem_cons_of_mem a hx)
          simp only [List.length_cons] at hsteps
          simp only [searchList]
          split
          · exact ih hrest hseen hdistinct (by omega)
          · rename_i hnew
            cases hexpand : expand a with
            | goal b' => simp
            | next more =>
                have ha := hqueue a List.mem_cons_self
                have hmore : ∀ x ∈ more, P x := by
                  intro x hx
                  apply hnodes ha
                  simpa [hexpand, Expansion.nodes] using hx
                apply ih
                · intro x hx
                  rcases List.mem_append.mp hx with hold | hadded
                  · exact hrest x hold
                  · exact hmore x hadded
                · intro x hx
                  rcases List.mem_cons.mp hx with rfl | hold
                  · exact ha
                  · exact hseen x hold
                · refine List.pairwise_cons.mpr ⟨?_, hdistinct⟩
                  intro s hs heq
                  exact hnew (List.contains_iff_exists_mem_beq.mpr ⟨s, hs, heq⟩)
                · have hpushed : (expand a).nodes.length = more.length := by
                    rw [hexpand]
                    rfl
                  simp only [List.length_append, List.map_cons, List.sum_cons,
                    hpushed]
                  omega

theorem search_ne_outOfSteps (hnodes : ∀ {a}, P a → ∀ a' ∈ (expand a).nodes, P a')
    {steps : Nat}
    (hbound : ∀ seen : List α, (∀ a ∈ seen, P a) →
      seen.Pairwise (fun a s => ¬(a == s) = true) →
        (seen.map fun a => (expand a).nodes.length).sum < steps)
    {a : α} (ha : P a) : search expand steps a ≠ .outOfSteps := by
  have hpos : 0 < steps := by simpa using hbound [] (by simp) .nil
  rw [search_eq_searchList]
  apply searchList_ne_outOfSteps hnodes (steps - 1)
  · intro seen hseen hdistinct
    exact Nat.le_sub_one_of_lt (hbound seen hseen hdistinct)
  · simpa using ha
  · simp
  · exact .nil
  · simp
    omega

/-! ## Other searches that answer alike -/

/-- Searches that expand the nodes they reach alike are alike. -/
theorem searchList_congr {expand' : α → Expansion α β}
    (hnodes : ∀ a, P a → ∀ a' ∈ (expand a).nodes, P a')
    (hexpand : ∀ a, P a → expand' a = expand a) (steps : Nat) {queue : List α}
    (hqueue : ∀ a ∈ queue, P a) (seen : List α) :
    searchList expand' steps queue seen = searchList expand steps queue seen := by
  induction steps generalizing queue seen with
  | zero => rfl
  | succ steps ih =>
      cases queue with
      | nil => rfl
      | cons a rest =>
          obtain ⟨ha, hrest⟩ := List.forall_mem_cons.mp hqueue
          simp only [searchList, hexpand a ha]
          split
          · exact ih hrest seen
          · cases hmore : expand a with
            | goal _ => rfl
            | next more =>
                have hnext : ∀ a' ∈ more, P a' := by
                  intro a' ha'
                  apply hnodes a ha
                  rw [hmore]
                  exact ha'
                exact ih (List.forall_mem_append.mpr ⟨hrest, hnext⟩) (a :: seen)

theorem search_congr {expand' : α → Expansion α β}
    (hnodes : ∀ a, P a → ∀ a' ∈ (expand a).nodes, P a')
    (hexpand : ∀ a, P a → expand' a = expand a) (steps : Nat) {a : α} (ha : P a) :
    search expand' steps a = search expand steps a := by
  rw [search_eq_searchList, search_eq_searchList]
  exact searchList_congr hnodes hexpand steps (List.forall_mem_singleton.mpr ha) []

/-- A search that ends does not use further steps. -/
theorem searchList_of_le {m n : Nat} (hle : m ≤ n) {queue seen : List α}
    (h : searchList expand m queue seen ≠ .outOfSteps) :
    searchList expand n queue seen = searchList expand m queue seen := by
  induction m generalizing n queue seen with
  | zero =>
      cases queue with
      | nil => cases n <;> rfl
      | cons _ _ => exact absurd rfl h
  | succ m ih =>
      obtain ⟨n, rfl⟩ := Nat.exists_eq_add_of_le' (Nat.le_trans (Nat.succ_pos m) hle)
      have hle' : m ≤ n := Nat.le_of_succ_le_succ hle
      cases queue with
      | nil => rfl
      | cons a rest =>
          simp only [searchList] at h ⊢
          split
          · rename_i hseen
            rw [if_pos hseen] at h
            exact ih hle' h
          · rename_i hseen
            rw [if_neg hseen] at h
            cases hmore : expand a with
            | goal _ => rfl
            | next more =>
                rw [hmore] at h
                exact ih hle' h

theorem search_of_le {m n : Nat} (hle : m ≤ n) {a : α}
    (h : search expand m a ≠ .outOfSteps) : search expand n a = search expand m a := by
  rw [search_eq_searchList] at h ⊢
  rw [search_eq_searchList]
  exact searchList_of_le hle h

end Queue

end Generics
