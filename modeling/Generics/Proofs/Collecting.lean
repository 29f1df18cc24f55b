import Generics.Proofs.Equality
import Generics.Proofs.Guard
import Generics.Token.Closure

/-!
Laws of collecting. Whatever is collected, a computation gives back the types
that were held when it began and adds members behind those there; no two
members have equal types, no member is of a type that is held, and the level
that a computation gives is at least that of each member that it added.
-/

namespace Generics

namespace Collection

/-- From one state of a collection to a later one at the same depth. -/
structure Later (s s' : Collection) : Prop where
  held_eq : s'.guard.held = s.guard.held
  maxDepth_eq : s'.guard.maxDepth = s.guard.maxDepth
  maxIterations_eq : s'.guard.maxIterations = s.guard.maxIterations
  /-- Attempts are never taken back, as long as they are counted. -/
  attempts_le : ∀ n < Limits.countedAttempts, s'.guard.attempts ≤ n → s.guard.attempts ≤ n
  members : s.members <+: s'.members

variable {s s' s'' : Collection} {token : Token}

theorem Later.refl (s : Collection) : Later s s :=
  ⟨rfl, rfl, rfl, fun _ _ => id, List.prefix_refl _⟩

theorem Later.trans (h : Later s s') (h' : Later s' s'') : Later s s'' :=
  ⟨h'.held_eq.trans h.held_eq, h'.maxDepth_eq.trans h.maxDepth_eq,
    h'.maxIterations_eq.trans h.maxIterations_eq,
    fun n hn hle => h.attempts_le n hn (h'.attempts_le n hn hle),
    h.members.trans h'.members⟩

/-- Members of different types, none of a type that is being collected. -/
structure Tidy (s : Collection) : Prop where
  distinct : s.members.Pairwise fun a b => (a.1.type == b.1.type) = false
  apart : ∀ m ∈ s.members, s.guard.held.contains m.1.type = false

/-- The state in which the supertypes of a type are collected. -/
def opened (s : Collection) (t : Ty) : Collection :=
  { s with guard := s.guard.record t .entered }

/-- The state after the supertypes of a token, with the token a member. -/
def completed (s : Collection) (token : Token) (level : Nat) : Collection :=
  ⟨s.guard.leave token.type, s.members ++ [(token, level)]⟩

/-- The state after an attempt that was turned down. -/
def denied (s : Collection) (t : Ty) (entry : Entry) : Collection :=
  { s with guard := s.guard.record t entry }

/-- Collecting the supertypes of a token and making it a member. -/
theorem later_completed (h : Later (s.opened token.type) s') (level : Nat) :
    Later s (s'.completed token level) where
  held_eq := Guard.held_leave h.held_eq
  maxDepth_eq := (Guard.maxDepth_leave _ _).trans h.maxDepth_eq
  maxIterations_eq := (Guard.maxIterations_leave _ _).trans h.maxIterations_eq
  attempts_le := by
    intro n hn hle
    change (s'.guard.leave token.type).attempts ≤ n at hle
    rw [Guard.attempts_leave] at hle
    exact Guard.attempts_le_of_next hn (h.attempts_le n hn hle)
  members := h.members.trans (List.prefix_append _ _)

theorem later_denied (t : Ty) {entry : Entry} (hentry : entry ≠ .entered) :
    Later s (s.denied t entry) := by
  cases entry with
  | entered => exact absurd rfl hentry
  | _ =>
      exact ⟨rfl, rfl, rfl, fun n hn => Guard.attempts_le_of_next hn, List.prefix_refl _⟩

theorem level?_eq_none {t : Ty} :
    s.level? t = none ↔ ∀ m ∈ s.members, (m.1.type == t) = false := by
  simp [level?, List.find?_eq_none]

theorem exists_of_level? {t : Ty} {level : Nat} (h : s.level? t = some level) :
    ∃ m ∈ s.members, (m.1.type == t) = true ∧ m.2 = level := by
  obtain ⟨m, hfind, rfl⟩ := Option.map_eq_some_iff.mp h
  exact ⟨m, List.mem_of_find?_eq_some hfind, by simpa using List.find?_some hfind, rfl⟩

end Collection

namespace CollectM

open Collection

variable {α : Type} {s : Collection} {token : Token} {m : CollectM Nat}

/-- Making a token a member, by its level so far and by what the guard says to it. -/
theorem run_record (token : Token) (m : CollectM Nat) (s : Collection) :
    (record token m).run s =
      match s.level? token.type with
      | some level => (level, s)
      | none =>
        match s.guard.judge token.type with
        | .entered =>
          let above := m.run (s.opened token.type)
          (above.1 + 1, above.2.completed token (above.1 + 1))
        | entry => (0, s.denied token.type entry) := by
  have henter : s.guard.enter token.type =
      (s.guard.judge token.type, s.guard.record token.type (s.guard.judge token.type)) := rfl
  simp only [record, StateT.run_bind]
  change StateT.run (match s.level? token.type with
    | some level => pure level
    | none => _) s = _
  cases s.level? token.type with
  | some level => rfl
  | none =>
      simp only [StateT.run_bind]
      change StateT.run (match (s.guard.enter token.type).1 with
        | .entered => _
        | _ => _) { s with guard := (s.guard.enter token.type).2 } = _
      rw [henter]
      cases s.guard.judge token.type <;> rfl

theorem run_highest_cons (collect : α → CollectM Nat) (base : Nat) (item : α) (items : List α)
    (s : Collection) : (highest collect base (item :: items)).run s =
      (highest collect (max base ((collect item).run s).1) items).run ((collect item).run s).2 :=
  rfl

/-- What every computation respects that is built from making members and from
collecting several items. -/
structure Respects (m : CollectM Nat) : Prop where
  later : ∀ s, Later s (m.run s).2
  tidy : ∀ s, s.Tidy → (m.run s).2.Tidy
  level_le : ∀ s, ∀ member ∈ (m.run s).2.members, member ∈ s.members ∨ member.2 ≤ (m.run s).1

theorem respects_pure (level : Nat) : Respects (pure level) where
  later := Later.refl
  tidy := fun _ hs => hs
  level_le := fun _ _ hmember => Or.inl hmember

theorem respects_record (hm : Respects m) (token : Token) : Respects (record token m) where
  later := by
    intro s
    rw [run_record]
    cases s.level? token.type with
    | some level => exact .refl s
    | none =>
        cases s.guard.judge token.type with
        | entered => exact later_completed (hm.later _) _
        | _ => exact later_denied _ (by simp)
  tidy := by
    intro s hs
    rw [run_record]
    cases hlevel : s.level? token.type with
    | some level => exact hs
    | none =>
        cases hjudge : s.guard.judge token.type with
        | entered =>
            have hnew := level?_eq_none.mp hlevel
            have hopened : (s.opened token.type).Tidy := by
              refine ⟨hs.distinct, fun member hmember => ?_⟩
              change (token.type :: s.guard.held).contains member.1.type = false
              rw [List.contains_cons, hnew member hmember, hs.apart member hmember]
              rfl
            have hafter := hm.tidy _ hopened
            have hlater := hm.later (s.opened token.type)
            refine ⟨List.pairwise_append.mpr ⟨hafter.distinct, List.pairwise_singleton _ _, ?_⟩, ?_⟩
            · intro member hmember last hlast
              have hapart := hafter.apart member hmember
              rw [hlater.held_eq] at hapart
              rw [List.mem_singleton.mp hlast]
              exact (Bool.or_eq_false_iff.mp (List.contains_cons.symm.trans hapart)).1
            · intro member hmember
              change (Guard.leave _ token.type).held.contains member.1.type = false
              rw [Guard.held_leave hlater.held_eq]
              rcases List.mem_append.mp hmember with hold | hlast
              · have hapart := hafter.apart member hold
                rw [hlater.held_eq] at hapart
                exact (Bool.or_eq_false_iff.mp (List.contains_cons.symm.trans hapart)).2
              · rw [List.mem_singleton.mp hlast]
                exact Guard.contains_of_entered hjudge
        | _ => exact ⟨hs.distinct, hs.apart⟩
  level_le := by
    intro s
    rw [run_record]
    cases s.level? token.type with
    | some level => exact fun member hmember => Or.inl hmember
    | none =>
        cases s.guard.judge token.type with
        | entered =>
            intro member hmember
            rcases List.mem_append.mp hmember with hold | hlast
            · exact (hm.level_le _ member hold).imp id fun hle => hle.trans (Nat.le_succ _)
            · rw [List.mem_singleton.mp hlast]
              exact Or.inr (le_refl _)
        | _ => exact fun member hmember => Or.inl hmember

theorem base_le_highest (collect : α → CollectM Nat) (base : Nat) (items : List α)
    (s : Collection) : base ≤ ((highest collect base items).run s).1 := by
  induction items generalizing base s with
  | nil => exact le_refl base
  | cons item items ih => exact (le_max_left _ _).trans (ih _ _)

theorem respects_highest {collect : α → CollectM Nat} {items : List α}
    (h : ∀ item ∈ items, Respects (collect item)) (base : Nat) :
    Respects (highest collect base items) := by
  induction items generalizing base with
  | nil => exact respects_pure base
  | cons item items ih =>
      have hitem := h item List.mem_cons_self
      have hitems := ih fun other hother => h other (List.mem_cons_of_mem item hother)
      refine ⟨?_, ?_, ?_⟩
      · intro s
        exact (hitem.later s).trans ((hitems _).later _)
      · intro s hs
        exact (hitems _).tidy _ (hitem.tidy s hs)
      · intro s member hmember
        rcases (hitems _).level_le _ member hmember with hfirst | hle
        · rcases hitem.level_le s member hfirst with hold | hle
          · exact Or.inl hold
          · exact Or.inr ((hle.trans (le_max_right base _)).trans (base_le_highest _ _ _ _))
        · exact Or.inr hle

/-! ## Computations within the limits -/

/-- Where no limit turns the token down, it is a member already, or its
supertypes are collected. -/
theorem record_cases (hfree : s.guard.held.contains token.type = false)
    (hdepth : s.guard.held.length < s.guard.maxDepth) (hm : Respects m)
    (hattempts : ((record token m).run s).2.guard.attempts ≤ s.guard.maxIterations) :
    (∃ level, s.level? token.type = some level ∧ (record token m).run s = (level, s)) ∨
      ∃ level s', m.run (s.opened token.type) = (level, s') ∧ Later (s.opened token.type) s' ∧
        s'.guard.attempts ≤ s.guard.maxIterations ∧
        (record token m).run s = (level + 1, s'.completed token (level + 1)) := by
  rw [run_record] at hattempts ⊢
  cases hlevel : s.level? token.type with
  | some level => exact Or.inl ⟨level, rfl, rfl⟩
  | none =>
      right
      rw [hlevel] at hattempts
      cases hjudge : s.guard.judge token.type with
      | entered =>
          rw [hjudge] at hattempts
          refine ⟨_, _, rfl, hm.later _, ?_, rfl⟩
          exact (Guard.attempts_leave _ token.type).ge.trans hattempts
      | _ =>
          rw [hjudge] at hattempts
          have hnext := (Guard.attempts_record s.guard token.type _).ge.trans hattempts
          rw [Guard.judge_of_free hnext hfree hdepth] at hjudge
          cases hjudge

/-- What each of several items preserves and brings about, all of them do. -/
theorem highest_collects {P : Collection → Prop} {Q : α → Nat → Collection → Prop} {n : Nat}
    (hn : n < Limits.countedAttempts) {collect : α → CollectM Nat} {items : List α}
    (h : ∀ item ∈ items, Respects (collect item))
    (hkeep : ∀ item level s s', Q item level s → Later s s' → Q item level s')
    (hstep : ∀ item ∈ items, ∀ s, P s → ((collect item).run s).2.guard.attempts ≤ n →
      P ((collect item).run s).2 ∧ Q item ((collect item).run s).1 ((collect item).run s).2)
    (base : Nat) {s : Collection} (hs : P s)
    (hattempts : ((highest collect base items).run s).2.guard.attempts ≤ n) :
    P ((highest collect base items).run s).2 ∧
      ∃ levels, List.Forall₂ (fun item level =>
        Q item level ((highest collect base items).run s).2) items levels ∧
        ((highest collect base items).run s).1 = levels.foldl max base := by
  induction items generalizing base s with
  | nil => exact ⟨hs, [], .nil, rfl⟩
  | cons item items ih =>
      have hrest : ∀ other ∈ items, Respects (collect other) :=
        fun other hother => h other (List.mem_cons_of_mem item hother)
      have hlater := (respects_highest hrest (max base ((collect item).run s).1)).later
        ((collect item).run s).2
      rw [run_highest_cons] at hattempts ⊢
      obtain ⟨hP, hQ⟩ := hstep item List.mem_cons_self s hs (hlater.attempts_le n hn hattempts)
      obtain ⟨hP', levels, hlevels, hresult⟩ := ih hrest
        (fun other hother => hstep other (List.mem_cons_of_mem item hother)) _ hP hattempts
      exact ⟨hP', _ :: levels, .cons (hkeep _ _ _ _ hQ hlater) hlevels, hresult⟩

end CollectM

/-! ## Members by level -/

namespace Closure

/-- The members of given levels, in the order of the levels. -/
def atLevels (levels : List Nat) (members : List (Token × Nat)) : List Token :=
  levels.flatMap fun level => (members.filter fun member => member.2 == level).map Prod.fst

theorem byLevel_eq (members : List (Token × Nat)) : byLevel members =
    atLevels (List.range ((members.map Prod.snd).foldl max 0 + 1)).reverse members := rfl

theorem le_foldl_max (levels : List Nat) (base : Nat) :
    base ≤ levels.foldl max base ∧ ∀ level ∈ levels, level ≤ levels.foldl max base := by
  induction levels generalizing base with
  | nil => exact ⟨le_refl base, fun _ h => absurd h List.not_mem_nil⟩
  | cons first levels ih =>
      obtain ⟨hbase, hlevels⟩ := ih (max base first)
      refine ⟨(le_max_left base first).trans hbase, fun level hlevel => ?_⟩
      rcases List.mem_cons.mp hlevel with rfl | hrest
      · exact (le_max_right base level).trans hbase
      · exact hlevels level hrest

/-- No member is lost, and none comes twice. -/
theorem atLevels_perm {levels : List Nat} (hdistinct : levels.Nodup)
    {members : List (Token × Nat)} (h : ∀ member ∈ members, member.2 ∈ levels) :
    (atLevels levels members).Perm (members.map Prod.fst) := by
  induction levels generalizing members with
  | nil =>
      cases members with
      | nil => exact .refl _
      | cons member _ => exact absurd (h member List.mem_cons_self) List.not_mem_nil
  | cons level levels ih =>
      obtain ⟨hfresh, hrest⟩ := List.nodup_cons.mp hdistinct
      have hothers : atLevels levels members =
          atLevels levels (members.filter fun member => !(member.2 == level)) := by
        apply List.flatMap_congr
        intro other hother
        rw [List.filter_filter]
        congr 1
        apply List.filter_congr
        intro member _
        by_cases hmember : member.2 = other
        · have hne : other ≠ level := fun heq => hfresh (heq ▸ hother)
          simp [hmember, hne]
        · simp [hmember]
      have hlower : ∀ member ∈ members.filter fun member => !(member.2 == level),
          member.2 ∈ levels := by
        intro member hmember
        obtain ⟨hmem, hne⟩ := List.mem_filter.mp hmember
        rcases List.mem_cons.mp (h member hmem) with heq | hlater
        · simp [heq] at hne
        · exact hlater
      have hperm := ih hrest hlower
      change (_ ++ atLevels levels members).Perm _
      rw [hothers]
      refine (hperm.append_left _).trans ?_
      rw [← List.map_append]
      exact (List.filter_append_perm _ members).map Prod.fst

theorem byLevel_perm (members : List (Token × Nat)) :
    (byLevel members).Perm (members.map Prod.fst) := by
  rw [byLevel_eq]
  apply atLevels_perm (List.nodup_reverse.mpr List.nodup_range)
  intro member hmember
  rw [List.mem_reverse, List.mem_range, Nat.lt_succ_iff]
  exact (le_foldl_max _ 0).2 _ (List.mem_map.mpr ⟨member, hmember, rfl⟩)

/-- Members of levels in descending order are in descending order. -/
theorem atLevels_pairwise {R : Token → Token → Prop} {levels : List Nat}
    (hlevels : levels.Pairwise (· > ·)) {members : List (Token × Nat)}
    (h : ∀ a ∈ members, ∀ b ∈ members, b.2 ≤ a.2 → R a.1 b.1) :
    (atLevels levels members).Pairwise R := by
  have hpair : ∀ first second, second ≤ first →
      ∀ x ∈ (members.filter fun member => member.2 == first).map Prod.fst,
        ∀ y ∈ (members.filter fun member => member.2 == second).map Prod.fst, R x y := by
    intro first second hle x hx y hy
    obtain ⟨a, ha, rfl⟩ := List.mem_map.mp hx
    obtain ⟨b, hb, rfl⟩ := List.mem_map.mp hy
    obtain ⟨hamem, hafirst⟩ := List.mem_filter.mp ha
    obtain ⟨hbmem, hbsecond⟩ := List.mem_filter.mp hb
    rw [beq_iff_eq] at hafirst hbsecond
    exact h a hamem b hbmem (by omega)
  refine List.pairwise_flatMap.mpr ⟨fun level _ => ?_, hlevels.imp fun hgt => ?_⟩
  · exact List.pairwise_of_forall_mem_list (hpair level level (le_refl level))
  · exact hpair _ _ (le_of_lt hgt)

/-- A member above all others is the first one. -/
theorem byLevel_top {members : List (Token × Nat)} {level : Nat}
    (h : ∀ member ∈ members, member.2 ≤ level) (token : Token) :
    byLevel (members ++ [(token, level + 1)]) =
      token :: atLevels (List.range (level + 1)).reverse members := by
  have htop : ((members ++ [(token, level + 1)]).map Prod.snd).foldl max 0 = level + 1 := by
    rw [List.map_append, List.foldl_append]
    apply max_eq_right
    have hle : ∀ levels : List Nat, (∀ other ∈ levels, other ≤ level) → ∀ base ≤ level,
        levels.foldl max base ≤ level := by
      intro levels
      induction levels with
      | nil => exact fun _ _ hbase => hbase
      | cons first levels ih =>
          intro hlevels base hbase
          obtain ⟨hfirst, hrest⟩ := List.forall_mem_cons.mp hlevels
          exact ih hrest _ (max_le hbase hfirst)
    refine (hle _ ?_ 0 (Nat.zero_le _)).trans (Nat.le_succ level)
    intro other hother
    obtain ⟨member, hmember, rfl⟩ := List.mem_map.mp hother
    exact h member hmember
  have hnone : members.filter (fun member => member.2 == level + 1) = [] := by
    rw [List.filter_eq_nil_iff]
    intro member hmember heq
    rw [beq_iff_eq] at heq
    have hle := h member hmember
    omega
  rw [byLevel_eq, htop, List.range_succ, List.reverse_append]
  change ((members ++ [(token, level + 1)]).filter fun member => member.2 == level + 1).map
    Prod.fst ++ atLevels (List.range (level + 1)).reverse _ = _
  rw [List.filter_append, hnone]
  have hbelow : atLevels (List.range (level + 1)).reverse (members ++ [(token, level + 1)]) =
      atLevels (List.range (level + 1)).reverse members := by
    apply List.flatMap_congr
    intro other hother
    rw [List.mem_reverse, List.mem_range] at hother
    have hlast : (level + 1 == other) = false := by
      rw [beq_eq_false_iff_ne]
      omega
    rw [List.filter_append, List.filter_cons, hlast]
    simp
  rw [hbelow]
  simp

end Closure

namespace Token

open CollectM

variable {env : Env}

theorem respects_collectAncestor (fuel : Nat) (origin : Token) (raw : ClassRef) :
    Respects (collectAncestor env fuel origin raw) := by
  induction fuel generalizing raw with
  | zero => exact respects_pure 0
  | succ fuel ih =>
      rw [collectAncestor]
      cases origin.elementAt? env raw with
      | none => exact respects_pure 0
      | some element => exact respects_record (respects_highest (fun _ _ => ih _) _) element

theorem respects_collect (fuel : Nat) (token : Token) : Respects (collect env fuel token) := by
  induction fuel generalizing token with
  | zero => exact respects_pure 0
  | succ fuel ih =>
      rw [collect]
      cases env.upperBounds? token.type with
      | none => exact respects_collectAncestor _ _ _
      | some bounds => exact respects_record (respects_highest (fun _ _ => ih _) _) token

end Token

end Generics
