import Generics.Proofs.BoundSets
import Generics.Proofs.Replacing

/-!
The occurs check. A visit passes a type over when it equals one that is being visited, so it has
to be shown that no occurrence of the variable is lost in this way. Equal types have their
occurrences at the same depths. A type that is passed over therefore has no occurrence that is
nearer to the outermost type than all occurrences of the type around it that it equals, and the
nearest occurrence of all is never behind a type that is passed over.

In a type as it is kept no part equals a type around it at all: equal types have the same number
of levels.
-/

namespace Generics

namespace Ty

variable {s t u : Ty} {v : TyVar} {ts us : List Ty}

/-! ## Pieces -/

/-- The types that a type is put together from, in the order in which they are visited. The bounds
of a variable are not among them. -/
def pieces : Ty → List Ty
  | param owner _ args => owner.toList ++ args
  | array component => [component]
  | wild upper lower => upper ++ lower
  | cls _ | var _ => []

mutual

/-- The levels of nesting of a type. A class or a variable is one level. -/
def levels : Ty → Nat
  | cls _ => 1
  | param owner _ args => 1 + max (levelsOwner owner) (levelsList args)
  | array component => 1 + component.levels
  | wild upper lower => 1 + max (levelsList upper) (levelsList lower)
  | var _ => 1
termination_by structural t => t

def levelsOwner : Option Ty → Nat
  | none => 0
  | some owner => owner.levels
termination_by structural owner => owner

def levelsList : List Ty → Nat
  | [] => 0
  | t :: ts => max t.levels (levelsList ts)
termination_by structural ts => ts

end

theorem levelsList_le_iff {n : Nat} : levelsList ts ≤ n ↔ ∀ t ∈ ts, t.levels ≤ n := by
  induction ts with
  | nil => simp [levelsList]
  | cons t ts ih => simp [levelsList, ih]

theorem levelsList_append : levelsList (ts ++ us) = max (levelsList ts) (levelsList us) := by
  induction ts with
  | nil => simp [levelsList]
  | cons t ts ih => rw [List.cons_append, levelsList, levelsList, ih, max_assoc]

theorem sizeList_append : sizeList (ts ++ us) = sizeList ts + sizeList us := by
  induction ts with
  | nil => simp [sizeList]
  | cons t ts ih => rw [List.cons_append, sizeList, sizeList, ih, Nat.add_assoc]

/-- A type is one level above its pieces. -/
theorem levels_eq (t : Ty) : t.levels = 1 + levelsList t.pieces := by
  cases t with
  | param owner _ args => cases owner <;> simp [levels, levelsOwner, pieces, levelsList]
  | wild upper lower => rw [levels, pieces, levelsList_append]
  | _ => simp [levels, pieces, levelsList]

/-- A type is one node more than its pieces. -/
theorem size_eq (t : Ty) : t.size = 1 + sizeList t.pieces := by
  cases t with
  | param owner _ args =>
      cases owner <;> simp [size, sizeOwner, pieces, sizeList]
      omega
  | wild upper lower => rw [size, pieces, sizeList_append, Nat.add_assoc]
  | _ => simp [size, pieces, sizeList]

theorem levels_lt_of_piece (h : u ∈ t.pieces) : u.levels < t.levels := by
  have hle := levelsList_le_iff.mp (le_refl _) u h
  rw [levels_eq t]
  omega

/-- Induction over the pieces of a type. -/
@[elab_as_elim]
theorem pieces_induction {motive : Ty → Prop} (h : ∀ t, (∀ u ∈ t.pieces, motive u) → motive t)
    (t : Ty) : motive t := by
  induction t using parts with
  | cls c => exact h _ nofun
  | param owner raw args howner hargs =>
      refine h _ fun u hu => ?_
      rcases List.mem_append.mp hu with hu | hu
      · exact howner u (Option.mem_toList.mp hu)
      · exact hargs u hu
  | array component ih => exact h _ (List.forall_mem_singleton.mpr ih)
  | wild upper lower hupper hlower =>
      exact h _ fun u hu => (List.mem_append.mp hu).elim (hupper u) (hlower u)
  | var v => exact h _ nofun

/-- Each piece of a type equals one of an equal type. -/
theorem exists_piece_of_same (h : Same s t) (hu : u ∈ s.pieces) : ∃ u' ∈ t.pieces, Same u u' := by
  cases s with
  | cls _ => cases hu
  | param owner raw args =>
      obtain ⟨owner', _, args', rfl, -, howner, hargs⟩ := same_param.mp h
      rcases List.mem_append.mp hu with hu | hu
      · obtain rfl := Option.mem_toList.mp hu
        cases howner with
        | some hsame => exact ⟨_, List.mem_append_left _ List.mem_cons_self, hsame⟩
      · obtain ⟨a, ha, hsame⟩ := forall₂_mem_left hargs hu
        exact ⟨a, List.mem_append_right _ ha, hsame⟩
  | array component =>
      obtain ⟨component', rfl, hsame⟩ := same_array.mp h
      rw [List.mem_singleton.mp hu]
      exact ⟨component', List.mem_cons_self, hsame⟩
  | wild upper lower =>
      obtain ⟨upper', lower', rfl, ⟨-, hupper⟩, -, hlower⟩ := same_wild.mp h
      rcases List.mem_append.mp hu with hu | hu
      · obtain ⟨b, hb, hsame⟩ := hupper u hu
        exact ⟨b, List.mem_append_left _ hb, hsame⟩
      · obtain ⟨b, hb, hsame⟩ := hlower u hu
        exact ⟨b, List.mem_append_right _ hb, hsame⟩
  | var _ => cases hu

theorem levels_le_of_same (h : Same s t) : s.levels ≤ t.levels := by
  induction s using pieces_induction generalizing t with
  | h s ih =>
      rw [levels_eq s, levels_eq t, Nat.add_le_add_iff_left, levelsList_le_iff]
      intro u hu
      obtain ⟨u', hu', hsame⟩ := exists_piece_of_same h hu
      exact (ih u hu hsame).trans (levelsList_le_iff.mp (le_refl _) u' hu')

/-- A type inside another one, at any depth. -/
abbrev Inside : Ty → Ty → Prop := Relation.TransGen fun u t => u ∈ t.pieces

theorem levels_lt_of_inside (h : Inside u t) : u.levels < t.levels := by
  induction h with
  | single hu => exact levels_lt_of_piece hu
  | tail _ ht ih => exact ih.trans (levels_lt_of_piece ht)

theorem DistinctBounds.piece (h : t.DistinctBounds) (hu : u ∈ t.pieces) : u.DistinctBounds := by
  cases h with
  | cls _ => cases hu
  | param howner hargs =>
      rcases List.mem_append.mp hu with hu | hu
      · exact howner u (Option.mem_toList.mp hu)
      · exact hargs u hu
  | array h =>
      rw [List.mem_singleton.mp hu]
      exact h
  | wild hupper hlower _ _ => exact (List.mem_append.mp hu).elim (hupper u) (hlower u)
  | var _ => cases hu

theorem DistinctBounds.inside (h : t.DistinctBounds) (hu : Inside u t) : u.DistinctBounds := by
  induction hu using Relation.TransGen.head_induction_on with
  | single hu => exact h.piece hu
  | head hu _ ih => exact ih.piece hu

/-- In a type as it is kept nothing equals a type around it. -/
theorem DistinctBounds.not_same_of_inside (h : t.DistinctBounds) (hu : Inside u t) :
    ¬Same u t := by
  intro hsame
  have hback := levels_le_of_same ((h.inside hu).same_symm hsame)
  exact absurd (levels_lt_of_inside hu) (not_lt.mpr hback)

/-! ## Depths of occurrences -/

/-- What occurs in a type is the type itself or occurs in one of the pieces. -/
theorem occurs_iff_pieces :
    Occurs v t ↔ (∃ w, t = var w ∧ (w == v) = true) ∨ ∃ u ∈ t.pieces, Occurs v u := by
  constructor
  · intro h
    cases h with
    | owner h => exact Or.inr ⟨_, List.mem_append_left _ List.mem_cons_self, h⟩
    | arg hmem h => exact Or.inr ⟨_, List.mem_append_right _ hmem, h⟩
    | component h => exact Or.inr ⟨_, List.mem_cons_self, h⟩
    | upper hmem h => exact Or.inr ⟨_, List.mem_append_left _ hmem, h⟩
    | lower hmem h => exact Or.inr ⟨_, List.mem_append_right _ hmem, h⟩
    | var h => exact Or.inl ⟨_, rfl, h⟩
  · rintro (⟨w, rfl, h⟩ | ⟨u, hu, h⟩)
    · exact .var h
    · cases t with
      | param owner raw args =>
          rcases List.mem_append.mp hu with hu | hu
          · obtain rfl := Option.mem_toList.mp hu
            exact .owner h
          · exact .arg hu h
      | array component =>
          rw [List.mem_singleton.mp hu] at h
          exact .component h
      | wild upper lower =>
          rcases List.mem_append.mp hu with hu | hu
          · exact .upper hu h
          · exact .lower hu h
      | cls _ => cases hu
      | var _ => cases hu

/-- A variable occurs at a given depth: so many pieces are taken apart to get to it. -/
inductive OccursAt (v : TyVar) : Nat → Ty → Prop where
  | here {w} (h : (w == v) = true) : OccursAt v 0 (var w)
  | inside {n t u} (hu : u ∈ t.pieces) (h : OccursAt v n u) : OccursAt v (n + 1) t

theorem exists_occursAt (h : Occurs v t) : ∃ n, OccursAt v n t := by
  induction t using pieces_induction with
  | h t ih =>
      rcases occurs_iff_pieces.mp h with ⟨w, rfl, hw⟩ | ⟨u, hu, hoccurs⟩
      · exact ⟨0, .here hw⟩
      · obtain ⟨n, hn⟩ := ih u hu hoccurs
        exact ⟨n + 1, .inside hu hn⟩

/-- Equal types have their occurrences at the same depths. -/
theorem occursAt_of_same {n : Nat} (h : OccursAt v n s) (hsame : Same s t) : OccursAt v n t := by
  induction h generalizing t with
  | here hw =>
      obtain ⟨w', rfl, hw'⟩ := same_var.mp hsame
      exact .here (BEq.trans (BEq.symm hw') hw)
  | inside hu _ ih =>
      obtain ⟨u', hu', hsame'⟩ := exists_piece_of_same hsame hu
      exact .inside hu' (ih hsame')

/-- The depth of the nearest occurrence. -/
def NearestAt (v : TyVar) (n : Nat) (t : Ty) : Prop := OccursAt v n t ∧ ∀ m, OccursAt v m t → n ≤ m

theorem exists_nearestAt (h : Occurs v t) : ∃ n, NearestAt v n t := by
  classical
  have hexists := exists_occursAt h
  exact ⟨Nat.find hexists, Nat.find_spec hexists, fun m hm => Nat.find_min' hexists hm⟩

/-- The nearest occurrence is the nearest one in the piece that it is in. -/
theorem NearestAt.piece {n : Nat} (h : NearestAt v (n + 1) t) :
    ∃ u ∈ t.pieces, NearestAt v n u := by
  obtain ⟨hat, hleast⟩ := h
  cases hat with
  | inside hu hat =>
      exact ⟨_, hu, hat, fun m hm => Nat.le_of_succ_le_succ (hleast (m + 1) (.inside hu hm))⟩

end Ty

/-! ## Searching the pieces -/

namespace Visit

open Ty (found_growth occurrenceHandler occurrenceHandler_adds sizeList NearestAt)

/-- What was found stays found. -/
abbrev Onward (found found' : Bool) : Prop := found = true → found' = true

/-- From one state to another by visiting types in order, where a type may be left out once the
variable was found. -/
inductive Searched (visit : Ty → Visit Bool → Visit Bool) :
    List Ty → Visit Bool → Visit Bool → Prop where
  | done (s : Visit Bool) : Searched visit [] s s
  | next {t ts s s'} (h : Searched visit ts (visit t s) s') : Searched visit (t :: ts) s s'
  | skip {t ts s s'} (hfound : s.acc = true) (h : Searched visit ts s s') :
      Searched visit (t :: ts) s s'

variable {visit : Ty → Visit Bool → Visit Bool} {ts us : List Ty} {t u : Ty} {v : TyVar}
  {s s' s'' : Visit Bool}

theorem Searched.append (h : Searched visit ts s s') (h' : Searched visit us s' s'') :
    Searched visit (ts ++ us) s s'' := by
  induction h with
  | done _ => exact h'
  | next _ ih => exact .next (ih h')
  | skip hfound _ ih => exact .skip hfound (ih h')

theorem Searched.of_found (hfound : s.acc = true) : Searched visit ts s s := by
  induction ts with
  | nil => exact .done s
  | cons t ts ih => exact .skip hfound ih

theorem searched_all (visit : Ty → Visit Bool → Visit Bool) (ts : List Ty) (s : Visit Bool) :
    Searched visit ts s (all visit ts s) := by
  induction ts generalizing s with
  | nil => exact .done s
  | cons t ts ih => exact .next (ih (visit t s))

theorem searched_occurrenceInArgs (visit : Ty → Visit Bool → Visit Bool) (args : List Ty)
    (s : Visit Bool) : Searched visit args s (Ty.occurrenceInArgs visit args s) := by
  induction args generalizing s with
  | nil => exact .done s
  | cons t args ih =>
      rw [Ty.occurrenceInArgs]
      split
      · exact .of_found ‹_›
      · exact .next (ih (visit t s))

/-- A type that is no variable is searched piece by piece. -/
theorem searched_occurrenceHandler (visit : Ty → Visit Bool → Visit Bool) (v : TyVar)
    (hvar : ∀ w, t ≠ .var w) (s : Visit Bool) :
    Searched visit t.pieces s (occurrenceHandler v visit t s) := by
  cases t with
  | cls _ => exact .done s
  | param owner _ args =>
      exact (searched_all visit owner.toList s).append (searched_occurrenceInArgs visit args _)
  | array component => exact .next (.done _)
  | wild upper lower =>
      exact (searched_all visit upper s).append (searched_all visit lower _)
  | var w => exact absurd rfl (hvar w)

section

variable (hvisit : ∀ t s, Grows Onward s (visit t s))

include hvisit

theorem Searched.grows (h : Searched visit ts s s') : Grows Onward s s' := by
  induction h with
  | done s => exact .refl found_growth s
  | next _ ih => exact (hvisit _ _).trans found_growth ih
  | skip _ _ ih => exact ih

/-- A type of the list is visited, or the variable is found without it. -/
theorem Searched.splits (h : Searched visit ts s s') (hu : u ∈ ts) :
    s'.acc = true ∨ ∃ mid, Grows Onward s mid ∧ Grows Onward (visit u mid) s' := by
  induction h with
  | done s => cases hu
  | @next t ts s s' h ih =>
      rcases List.mem_cons.mp hu with rfl | hu
      · exact Or.inr ⟨s, .refl found_growth s, h.grows hvisit⟩
      · refine (ih hu).imp_right fun ⟨mid, hmid, hafter⟩ => ?_
        exact ⟨mid, (hvisit t s).trans found_growth hmid, hafter⟩
  | skip hfound h _ => exact Or.inl ((h.grows hvisit).acc_le hfound)

end

/-! ## The nearest occurrence -/

/-- A type with an occurrence that is nearer than those in the types that are being visited is
none of them. -/
theorem free_of_nearest {n : Nat} {held : List Ty} (hat : Ty.OccursAt v n t)
    (haround : ∀ h ∈ held, ∀ m, Ty.OccursAt v m h → n < m) : held.contains t = false := by
  rw [← Bool.not_eq_true]
  intro hheld
  obtain ⟨h, hmem, hsame⟩ := List.contains_iff_exists_mem_beq.mp hheld
  exact lt_irrefl n (haround h hmem n (Ty.occursAt_of_same hat hsame))

/-- Without a refusal the nearest occurrence is found, if it is nearer than the occurrences in the
types that are being visited. -/
theorem within_finds {n levels : Nat} (hnearest : NearestAt v n t)
    (haround : ∀ h ∈ s.guard.held, ∀ m, Ty.OccursAt v m h → n < m)
    (hlevels : s.guard.held.length + levels = s.guard.maxDepth + 1)
    (hroom : s.guard.held.length ≤ s.guard.maxDepth)
    (hquiet : (within (occurrenceHandler v) levels t s).guard.refusals = s.guard.refusals) :
    (within (occurrenceHandler v) levels t s).acc = true := by
  have hgrows := within_grows (σ := Bool) found_growth (occurrenceHandler_adds v)
  induction n generalizing t s levels with
  | zero =>
      obtain ⟨levels, rfl⟩ : ∃ below, levels = below + 1 := ⟨levels - 1, by omega⟩
      obtain ⟨heq, -, -⟩ := within_of_quiet hquiet (free_of_nearest hnearest.1 haround)
      rw [heq]
      cases hnearest.1 with
      | @here w hw =>
          change (occurrenceHandler v _ (.var w) _).acc = true
          rw [occurrenceHandler, if_pos hw]
          rfl
  | succ n ih =>
      obtain ⟨levels, rfl⟩ : ∃ below, levels = below + 1 := ⟨levels - 1, by omega⟩
      obtain ⟨heq, hhandle, hdeeper⟩ :=
        within_of_quiet hquiet (free_of_nearest hnearest.1 haround)
      rw [heq]
      change (occurrenceHandler v _ t (s.opened t)).acc = true
      obtain ⟨u, hu, hpiece⟩ := hnearest.piece
      have hvar : ∀ w, t ≠ .var w := by
        rintro w rfl
        cases hu
      have hsearched := searched_occurrenceHandler (within (occurrenceHandler v) levels) v hvar
        (s.opened t)
      rcases hsearched.splits (hgrows levels) hu with hfound | ⟨mid, hmid, hafter⟩
      · exact hfound
      · have hheld : mid.guard.held = t :: s.guard.held := hmid.held_eq
        have hdepth : mid.guard.maxDepth = s.guard.maxDepth := hmid.maxDepth_eq
        apply hafter.acc_le
        apply ih hpiece
        · rw [hheld]
          refine List.forall_mem_cons.mpr ⟨fun m hm => hnearest.2 m hm, fun h hh m hm => ?_⟩
          exact (Nat.lt_succ_self n).trans (haround h hh m hm)
        · rw [hheld, hdepth, List.length_cons]
          omega
        · rw [hheld, hdepth]
          exact hdeeper
        · exact quiet_between hmid (hgrows levels u mid) hafter hhandle

/-! ## What a visit uses up -/

/-- From one state to another at the same depth, by a number of attempts at most and without a
refusal. -/
structure Spends (n : Nat) (s s' : Visit Bool) : Prop where
  held_eq : s'.guard.held = s.guard.held
  maxDepth_eq : s'.guard.maxDepth = s.guard.maxDepth
  maxIterations_eq : s'.guard.maxIterations = s.guard.maxIterations
  refusals_eq : s'.guard.refusals = s.guard.refusals
  attempts_le : s'.guard.attempts ≤ s.guard.attempts + n

/-- Room for some levels and some nodes below the types that are being visited. -/
structure HasRoom (s : Visit Bool) (levels nodes : Nat) : Prop where
  depth : s.guard.held.length + levels ≤ s.guard.maxDepth
  attempts : s.guard.attempts + nodes ≤ s.guard.maxIterations

theorem Spends.trans {m n : Nat} (h : Spends m s s') (h' : Spends n s' s'') :
    Spends (m + n) s s'' where
  held_eq := h'.held_eq.trans h.held_eq
  maxDepth_eq := h'.maxDepth_eq.trans h.maxDepth_eq
  maxIterations_eq := h'.maxIterations_eq.trans h.maxIterations_eq
  refusals_eq := h'.refusals_eq.trans h.refusals_eq
  attempts_le := by
    have hfirst := h.attempts_le
    have hsecond := h'.attempts_le
    omega

theorem Spends.mono {m n : Nat} (h : Spends m s s') (hle : m ≤ n) : Spends n s s' :=
  { h with attempts_le := h.attempts_le.trans (Nat.add_le_add_left hle _) }

theorem Spends.refl (s : Visit Bool) : Spends 0 s s := ⟨rfl, rfl, rfl, rfl, le_refl _⟩

/-- What is used up of the room for several types leaves the room for the others. -/
theorem HasRoom.after {levels m n : Nat} (h : HasRoom s levels (m + n)) (hs : Spends m s s') :
    HasRoom s' levels n where
  depth := by
    rw [hs.held_eq, hs.maxDepth_eq]
    exact h.depth
  attempts := by
    have hspent := hs.attempts_le
    have hroom := h.attempts
    rw [hs.maxIterations_eq]
    omega

theorem HasRoom.mono {levels levels' m n : Nat} (h : HasRoom s levels' m)
    (hlevels : levels ≤ levels') (hle : n ≤ m) : HasRoom s levels n :=
  ⟨(Nat.add_le_add_left hlevels _).trans h.depth, (Nat.add_le_add_left hle _).trans h.attempts⟩

theorem Searched.spends (hvisit : ∀ t s, HasRoom s t.levels t.size → Spends t.size s (visit t s))
    (h : Searched visit ts s s') (hroom : HasRoom s (Ty.levelsList ts) (sizeList ts)) :
    Spends (sizeList ts) s s' := by
  induction h with
  | done s => exact .refl s
  | @next t ts s s' _ ih =>
      have hfirst := hvisit t s (hroom.mono (le_max_left _ _) (Nat.le_add_right _ _))
      have hrest : HasRoom s (Ty.levelsList ts) (t.size + sizeList ts) :=
        hroom.mono (le_max_right _ _) (le_refl _)
      exact hfirst.trans (ih (hrest.after hfirst))
  | @skip t ts s s' _ _ ih =>
      exact (ih (hroom.mono (le_max_right _ _) (Nat.le_add_left _ _))).mono (Nat.le_add_left _ _)

theorem nextAttempts_le (s : Visit Bool) : s.guard.nextAttempts ≤ s.guard.attempts + 1 :=
  min_le_left _ _

/-- Where there is room for a type, it is entered unless it is being visited. -/
theorem HasRoom.judge (h : HasRoom s t.levels t.size) :
    s.guard.judge t = .entered ∨ s.guard.judge t = .cycle := by
  have hnext := nextAttempts_le s
  have hattempts := h.attempts
  have hdepth := h.depth
  rw [Ty.size_eq t] at hattempts
  rw [Ty.levels_eq t] at hdepth
  have hgranted : s.guard.nextAttempts ≤ s.guard.maxIterations := by omega
  cases hheld : s.guard.held.contains t with
  | false => exact Or.inl (Guard.judge_of_free hgranted hheld (by omega))
  | true =>
      refine Or.inr ?_
      rw [Guard.judge, if_neg (not_lt.mpr hgranted), if_pos hheld]

/-- Below a type that is entered there is room for its pieces. -/
theorem HasRoom.opened (h : HasRoom s t.levels t.size) :
    HasRoom (s.opened t) (Ty.levelsList t.pieces) (sizeList t.pieces) where
  depth := by
    have hdepth := h.depth
    rw [Ty.levels_eq t] at hdepth
    change (t :: s.guard.held).length + _ ≤ s.guard.maxDepth
    rw [List.length_cons]
    omega
  attempts := by
    have hnext := nextAttempts_le s
    have hattempts := h.attempts
    rw [Ty.size_eq t] at hattempts
    change s.guard.nextAttempts + _ ≤ s.guard.maxIterations
    omega

/-- What is done between entering a type and leaving it, and one attempt more. -/
theorem Spends.closed {n : Nat} (h : Spends n (s.opened t) s') :
    Spends (1 + n) s (s'.closed t) where
  held_eq := Guard.held_leave h.held_eq
  maxDepth_eq := (Guard.maxDepth_leave s'.guard t).trans h.maxDepth_eq
  maxIterations_eq := (Guard.maxIterations_leave s'.guard t).trans h.maxIterations_eq
  refusals_eq := (Guard.refusals_leave s'.guard t).trans h.refusals_eq
  attempts_le := by
    have hnext := nextAttempts_le s
    have hspent : s'.guard.attempts ≤ s.guard.nextAttempts + n := h.attempts_le
    have hleft : (s'.closed t).guard.attempts = s'.guard.attempts := Guard.attempts_leave s'.guard t
    omega

/-- Where there is room for a type, a visit is not refused and makes an attempt for each node at
most. -/
theorem within_spends (levels : Nat) (t : Ty) (s : Visit Bool) (hroom : HasRoom s t.levels t.size) :
    Spends t.size s (within (occurrenceHandler v) levels t s) := by
  induction levels generalizing t s with
  | zero => exact (Spends.refl s).mono (Nat.zero_le _)
  | succ levels ih =>
      rw [within_succ, Ty.size_eq t]
      rcases hroom.judge with hentered | hcycle
      · rw [hentered]
        refine Spends.closed ?_
        by_cases hvar : ∀ w, t ≠ .var w
        · exact (searched_occurrenceHandler _ v hvar (s.opened t)).spends ih hroom.opened
        · simp only [ne_eq, not_forall, not_not] at hvar
          obtain ⟨w, rfl⟩ := hvar
          rw [occurrenceHandler]
          split <;> exact ⟨rfl, rfl, rfl, rfl, le_refl _⟩
      · rw [hcycle]
        have hspent : Spends 1 s { s with guard := s.guard.record t .cycle } :=
          ⟨rfl, rfl, rfl, rfl, nextAttempts_le s⟩
        exact hspent.mono (Nat.le_add_right _ _)

end Visit

namespace Ty

variable {t : Ty} {v : TyVar}

/-- Whatever is passed over, a visit without a refusal finds every variable that occurs. -/
theorem mentions_of_quiet (hquiet : (t.occurrenceVisit v).guard.refusals = 0) (h : Occurs v t) :
    t.mentions v = true := by
  obtain ⟨n, hnearest⟩ := exists_nearestAt h
  exact Visit.within_finds (s := .start .visit false) hnearest nofun rfl (Nat.zero_le _) hquiet

/-- Within its limits a visit is not refused. -/
theorem quiet_of_small (hlevels : t.levels ≤ Limits.visitDepth) (hsize : t.size ≤ Limits.attempts) :
    (t.occurrenceVisit v).guard.refusals = 0 := by
  have hroom : Visit.HasRoom (.start .visit false) t.levels t.size :=
    ⟨(Nat.zero_add _).trans_le hlevels, (Nat.zero_add _).trans_le hsize⟩
  exact (Visit.within_spends (v := v) (Profile.visit.maxDepth + 1) t _ hroom).refusals_eq

/-- The occurs check finds no variable that does not occur. It finds every variable that does
occur in a type of a hundred levels and a hundred thousand nodes at most, and in every type in
which it was not cut off; and it takes no part of a type for a type around it. -/
theorem mentions_exact (t : Ty) (v : TyVar) :
    (t.mentions v = true → Occurs v t) ∧
      (t.levels ≤ 100 → t.size ≤ 100000 → Occurs v t → t.mentions v = true) ∧
      ((t.occurrenceVisit v).guard.refusals = 0 → Occurs v t → t.mentions v = true) ∧
      (t.DistinctBounds → ∀ around u, around = t ∨ Inside around t → Inside u around →
        (u == around) = false) := by
  refine ⟨occurs_of_mentions, fun hlevels hsize => ?_, mentions_of_quiet, ?_⟩
  · exact mentions_of_quiet (quiet_of_small hlevels hsize)
  · intro hbounds around u haround hu
    have hkept : around.DistinctBounds := by
      rcases haround with rfl | haround
      · exact hbounds
      · exact hbounds.inside haround
    exact (Bool.not_eq_true _).mp (hkept.not_same_of_inside hu)

theorem inside_arrays (n : Nat) : Inside t (array^[n + 1] t) := by
  rw [Function.iterate_succ_apply]
  exact forall_arrays (P := Inside t) (fun _ h => h.tail List.mem_cons_self) n
    (.single List.mem_cons_self)

def keyVar : TyVar := ⟨0, .synthetic "m", "K"⟩

/-- The type `List<? super K>`. -/
def keyList : Ty := param none (.named "List" .interface) [wild [object] [var keyVar]]

/-- The type `Map<K, ..>`, where the second argument is nested deeper than is visited. -/
def keyMap : Ty := param none (.named "Map" .interface) [var keyVar, array^[120] keyList]

/-- As many levels as are visited: the variable is found, and it is not found one level deeper.
What stands behind a variable that was found does not count. -/
theorem mentions_exact_deep : (array^[97] keyList).levels ≤ 100 ∧
    (array^[97] keyList).size ≤ 100000 ∧ Occurs keyVar (array^[97] keyList) ∧
    (array^[97] keyList).mentions keyVar = true ∧ (array^[97] keyList).DistinctBounds ∧
    Inside keyList (array^[97] keyList) ∧ (keyList == array^[97] keyList) = false ∧
    (array^[98] keyList).mentions keyVar = false ∧
    (keyMap.occurrenceVisit keyVar).guard.refusals = 0 ∧ keyMap.mentions keyVar = true := by
  have hlevels : (array^[97] keyList).levels ≤ 100 := by decide
  have hsize : (array^[97] keyList).size ≤ 100000 := by decide
  have hoccurs : Occurs keyVar (array^[97] keyList) :=
    forall_arrays (fun _ => .component) 97
      (.arg List.mem_cons_self (.lower List.mem_cons_self (occurs_self keyVar)))
  have hbounds : (array^[97] keyList).DistinctBounds := by
    have hwild : (wild [object] [var keyVar]).DistinctBounds :=
      .wild (List.forall_mem_singleton.mpr (.cls _)) (List.forall_mem_singleton.mpr (.var _))
        (List.pairwise_singleton _ _) (List.pairwise_singleton _ _)
    exact forall_arrays (fun _ => .array) 97 (.param nofun (List.forall_mem_singleton.mpr hwild))
  have hquiet : (keyMap.occurrenceVisit keyVar).guard.refusals = 0 := by decide +kernel
  obtain ⟨-, hfinds, -, hdiffer⟩ := mentions_exact (array^[97] keyList) keyVar
  obtain ⟨-, -, hfindsQuiet, -⟩ := mentions_exact keyMap keyVar
  exact ⟨hlevels, hsize, hoccurs, hfinds hlevels hsize hoccurs, hbounds, inside_arrays 96,
    hdiffer hbounds _ _ (Or.inl rfl) (inside_arrays 96), by decide +kernel, hquiet,
    hfindsQuiet hquiet (.arg List.mem_cons_self (occurs_self keyVar))⟩

end Ty

end Generics
