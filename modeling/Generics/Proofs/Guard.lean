import Generics.Guard
import Mathlib.Tactic

/-!
What the answers of a recursion guard say about it, and what it keeps when a
key is left.
-/

namespace Generics.Guard

variable {κ : Type} [BEq κ] {g : Guard κ} {key : κ}

/-- A key is entered only above the largest depth. -/
theorem length_of_entered (h : g.judge key = .entered) : g.held.length < g.maxDepth := by
  unfold judge at h
  split at h
  · cases h
  · split at h
    · cases h
    · split at h
      · cases h
      · rename_i hdepth
        exact not_le.mp hdepth

theorem contains_of_entered (h : g.judge key = .entered) : g.held.contains key = false := by
  unfold judge at h
  split at h
  · cases h
  · split at h
    · cases h
    · rename_i hheld
      exact (Bool.not_eq_true _).mp hheld

theorem contains_of_cycle (h : g.judge key = .cycle) : g.held.contains key = true := by
  unfold judge at h
  split at h
  · cases h
  · split at h
    · rename_i hheld
      exact hheld
    · split at h <;> cases h

/-- An attempt that the budget grants is entered, if the key is not held and the
depth allows it. -/
theorem judge_of_free (hattempts : g.nextAttempts ≤ g.maxIterations)
    (hfree : g.held.contains key = false) (hdepth : g.held.length < g.maxDepth) :
    g.judge key = .entered := by
  rw [judge, if_neg (not_lt.mpr hattempts), hfree, if_neg Bool.false_ne_true]
  exact if_neg (not_le.mpr hdepth)

omit [BEq κ] in
/-- An attempt more than the budget, which is less than what is counted at most. -/
theorem attempts_le_of_next {n : Nat} (hn : n < Limits.countedAttempts)
    (h : g.nextAttempts ≤ n) : g.attempts ≤ n := by
  unfold nextAttempts at h
  omega

omit [BEq κ] in
theorem attempts_record (g : Guard κ) (key : κ) (entry : Entry) :
    (g.record key entry).attempts = g.nextAttempts := by
  cases entry <;> rfl

theorem strays_enter (g : Guard κ) (key : κ) : (g.enter key).2.strays = g.strays := by
  change (g.record key (g.judge key)).strays = g.strays
  cases g.judge key <;> rfl

theorem refusals_leave (g : Guard κ) (key : κ) : (g.leave key).refusals = g.refusals := by
  unfold leave leave?
  split <;> rfl

theorem attempts_leave (g : Guard κ) (key : κ) : (g.leave key).attempts = g.attempts := by
  unfold leave leave?
  split <;> rfl

theorem maxDepth_leave (g : Guard κ) (key : κ) : (g.leave key).maxDepth = g.maxDepth := by
  unfold leave leave?
  split <;> rfl

theorem maxIterations_leave (g : Guard κ) (key : κ) :
    (g.leave key).maxIterations = g.maxIterations := by
  unfold leave leave?
  split <;> rfl

theorem strays_leave (g : Guard κ) (key : κ) :
    (g.leave key).strays = if g.held.contains key = true then g.strays else g.strays + 1 := by
  unfold leave leave?
  split <;> rfl

/-- A key that is held is left. -/
theorem held_leave_of_contains (hheld : g.held.contains key = true) :
    (g.leave key).held = g.held.erase key := by
  rw [leave, leave?, if_pos hheld]
  rfl

/-- The key that was entered last is left again. -/
theorem held_leave [ReflBEq κ] {held : List κ} (h : g.held = key :: held) :
    (g.leave key).held = held := by
  have hheld : g.held.contains key = true := by simp [h]
  rw [held_leave_of_contains hheld, h, List.erase_cons, if_pos BEq.rfl]

end Generics.Guard
