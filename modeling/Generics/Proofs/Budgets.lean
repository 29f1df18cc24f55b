import Generics.Proofs.Reuse

/-!
A recursion guard is a set with two budgets. The log of a guard says what was attempted, how each
attempt ended, and what was left. A key is open when it was entered and not left since, and as
long as only open keys are left, the log says all about the guard: the keys that it holds are the
open ones, and the next answer follows from the number of attempts and from the open keys.

Attempts are counted up to a largest number. The budget of every profile is below it, so an
attempt beyond the budget is recognized however many there were.
-/

namespace Generics.Guard

variable {κ : Type}

/-- What the owner of a guard does with it. -/
inductive Move (κ : Type) where
  | enter (key : κ)
  | leave (key : κ)

/-- What the log says of a move. -/
inductive Event (κ : Type) where
  | attempt (key : κ) (answer : Entry)
  | release (key : κ)
  deriving DecidableEq

/-- The attempts of a log, whatever came of them. -/
def attemptsIn (log : List (Event κ)) : Nat :=
  log.countP fun
    | .attempt _ _ => true
    | .release _ => false

section

variable [BEq κ]

def Move.event (g : Guard κ) : Move κ → Event κ
  | enter key => .attempt key (g.enter key).1
  | leave key => .release key

def Move.apply (g : Guard κ) : Move κ → Guard κ
  | enter key => (g.enter key).2
  | leave key => g.leave key

/-- The log of some moves, the first one first, and the guard after them. -/
def play (g : Guard κ) (moves : List (Move κ)) : List (Event κ) × Guard κ :=
  moves.foldl (fun (log, g) move => (log ++ [move.event g], move.apply g)) ([], g)

/-- A key that was entered and not left since. -/
def Open (log : List (Event κ)) (key : κ) : Prop :=
  ∃ before entered after, log = before ++ .attempt entered .entered :: after ∧
    (entered == key) = true ∧ ∀ left, .release left ∈ after → (left == key) = false

/-- Every key that is left is open. -/
def LeavesOpen (log : List (Event κ)) : Prop :=
  ∀ before key after, log = before ++ .release key :: after → Open before key

end

/-! ## Keys as a set -/

section

variable [BEq κ] [EquivBEq κ]

/-- Keys that compare equal are one key. -/
def keySetoid (κ : Type) [BEq κ] [EquivBEq κ] : Setoid κ where
  r a b := (a == b) = true
  iseqv := ⟨fun _ => BEq.rfl, BEq.symm, BEq.trans⟩

/-- The open keys, equal ones counted once. -/
def openKeys (log : List (Event κ)) : Set (Quotient (keySetoid κ)) :=
  Quotient.mk (keySetoid κ) '' {key | Open log key}

open Classical in
/-- How an attempt ends by rule, after a given log. -/
noncomputable def ruling (maxDepth maxIterations : Nat) (log : List (Event κ)) (key : κ) : Entry :=
  if maxIterations < attemptsIn log + 1 then .iterationExceeded
  else if Open log key then .cycle
  else if (openKeys log).encard = maxDepth then .depthExceeded
  else .entered

/-- Every attempt of a log ended by rule, after what stands before it. -/
def Ruled (maxDepth maxIterations : Nat) (log : List (Event κ)) : Prop :=
  ∀ before key answer after, log = before ++ .attempt key answer :: after →
    answer = ruling maxDepth maxIterations before key

end

/-! ## What a move does to the log -/

theorem snoc_eq_split {α : Type} {log before after : List α} {x y : α} :
    log ++ [x] = before ++ y :: after ↔
      (after = [] ∧ log = before ∧ x = y) ∨
        ∃ rest, after = rest ++ [x] ∧ log = before ++ y :: rest := by
  rcases List.eq_nil_or_concat' after with rfl | ⟨rest, z, rfl⟩
  · simp [List.append_singleton_inj]
  · have hsplit : before ++ y :: (rest ++ [z]) = (before ++ y :: rest) ++ [z] := by simp
    rw [hsplit, List.append_singleton_inj]
    constructor
    · rintro ⟨hlog, rfl⟩
      exact Or.inr ⟨rest, rfl, hlog⟩
    · rintro (⟨hnil, -, -⟩ | ⟨rest', hrest, hlog⟩)
      · simp at hnil
      · obtain ⟨rfl, rfl⟩ := List.append_singleton_inj.mp hrest
        exact ⟨hlog, rfl⟩

section

variable [BEq κ] {g : Guard κ} {log : List (Event κ)} {key : κ}

theorem play_snoc (g : Guard κ) (moves : List (Move κ)) (move : Move κ) :
    g.play (moves ++ [move]) = ((g.play moves).1 ++ [move.event (g.play moves).2],
      move.apply (g.play moves).2) := by
  simp [play, List.foldl_append]

theorem not_open_nil (key : κ) : ¬Open [] key := by
  rintro ⟨before, entered, after, hlog, -, -⟩
  simp at hlog

theorem open_attempt {e : κ} {answer : Entry} :
    Open (log ++ [.attempt e answer]) key ↔
      Open log key ∨ (answer = .entered ∧ (e == key) = true) := by
  constructor
  · rintro ⟨before, entered, after, hlog, hkey, hafter⟩
    rcases snoc_eq_split.mp hlog with ⟨-, -, heq⟩ | ⟨rest, rfl, hrest⟩
    · cases heq
      exact Or.inr ⟨rfl, hkey⟩
    · refine Or.inl ⟨before, entered, rest, hrest, hkey, fun left hleft => ?_⟩
      exact hafter left (List.mem_append_left _ hleft)
  · rintro (⟨before, entered, after, rfl, hkey, hafter⟩ | ⟨rfl, hkey⟩)
    · refine ⟨before, entered, after ++ [.attempt e answer], by simp, hkey, fun left hleft => ?_⟩
      rcases List.mem_append.mp hleft with hleft | hlast
      · exact hafter left hleft
      · simp at hlast
    · exact ⟨log, e, [], rfl, hkey, nofun⟩

theorem open_release {l : κ} :
    Open (log ++ [.release l]) key ↔ Open log key ∧ (l == key) = false := by
  constructor
  · rintro ⟨before, entered, after, hlog, hkey, hafter⟩
    rcases snoc_eq_split.mp hlog with ⟨-, -, heq⟩ | ⟨rest, rfl, hrest⟩
    · cases heq
    · exact ⟨⟨before, entered, rest, hrest, hkey,
        fun left hleft => hafter left (List.mem_append_left _ hleft)⟩,
        hafter l (List.mem_append_right _ List.mem_cons_self)⟩
  · rintro ⟨⟨before, entered, after, rfl, hkey, hafter⟩, hl⟩
    refine ⟨before, entered, after ++ [.release l], by simp, hkey, fun left hleft => ?_⟩
    rcases List.mem_append.mp hleft with hleft | hlast
    · exact hafter left hleft
    · cases List.mem_singleton.mp hlast
      exact hl

/-- Up to the last move only open keys are left, and so they are by the last move. -/
theorem leavesOpen_snoc {event : Event κ} :
    LeavesOpen (log ++ [event]) ↔
      LeavesOpen log ∧ ∀ key, event = .release key → Open log key := by
  constructor
  · intro h
    refine ⟨fun before key after hlog => ?_, fun key hevent => ?_⟩
    · exact h before key (after ++ [event]) (by rw [hlog]; simp)
    · exact h log key [] (by rw [hevent])
  · rintro ⟨hlog, hlast⟩ before key after hsplit
    rcases snoc_eq_split.mp hsplit with ⟨-, rfl, hevent⟩ | ⟨rest, -, hrest⟩
    · exact hlast key hevent
    · exact hlog before key rest hrest

omit [BEq κ] in
theorem attemptsIn_attempt {e : κ} {answer : Entry} :
    attemptsIn (log ++ [.attempt e answer]) = attemptsIn log + 1 := by
  simp [attemptsIn, List.countP_append]

omit [BEq κ] in
theorem attemptsIn_release {l : κ} : attemptsIn (log ++ [.release l]) = attemptsIn log := by
  simp [attemptsIn, List.countP_append]

end

/-! ## What the log says of the guard -/

/-- A guard with nothing done to it yet, and a budget that can be counted. -/
structure Fresh (g : Guard κ) : Prop where
  held_eq : g.held = []
  attempts_eq : g.attempts = 0
  maxIterations_lt : g.maxIterations < Limits.countedAttempts

theorem fresh_ofProfile (profile : Profile) : (ofProfile profile : Guard κ).Fresh :=
  ⟨rfl, rfl, show Limits.attempts < Limits.countedAttempts by decide⟩

/-- The log of a guard, read against it. -/
structure Accounts [BEq κ] (log : List (Event κ)) (g : Guard κ) : Prop where
  attempts_eq : g.attempts = min (attemptsIn log) Limits.countedAttempts
  contains_iff : ∀ key, g.held.contains key = true ↔ Open log key
  distinct : g.held.Pairwise fun a b => (a == b) = false
  depth_le : g.depth ≤ g.maxDepth

section

variable [BEq κ] {g : Guard κ} {log : List (Event κ)} {key : κ}

theorem Fresh.accounts (h : g.Fresh) : Accounts [] g where
  attempts_eq := by
    rw [h.attempts_eq]
    rfl
  contains_iff key := by
    rw [h.held_eq]
    exact iff_of_false Bool.false_ne_true (not_open_nil key)
  distinct := by
    rw [h.held_eq]
    exact .nil
  depth_le := by
    rw [depth, h.held_eq]
    exact Nat.zero_le _

theorem Accounts.counted (h : Accounts log g) : g.attempts ≤ Limits.countedAttempts :=
  h.attempts_eq ▸ min_le_right _ _

/-- One more attempt is one more that is counted, as long as it can be counted. -/
theorem Accounts.nextAttempts_eq (h : Accounts log g) :
    g.nextAttempts = min (attemptsIn log + 1) Limits.countedAttempts := by
  rw [nextAttempts, h.attempts_eq]
  omega

theorem strays_apply (g : Guard κ) (move : Move κ) : g.strays ≤ (move.apply g).strays := by
  cases move with
  | enter key => exact (strays_enter g key).ge
  | leave key =>
      rw [Move.apply, strays_leave]
      split <;> omega

theorem strays_play (g : Guard κ) (moves : List (Move κ)) : g.strays ≤ (g.play moves).2.strays := by
  induction moves using List.reverseRecOn with
  | nil => exact le_refl _
  | append_singleton moves move ih =>
      rw [play_snoc]
      exact ih.trans (strays_apply _ move)

theorem limits_apply (hcounted : g.attempts ≤ Limits.countedAttempts) (move : Move κ) :
    Aged g (move.apply g) := by
  cases move with
  | enter key => exact aged_enter hcounted key
  | leave key => exact aged_leave hcounted key

end

section

variable [BEq κ] [EquivBEq κ] {g start : Guard κ} {log : List (Event κ)} {key : κ}

/-- Leaving a key takes it, and no other one, out of keys that are different. -/
theorem contains_erase {held : List κ} (hdistinct : held.Pairwise fun a b => (a == b) = false)
    {l : κ} : (held.erase l).contains key = true ↔
      held.contains key = true ∧ (l == key) = false := by
  induction held with
  | nil => simp
  | cons c held ih =>
      obtain ⟨hhead, htail⟩ := List.pairwise_cons.mp hdistinct
      rw [List.erase_cons]
      split
      · rename_i hcl
        rw [List.contains_cons, Bool.or_eq_true]
        constructor
        · intro hkey
          refine ⟨Or.inr hkey, ?_⟩
          obtain ⟨d, hd, hkd⟩ := List.contains_iff_exists_mem_beq.mp hkey
          rw [← Bool.not_eq_true]
          intro hl
          have hcd : (c == d) = true := BEq.trans hcl (BEq.trans hl hkd)
          rw [hhead d hd] at hcd
          cases hcd
        · rintro ⟨hkey | hkey, hl⟩
          · rw [BEq.symm (BEq.trans hkey hcl)] at hl
            cases hl
          · exact hkey
      · rename_i hcl
        rw [List.contains_cons, List.contains_cons, Bool.or_eq_true, Bool.or_eq_true, ih htail]
        constructor
        · rintro (hkey | ⟨hkey, hl⟩)
          · refine ⟨Or.inl hkey, ?_⟩
            rw [← Bool.not_eq_true]
            exact fun hl => hcl (BEq.symm (BEq.trans hl hkey))
          · exact ⟨Or.inr hkey, hl⟩
        · rintro ⟨hkey | hkey, hl⟩
          · exact Or.inl hkey
          · exact Or.inr ⟨hkey, hl⟩

/-- The keys that are held are as many as the open ones. -/
theorem Accounts.encard_openKeys (h : Accounts log g) : (openKeys log).encard = g.depth := by
  classical
  have hnodup : (g.held.map (Quotient.mk (keySetoid κ))).Nodup := by
    refine List.pairwise_map.mpr (h.distinct.imp fun hdiffer heq => ?_)
    rw [show _ = true from Quotient.exact heq] at hdiffer
    cases hdiffer
  have hkeys : openKeys log = (g.held.map (Quotient.mk (keySetoid κ))).toFinset := by
    ext cls
    rw [List.coe_toFinset, Set.mem_ofPred_eq, List.mem_map]
    constructor
    · rintro ⟨key, hopen, rfl⟩
      obtain ⟨d, hd, hkd⟩ := List.contains_iff_exists_mem_beq.mp ((h.contains_iff key).mpr hopen)
      exact ⟨d, hd, Quotient.sound (BEq.symm hkd)⟩
    · rintro ⟨d, hd, rfl⟩
      refine ⟨d, (h.contains_iff d).mp ?_, rfl⟩
      exact List.contains_iff_exists_mem_beq.mpr ⟨d, hd, BEq.rfl⟩
  rw [hkeys, Set.encard_coe_eq_coe_finsetCard, List.toFinset_card_of_nodup hnodup, List.length_map]
  rfl

/-- The next answer is the one by rule. -/
theorem Accounts.answer_eq (h : Accounts log g)
    (hbudget : g.maxIterations < Limits.countedAttempts) (key : κ) :
    (g.enter key).1 = ruling g.maxDepth g.maxIterations log key := by
  classical
  have hspent : g.maxIterations < g.nextAttempts ↔ g.maxIterations < attemptsIn log + 1 := by
    rw [h.nextAttempts_eq]
    omega
  have hfull : g.maxDepth ≤ g.depth ↔ (openKeys log).encard = g.maxDepth := by
    rw [h.encard_openKeys, Nat.cast_inj]
    have := h.depth_le
    omega
  change g.judge key = _
  rw [judge, ruling]
  exact if_congr hspent rfl (if_congr (h.contains_iff key) rfl (if_congr hfull rfl rfl))

theorem Accounts.enter (h : Accounts log g) (key : κ) :
    Accounts (log ++ [.attempt key (g.enter key).1]) (g.enter key).2 := by
  have hattempts : (g.enter key).2.attempts = g.nextAttempts := attempts_record g key _
  have hdepth : (g.enter key).2.maxDepth = g.maxDepth := (aged_enter h.counted key).maxDepth_eq
  have hcount : (g.enter key).2.attempts =
      min (attemptsIn (log ++ [.attempt key (g.enter key).1])) Limits.countedAttempts := by
    rw [hattempts, h.nextAttempts_eq, attemptsIn_attempt]
  by_cases hentered : (g.enter key).1 = .entered
  · have hheld := held_enter hentered
    refine ⟨hcount, fun other => ?_, ?_, ?_⟩
    · rw [hheld, open_attempt, List.contains_cons, Bool.or_eq_true, h.contains_iff, BEq.comm]
      tauto
    · rw [hheld]
      refine List.pairwise_cons.mpr ⟨fun other hother => ?_, h.distinct⟩
      have hfree := contains_of_entered hentered
      rw [List.contains_eq_any_beq, List.any_eq_false] at hfree
      exact (Bool.not_eq_true _).mp (hfree other hother)
    · rw [hdepth, depth, hheld]
      exact length_of_entered hentered
  · have hheld := held_enter_of_ne hentered
    refine ⟨hcount, fun other => ?_, ?_, ?_⟩
    · rw [hheld, open_attempt, h.contains_iff]
      tauto
    · rw [hheld]
      exact h.distinct
    · rw [hdepth, depth, hheld]
      exact h.depth_le

theorem Accounts.leave (h : Accounts log g) (hopen : Open log key) :
    Accounts (log ++ [.release key]) (g.leave key) := by
  have hheld := held_leave_of_contains ((h.contains_iff key).mpr hopen)
  refine ⟨?_, fun other => ?_, ?_, ?_⟩
  · rw [attempts_leave, h.attempts_eq, attemptsIn_release]
  · rw [hheld, contains_erase h.distinct, open_release, h.contains_iff]
  · rw [hheld]
    exact h.distinct.sublist List.erase_sublist
  · rw [maxDepth_leave, depth, hheld]
    exact (List.erase_sublist.length_le).trans h.depth_le

/-! ## Any number of moves -/

/-- What is known of a guard after moves that left open keys only: its log says all about it, its
limits are those of the beginning, and it answered by rule. -/
structure Kept (start : Guard κ) (log : List (Event κ)) (g : Guard κ) : Prop where
  accounts : Accounts log g
  maxDepth_eq : g.maxDepth = start.maxDepth
  maxIterations_eq : g.maxIterations = start.maxIterations
  ruled : Ruled start.maxDepth start.maxIterations log

theorem Fresh.kept (h : start.Fresh) : Kept start [] start :=
  ⟨h.accounts, rfl, rfl, fun before _ _ _ hlog => by simp at hlog⟩

theorem Kept.move (h : Kept start log g) (hbudget : start.maxIterations < Limits.countedAttempts)
    (move : Move κ) (hopen : ∀ key, move.event g = .release key → Open log key) :
    Kept start (log ++ [move.event g]) (move.apply g) := by
  have hlimits := limits_apply h.accounts.counted move
  have hrule : ∀ key answer, move.event g = .attempt key answer →
      answer = ruling start.maxDepth start.maxIterations log key := by
    intro key answer hevent
    cases move with
    | enter key' =>
        cases hevent
        rw [← h.maxDepth_eq, ← h.maxIterations_eq]
        exact h.accounts.answer_eq (h.maxIterations_eq ▸ hbudget) _
    | leave _ => cases hevent
  refine ⟨?_, hlimits.maxDepth_eq.trans h.maxDepth_eq,
    hlimits.maxIterations_eq.trans h.maxIterations_eq, fun before key answer after hlog => ?_⟩
  · cases move with
    | enter key => exact h.accounts.enter key
    | leave key => exact h.accounts.leave (hopen key rfl)
  · rcases snoc_eq_split.mp hlog with ⟨-, rfl, hevent⟩ | ⟨rest, -, hbefore⟩
    · exact hrule key answer hevent
    · exact h.ruled before key answer rest hbefore

theorem Fresh.kept_play (h : start.Fresh) (moves : List (Move κ))
    (hleaves : LeavesOpen (start.play moves).1) :
    Kept start (start.play moves).1 (start.play moves).2 := by
  induction moves using List.reverseRecOn with
  | nil => exact h.kept
  | append_singleton moves move ih =>
      rw [play_snoc] at hleaves ⊢
      obtain ⟨hbefore, hlast⟩ := leavesOpen_snoc.mp hleaves
      exact (ih hbefore).move h.maxIterations_lt move hlast

theorem ruling_eq_iterationExceeded {maxDepth maxIterations : Nat} :
    ruling maxDepth maxIterations log key = .iterationExceeded ↔
      maxIterations < attemptsIn log + 1 := by
  unfold ruling
  constructor
  · intro h
    by_contra hgranted
    rw [if_neg hgranted] at h
    split at h
    · cases h
    · split at h <;> cases h
  · exact fun h => if_pos h

/-- Once the budget of attempts is exceeded it stays so. -/
theorem Ruled.exceeded {maxDepth maxIterations : Nat} (h : Ruled maxDepth maxIterations log)
    {before after : List (Event κ)} {key key' : κ} {answer : Entry}
    (hlog : log = before ++ .attempt key .iterationExceeded :: after)
    (hlater : .attempt key' answer ∈ after) : answer = .iterationExceeded := by
  obtain ⟨between, rest, rfl⟩ := List.append_of_mem hlater
  have hspent := ruling_eq_iterationExceeded.mp (h before key _ _ hlog).symm
  have hanswer := h (before ++ .attempt key .iterationExceeded :: between) key' answer rest
    (by rw [hlog]; simp)
  rw [hanswer, ruling_eq_iterationExceeded]
  have hmore : attemptsIn before ≤
      attemptsIn (before ++ .attempt key .iterationExceeded :: between) := by
    rw [attemptsIn, attemptsIn, List.countP_append]
    exact Nat.le_add_right _ _
  omega

/-- Only open keys are left just if the guard counts no stray. -/
theorem Fresh.leavesOpen_iff (h : start.Fresh) (moves : List (Move κ)) :
    LeavesOpen (start.play moves).1 ↔ (start.play moves).2.strays = start.strays := by
  induction moves using List.reverseRecOn with
  | nil => exact iff_of_true (fun before _ _ hlog => by simp [play] at hlog) rfl
  | append_singleton moves move ih =>
      have hmore := strays_play start moves
      have hlast := strays_apply (start.play moves).2 move
      have hstep : LeavesOpen (start.play moves).1 →
          ((∀ key, move.event (start.play moves).2 = .release key →
            Open (start.play moves).1 key) ↔
              (move.apply (start.play moves).2).strays = (start.play moves).2.strays) := by
        intro hleaves
        have haccounts := (h.kept_play moves hleaves).accounts
        cases move with
        | enter key => exact iff_of_true nofun (strays_enter _ key)
        | leave key =>
            rw [Move.apply, strays_leave]
            constructor
            · intro hopen
              rw [if_pos ((haccounts.contains_iff key).mpr (hopen key rfl))]
            · intro hstrays other hother
              cases hother
              by_contra hclosed
              rw [← haccounts.contains_iff] at hclosed
              rw [if_neg hclosed] at hstrays
              omega
      rw [play_snoc, leavesOpen_snoc, ih]
      dsimp only
      constructor
      · rintro ⟨hbefore, hopen⟩
        exact ((hstep (ih.mpr hbefore)).mp hopen).trans hbefore
      · intro hall
        have hbefore : (start.play moves).2.strays = start.strays := by omega
        exact ⟨hbefore, (hstep (ih.mpr hbefore)).mpr (by omega)⟩

/-- A guard refines a set with two budgets. -/
theorem play_ruled (profile : Profile) (moves : List (Move κ))
    (hleaves : LeavesOpen ((ofProfile profile).play moves).1) :
    let log := ((ofProfile profile).play moves).1
    let g := ((ofProfile profile).play moves).2
    Ruled profile.maxDepth profile.maxIterations log ∧
      (∀ key, (g.enter key).1 ≠ .entered → (g.enter key).2.held = g.held) ∧
      (∀ key, g.held.contains key = true ↔ Open log key) ∧
      (openKeys log).encard = g.depth ∧ g.depth ≤ profile.maxDepth ∧
      (g.isActive = true ↔ (openKeys log).Nonempty) ∧
      ∀ before key after, log = before ++ .attempt key .iterationExceeded :: after →
        ∀ key' answer, .attempt key' answer ∈ after → answer = .iterationExceeded := by
  have hkept := (fresh_ofProfile profile).kept_play moves hleaves
  have haccounts := hkept.accounts
  refine ⟨hkept.ruled, fun key => held_enter_of_ne, haccounts.contains_iff,
    haccounts.encard_openKeys, ?_, ?_, fun before key after hlog key' answer =>
      hkept.ruled.exceeded hlog⟩
  · exact haccounts.depth_le.trans_eq hkept.maxDepth_eq
  · rw [← Set.encard_ne_zero, haccounts.encard_openKeys, isActive, depth]
    simp

end

/-- As many keys as the depth allows, one more, one that is held, and one in the place of
another. -/
def fullMoves : List (Move Nat) :=
  (List.range Limits.closureDepth).map .enter ++
    [.enter 64, .enter 3, .leave 3, .enter 64, .leave 0]

theorem play_ruled_full : LeavesOpen ((ofProfile .closure).play fullMoves).1 ∧
    ((ofProfile .closure).play fullMoves).1.drop 64 = [.attempt 64 .depthExceeded,
      .attempt 3 .cycle, .release 3, .attempt 64 .entered, .release 0] ∧
    (openKeys ((ofProfile .closure).play fullMoves).1).encard = 63 ∧
    Ruled Limits.closureDepth Limits.attempts ((ofProfile .closure).play fullMoves).1 := by
  have hleaves := ((fresh_ofProfile .closure).leavesOpen_iff fullMoves).mpr (by decide +kernel)
  obtain ⟨hruled, -, -, hsize, -⟩ := play_ruled .closure fullMoves hleaves
  refine ⟨hleaves, by decide +kernel, hsize.trans ?_, hruled⟩
  rw [show ((ofProfile .closure).play fullMoves).2.depth = 63 by decide +kernel]
  rfl

end Generics.Guard
