import Generics.Proofs.Elements

/-!
How the elements of a token are collected. Within the limits a walk enters the
element of every class that it comes to, unless the element is a member
already: what is held is below the class, and ancestry has no cycles. So what
holds of the members at the start, and is kept when an element becomes a member
after those above it, holds in the end.
-/

namespace Generics.Token

open Env

variable {env : Env} {origin e : Token} {c d above : ClassRef}

/-! ## Entering an element -/

/-- No type that is held is of a class or of one of its ancestors. -/
def Clear (env : Env) (held : List Ty) (d : ClassRef) : Prop :=
  ∀ z ∈ held, ∀ r, z.raw? = some r → ∀ n, ¬env.RawPath n d r

theorem Clear.free {held : List Ty} {t : Ty} (h : Clear env held d) (ht : t.raw? = some c)
    (hname : c.name = d.name) : held.contains t = false := by
  rw [← Bool.not_eq_true]
  intro hheld
  obtain ⟨z, hz, hsame⟩ := List.contains_iff_exists_mem_beq.mp hheld
  obtain ⟨r, hr, hrname⟩ := raw?_of_same hsame ht
  exact h z hz r hr 0 (hname.symm.trans hrname)

/-- Above a class without cycles that is being collected. -/
theorem Clear.push {held : List Ty} {z : Ty} (h : Clear env held d)
    (hz : ∀ r, z.raw? = some r → r.name = d.name) (hacyclic : ∀ n, ¬env.RawPath (n + 1) d d)
    (habove : above ∈ env.rawSupertypes d) : Clear env (z :: held) above := by
  intro x hx r hr n hpath
  rcases List.mem_cons.mp hx with rfl | hx
  · exact hacyclic n (RawPath.target (hz r hr) ⟨above, habove, hpath⟩)
  · exact h x hx r hr (n + 1) ⟨above, habove, hpath⟩

/-- A state in which a class may be entered: nothing that is held is above it, and
the depth and the budget allow for a chain of `k` ancestors. -/
structure Ready (env : Env) (s : Collection) (k : Nat) (d : ClassRef) : Prop where
  clear : Clear env s.guard.held d
  depth : k + s.guard.held.length ≤ s.guard.maxDepth
  budget : s.guard.maxIterations < Limits.countedAttempts

theorem Ready.later {s s' : Collection} {k : Nat} (h : Ready env s k d)
    (hlater : Collection.Later s s') : Ready env s' k d where
  clear := by
    rw [hlater.held_eq]
    exact h.clear
  depth := by
    rw [hlater.held_eq, hlater.maxDepth_eq]
    exact h.depth
  budget := by
    rw [hlater.maxIterations_eq]
    exact h.budget

theorem Ready.push {s : Collection} {k : Nat} {t : Ty} (h : Ready env s (k + 1) d)
    (ht : ∀ r, t.raw? = some r → r.name = d.name) (hacyclic : ∀ n, ¬env.RawPath (n + 1) d d)
    (habove : above ∈ env.rawSupertypes d) : Ready env (s.opened t) k above where
  clear := h.clear.push ht hacyclic habove
  depth := by
    have hdepth := h.depth
    change k + (s.guard.held.length + 1) ≤ s.guard.maxDepth
    omega
  budget := h.budget

/-- Collects the elements above a class. -/
def collectAbove (env : Env) (fuel : Nat) (origin : Token) (raw : ClassRef) : CollectM Nat :=
  CollectM.highest (fun edge => collectAncestor env fuel origin (env.erase edge)) (baseLevel raw)
    (env.classes.interfaces raw ++ (env.classes.superclass? raw).toList)

theorem respects_collectAbove (fuel : Nat) (origin : Token) (raw : ClassRef) :
    CollectM.Respects (collectAbove env fuel origin raw) :=
  CollectM.respects_highest (fun _ _ => respects_collectAncestor _ _ _) _

/-! ## Descending to the ancestors -/

/-- The proper ancestors of the class of a token, along declared edges. -/
inductive Ancestor (env : Env) (origin : Token) : ClassRef → Prop where
  | edge {above : ClassRef} (h : above ∈ env.rawSupertypes (origin.rawType env)) : Ancestor env origin above
  | step {d above : ClassRef} (hd : Ancestor env origin d) (h : above ∈ env.rawSupertypes d) :
      Ancestor env origin above

theorem Ancestor.plain (hplain : env.classes.PlainEdges) (h : Ancestor env origin d) :
    d.isPlain = true := by
  cases h with
  | edge h => exact rawSupertypes_plain hplain h
  | step _ h => exact rawSupertypes_plain hplain h

theorem Ancestor.isArray (hplain : env.classes.PlainEdges) (h : Ancestor env origin d) :
    d.isArray = false :=
  (ClassRef.isPlain_iff.mp (h.plain hplain)).1

theorem Ancestor.path (hplain : env.classes.PlainEdges) (h : Ancestor env origin d) :
    ∃ n, env.RawPath (n + 1) (origin.rawType env) d := by
  induction h with
  | edge h => exact ⟨0, _, h, rfl⟩
  | step hd h ih =>
      obtain ⟨n, hpath⟩ := ih
      exact ⟨n + 1, rawPath_step hplain hpath (hd.isArray hplain) h⟩

theorem Ancestor.low {n : Nat} (hlow : env.Low n (origin.rawType env))
    (h : Ancestor env origin d) : env.Low n d := by
  induction h with
  | edge h => exact hlow.step h
  | step _ h ih => exact ih.step h

theorem Ancestor.name_ne (hplain : env.classes.PlainEdges)
    (hacyclic : ∀ n, ¬env.RawPath (n + 1) (origin.rawType env) (origin.rawType env))
    (h : Ancestor env origin d) : (origin.rawType env).name ≠ d.name := by
  obtain ⟨n, hpath⟩ := h.path hplain
  exact fun hname => hacyclic n (hpath.target hname.symm)

theorem exists_ancestor {n : Nat} (h : env.RawPath (n + 1) (origin.rawType env) d) :
    ∃ a, Ancestor env origin a ∧ a.name = d.name := by
  obtain ⟨above, habove, hpath⟩ := h
  have hancestor : Ancestor env origin above := .edge habove
  clear habove
  induction n generalizing above with
  | zero => exact ⟨above, hancestor, hpath⟩
  | succ n ih =>
      obtain ⟨next, hnext, hrest⟩ := hpath
      exact ih next hrest (hancestor.step hnext)

/-- Every ancestor of a class that is neither an array nor a primitive has an element. -/
theorem Ancestor.exists_element (hplain : env.classes.PlainEdges)
    (hopen : env.upperBounds? origin.type = none) (hc : (origin.rawType env).isPlain = true)
    (huncut : env.Uncut origin.type) (h : Ancestor env origin d) :
    ∃ e, origin.elementAt? env d = some e := by
  obtain ⟨n, hpath⟩ := h.path hplain
  exact elementAt?_of_rawPath hopen hplain hc (h.plain hplain) hpath huncut

section

variable (hplain : env.classes.PlainEdges) (hopen : env.upperBounds? origin.type = none)
  (hacyclic : ∀ n, ¬env.RawPath (n + 1) (origin.rawType env) (origin.rawType env))

include hplain hopen hacyclic

/-- The class of an element is that of the ancestor that it was looked for as. -/
theorem Ancestor.raw_of_element (hd : Ancestor env origin d)
    (he : origin.elementAt? env d = some e) : ∃ r, e.type.raw? = some r ∧ r.name = d.name := by
  obtain ⟨r, hr, -, hname⟩ := raw_of_elementAt? hopen hplain
    (hd.isArray hplain) (hd.name_ne hplain hacyclic) he
  exact ⟨r, hr, hname⟩

theorem Ancestor.rawType_of_element (hd : Ancestor env origin d)
    (he : origin.elementAt? env d = some e) : (e.rawType env).name = d.name := by
  obtain ⟨r, hr, hname⟩ := hd.raw_of_element hplain hopen hacyclic he
  rw [rawType, erase_of_raw? hr]
  exact hname

end

/-- A property of members that collecting keeps, with what it brings about for
each ancestor, its level being given. -/
structure Descent (env : Env) (origin : Token) (P : List (Token × Nat) → Prop)
    (Q : ClassRef → Nat → List (Token × Nat) → Prop) : Prop where
  mono : ∀ {d level members members'}, Q d level members → members <+: members' →
    Q d level members'
  missing : ∀ {d members}, Ancestor env origin d → origin.elementAt? env d = none → P members →
    Q d 0 members
  known : ∀ {d e member members}, Ancestor env origin d → origin.elementAt? env d = some e →
    P members → member ∈ members → (member.1.type == e.type) = true → Q d member.2 members
  new : ∀ {d e levels members}, Ancestor env origin d → origin.elementAt? env d = some e →
    P members →
    List.Forall₂ (fun edge level => Q (env.erase edge) level members)
      (env.classes.interfaces d ++ (env.classes.superclass? d).toList) levels →
    P (members ++ [(e, levels.foldl max (baseLevel d) + 1)]) ∧
      Q d (levels.foldl max (baseLevel d) + 1)
        (members ++ [(e, levels.foldl max (baseLevel d) + 1)])

section

variable {P : List (Token × Nat) → Prop} {Q : ClassRef → Nat → List (Token × Nat) → Prop}

/-- What collecting the ancestors above a class does, from what it does for each. -/
theorem Descent.edges (h : Descent env origin P Q) (fuel : Nat) {s : Collection}
    (hbudget : s.guard.maxIterations < Limits.countedAttempts)
    (hstep : ∀ above ∈ env.rawSupertypes d, ∀ s', Collection.Later s s' → P s'.members →
      ((collectAncestor env fuel origin above).run s').2.guard.attempts ≤ s.guard.maxIterations →
      P ((collectAncestor env fuel origin above).run s').2.members ∧
        Q above ((collectAncestor env fuel origin above).run s').1
          ((collectAncestor env fuel origin above).run s').2.members)
    (hs : P s.members)
    (hattempts : ((collectAbove env fuel origin d).run s).2.guard.attempts ≤
      s.guard.maxIterations) :
    P ((collectAbove env fuel origin d).run s).2.members ∧
      ∃ levels, List.Forall₂ (fun edge level =>
          Q (env.erase edge) level ((collectAbove env fuel origin d).run s).2.members)
        (env.classes.interfaces d ++ (env.classes.superclass? d).toList) levels ∧
        ((collectAbove env fuel origin d).run s).1 = levels.foldl max (baseLevel d) := by
  have hcollects := CollectM.highest_collects
    (P := fun s' => Collection.Later s s' ∧ P s'.members)
    (Q := fun edge level s' => Q (env.erase edge) level s'.members)
    hbudget (fun _ _ => respects_collectAncestor fuel origin _)
    (fun _ _ _ _ hQ hlater => h.mono hQ hlater.members) ?_ (baseLevel d)
    ⟨Collection.Later.refl s, hs⟩ hattempts
  · exact ⟨hcollects.1.2, hcollects.2⟩
  · rintro edge hedge s' ⟨hlater, hP⟩ hle
    obtain ⟨hP', hQ⟩ := hstep (env.erase edge) (mem_rawSupertypes hedge) s' hlater hP hle
    exact ⟨⟨hlater.trans ((respects_collectAncestor fuel origin _).later s'), hP'⟩, hQ⟩

variable (hplain : env.classes.PlainEdges) (hopen : env.upperBounds? origin.type = none)
  (hacyclic : ∀ n, ¬env.RawPath (n + 1) (origin.rawType env) (origin.rawType env))

include hplain hopen hacyclic

/-- Collecting an ancestor keeps the property and brings about what it should. -/
theorem Descent.ancestor (h : Descent env origin P Q) {k fuel : Nat} (hk : k ≤ fuel)
    (hlow : env.Low k d) (hd : Ancestor env origin d) {s : Collection} (hs : P s.members)
    (hready : Ready env s k d)
    (hattempts : ((collectAncestor env fuel origin d).run s).2.guard.attempts ≤
      s.guard.maxIterations) :
    P ((collectAncestor env fuel origin d).run s).2.members ∧
      Q d ((collectAncestor env fuel origin d).run s).1
        ((collectAncestor env fuel origin d).run s).2.members := by
  induction k generalizing fuel d s with
  | zero => exact absurd hlow (not_low_zero d)
  | succ k ih =>
      cases fuel with
      | zero => omega
      | succ fuel =>
          cases he : origin.elementAt? env d with
          | none =>
              have hrun : collectAncestor env (fuel + 1) origin d = pure 0 := by
                rw [collectAncestor, he]
              rw [hrun]
              exact ⟨hs, h.missing hd he hs⟩
          | some e =>
              have hdarray := hd.isArray hplain
              obtain ⟨r, hr, hname⟩ := hd.raw_of_element hplain hopen hacyclic he
              have hrun : collectAncestor env (fuel + 1) origin d =
                  CollectM.record e (collectAbove env fuel origin d) := by
                rw [collectAncestor, he]
                rfl
              rw [hrun] at hattempts ⊢
              have hdepth := hready.depth
              rcases CollectM.record_cases (hready.clear.free hr hname) (by omega)
                (respects_collectAbove fuel origin d) hattempts with
                ⟨level, hlevel, hresult⟩ | ⟨level, s', habove, -, hwithin, hresult⟩
              · obtain ⟨member, hmember, hsame, rfl⟩ := Collection.exists_of_level? hlevel
                rw [hresult]
                exact ⟨hs, h.known hd he hs hmember hsame⟩
              · have hraw : ∀ r', e.type.raw? = some r' → r'.name = d.name := by
                  intro r' hr'
                  rw [← Option.some.inj (hr.symm.trans hr')]
                  exact hname
                have hwithin' : ((collectAbove env fuel origin d).run
                    (s.opened e.type)).2.guard.attempts ≤ s.guard.maxIterations := by
                  rw [habove]
                  exact hwithin
                have hedges := h.edges (s := s.opened e.type) fuel hready.budget
                  (fun above habove s' hlater hP hle => ?_) hs hwithin'
                · rw [habove] at hedges
                  rw [hresult]
                  obtain ⟨hP, levels, hlevels, hlevel⟩ := hedges
                  obtain rfl : level = levels.foldl max (baseLevel d) := hlevel
                  exact h.new hd he hP hlevels
                · have hready' := (hready.push hraw (hlow.acyclic hplain hdarray) habove).later hlater
                  refine ih (by omega) (hlow.above habove) (hd.step habove) hP hready' ?_
                  rw [hlater.maxIterations_eq]
                  exact hle

/-- Collecting everything above the class of the token itself. -/
theorem Descent.ancestors (h : Descent env origin P Q) {k : Nat} (fuel : Nat) (hk : k ≤ fuel)
    (hlow : env.Low (k + 1) (origin.rawType env)) {s : Collection} (hs : P s.members)
    (hready : ∀ above ∈ env.rawSupertypes (origin.rawType env), Ready env s k above)
    (hbudget : s.guard.maxIterations < Limits.countedAttempts)
    (hattempts : ((collectAbove env fuel origin (origin.rawType env)).run s).2.guard.attempts ≤
      s.guard.maxIterations) :
    P ((collectAbove env fuel origin (origin.rawType env)).run s).2.members ∧
      ∃ levels, List.Forall₂ (fun edge level => Q (env.erase edge) level
          ((collectAbove env fuel origin (origin.rawType env)).run s).2.members)
        (env.classes.interfaces (origin.rawType env) ++
          (env.classes.superclass? (origin.rawType env)).toList) levels ∧
        ((collectAbove env fuel origin (origin.rawType env)).run s).1 =
          levels.foldl max (baseLevel (origin.rawType env)) := by
  refine h.edges fuel hbudget (fun above habove s' hlater hP hle => ?_) hs hattempts
  refine h.ancestor hplain hopen hacyclic hk (hlow.above habove) (.edge habove)
    hP ((hready above habove).later hlater) ?_
  rw [hlater.maxIterations_eq]
  exact hle

/-- What collecting the token and everything above it does: the token is a member
already, or it becomes one after its ancestors. -/
theorem Descent.recorded (h : Descent env origin P Q) {k : Nat} (fuel : Nat) (hk : k ≤ fuel)
    (hlow : env.Low (k + 1) (origin.rawType env)) {s : Collection} (hs : P s.members)
    (hfree : s.guard.held.contains origin.type = false)
    (hheld : ∀ z ∈ s.guard.held, z.raw? = none)
    (hdepth : k + 1 + s.guard.held.length ≤ s.guard.maxDepth)
    (hbudget : s.guard.maxIterations < Limits.countedAttempts)
    (hattempts : ((CollectM.record origin
      (collectAbove env fuel origin (origin.rawType env))).run s).2.guard.attempts ≤
        s.guard.maxIterations) :
    (∃ level, s.level? origin.type = some level ∧
      (CollectM.record origin (collectAbove env fuel origin (origin.rawType env))).run s =
        (level, s)) ∨
    ∃ members levels, ((CollectM.record origin
        (collectAbove env fuel origin (origin.rawType env))).run s).2.members = members ++
          [(origin, levels.foldl max (baseLevel (origin.rawType env)) + 1)] ∧
      P members ∧
      List.Forall₂ (fun edge level => Q (env.erase edge) level members)
        (env.classes.interfaces (origin.rawType env) ++
          (env.classes.superclass? (origin.rawType env)).toList) levels ∧
      ∀ m ∈ members, m ∈ s.members ∨
        m.2 ≤ levels.foldl max (baseLevel (origin.rawType env)) := by
  have hrespects := @respects_collectAbove env fuel origin (origin.rawType env)
  rcases CollectM.record_cases hfree (by omega) hrespects hattempts with
    hknown | ⟨level, s', habove, -, hwithin, hresult⟩
  · exact Or.inl hknown
  · right
    have hready : ∀ above ∈ env.rawSupertypes (origin.rawType env),
        Ready env (s.opened origin.type) k above := by
      intro above hedge
      refine ⟨?_, ?_, hbudget⟩
      · intro z hz r hr n hpath
        rcases List.mem_cons.mp hz with rfl | hz
        · rw [rawType, erase_of_raw? hr] at hedge hacyclic
          exact hacyclic n ⟨above, hedge, hpath⟩
        · rw [hheld z hz] at hr
          cases hr
      · change k + (s.guard.held.length + 1) ≤ s.guard.maxDepth
        omega
    have hcollected := h.ancestors hplain hopen hacyclic (s := s.opened origin.type) fuel hk hlow
      hs hready hbudget (by rw [habove]; exact hwithin)
    have hlevels := hrespects.level_le (s.opened origin.type)
    rw [habove] at hcollected hlevels
    obtain ⟨hP, levels, hQ, hlevel⟩ := hcollected
    obtain rfl : level = levels.foldl max (baseLevel (origin.rawType env)) := hlevel
    rw [hresult]
    exact ⟨s'.members, levels, rfl, hP, hQ, hlevels⟩

end

/-! ## The whole collection -/

theorem tidy_collection (env : Env) (token : Token) : (token.collection env).Tidy :=
  (respects_collect _ token).tidy .start ⟨.nil, fun _ h => absurd h List.not_mem_nil⟩

theorem collect_closed (hopen : env.upperBounds? origin.type = none) (fuel : Nat) :
    collect env (fuel + 1) origin =
      CollectM.record origin (collectAbove env fuel origin (origin.rawType env)) := by
  rw [collect, hopen]
  change collectAncestor env (fuel + 1) origin (origin.rawType env) = _
  rw [collectAncestor, elementAt?_of_name rfl]
  rfl

/-- The collection of a token that is not open: the token comes after everything
above it, on a level of its own. -/
theorem Descent.collection {P : List (Token × Nat) → Prop}
    {Q : ClassRef → Nat → List (Token × Nat) → Prop} (h : Descent env origin P Q)
    (hplain : env.classes.PlainEdges) (hopen : env.upperBounds? origin.type = none)
    (hacyclic : ∀ n, ¬env.RawPath (n + 1) (origin.rawType env) (origin.rawType env))
    (hlow : env.Low Limits.closureDepth (origin.rawType env))
    (hattempts : (origin.collection env).guard.attempts ≤ Limits.attempts) (hP : P []) :
    ∃ members levels, (origin.collection env).members = members ++
        [(origin, levels.foldl max (baseLevel (origin.rawType env)) + 1)] ∧ P members ∧
      List.Forall₂ (fun edge level => Q (env.erase edge) level members)
        (env.classes.interfaces (origin.rawType env) ++
          (env.classes.superclass? (origin.rawType env)).toList) levels ∧
      ∀ m ∈ members, m.2 ≤ levels.foldl max (baseLevel (origin.rawType env)) := by
  rw [Token.collection, collect_closed hopen] at hattempts ⊢
  rcases h.recorded hplain hopen hacyclic (k := Limits.closureDepth - 1) Limits.closureDepth
    (Nat.sub_le _ _) hlow hP rfl (fun _ hz => absurd hz List.not_mem_nil) (by decide) (by decide)
    hattempts with ⟨level, hlevel, -⟩ | ⟨members, levels, hmembers, hP', hQ, hlevels⟩
  · cases hlevel
  · refine ⟨members, levels, hmembers, hP', hQ, fun m hm => ?_⟩
    exact (hlevels m hm).resolve_left List.not_mem_nil

end Generics.Token
