import Generics.Visit.RawTypes
import Generics.Proofs.Bounds
import Generics.Proofs.Visiting

/-!
What the raw classes of a type are. The visits that collect them pass over a
type that a limit turns down, and such cuts are counted here beside the
classes. Every class that is collected is one of the type, whatever was cut;
where chains of bounds come to an end and nothing was cut, no class is missing.
-/

namespace Generics.Env

/-- The raw classes of a type: its own, the array classes over those of a
component, and those of every upper bound. -/
inductive RawOf (env : Env) : Ty → ClassRef → Prop where
  | raw {t c} (h : t.raw? = some c) : RawOf env t c
  | array {component c} (h : RawOf env component c) :
      RawOf env (.array component) (.arrayOf c)
  | bound {t bounds b c} (ht : env.upperBounds? t = some bounds) (hb : b ∈ bounds)
      (h : RawOf env b c) : RawOf env t c

variable {env : Env} {t y : Ty} {b c : ClassRef}

/-! ## Lists of raw classes -/

theorem mem_addRaw {raws : List ClassRef} (h : c ∈ addRaw raws b) : c ∈ raws ∨ c = b := by
  unfold addRaw at h
  split at h
  · exact Or.inl h
  · exact List.mem_append.mp h |>.imp_right List.mem_singleton.mp

theorem subset_addRaw (raws : List ClassRef) (c : ClassRef) : raws ⊆ addRaw raws c := by
  unfold addRaw
  split
  · exact List.Subset.refl raws
  · exact List.subset_append_left raws [c]

theorem contains_addRaw (raws : List ClassRef) (c : ClassRef) :
    (addRaw raws c).contains c = true := by
  unfold addRaw
  split
  · assumption
  · simp

theorem mem_addRaws {raws cs : List ClassRef} (h : c ∈ cs.foldl addRaw raws) :
    c ∈ raws ∨ c ∈ cs := by
  induction cs generalizing raws with
  | nil => exact Or.inl h
  | cons d cs ih =>
      rcases ih h with hraw | hrest
      · rcases mem_addRaw hraw with hraw | rfl
        · exact Or.inl hraw
        · exact Or.inr List.mem_cons_self
      · exact Or.inr (List.mem_cons_of_mem d hrest)

theorem subset_addRaws (cs raws : List ClassRef) : raws ⊆ cs.foldl addRaw raws := by
  induction cs generalizing raws with
  | nil => exact List.Subset.refl raws
  | cons d cs ih => exact List.Subset.trans (subset_addRaw raws d) (ih (addRaw raws d))

theorem contains_mono {raws raws' : List ClassRef} (h : raws ⊆ raws')
    (hc : raws.contains c = true) : raws'.contains c = true := by
  obtain ⟨d, hd, hname⟩ := contains_iff_name.mp hc
  exact contains_iff_name.mpr ⟨d, h hd, hname⟩

theorem contains_addRaws {cs : List ClassRef} (raws : List ClassRef) (h : cs.contains c = true) :
    (cs.foldl addRaw raws).contains c = true := by
  induction cs generalizing raws with
  | nil => cases h
  | cons d cs ih =>
      rw [List.contains_cons, Bool.or_eq_true] at h
      rcases h with hd | hrest
      · obtain ⟨e, he, hname⟩ := contains_iff_name.mp (contains_addRaw raws d)
        refine contains_mono (subset_addRaws cs (addRaw raws d)) ?_
        exact contains_iff_name.mpr ⟨e, he, hname.trans (ClassRef.beq_iff_name.mp hd).symm⟩
      · exact ih (addRaw raws d) hrest

theorem contains_arrayOf {cs : List ClassRef} (h : cs.contains c = true) :
    (cs.map ClassRef.arrayOf).contains c.arrayOf = true := by
  obtain ⟨d, hd, hname⟩ := contains_iff_name.mp h
  refine contains_iff_name.mpr ⟨d.arrayOf, List.mem_map_of_mem hd, ?_⟩
  rw [ClassRef.name_arrayOf, ClassRef.name_arrayOf, hname]

/-! ## Counting what is cut -/

/-- Raw classes, with the number of types that a limit turned down. -/
structure CountedRaws where
  raws : List ClassRef
  cuts : Nat

/-- The handler that collects raw classes, which adds up the cuts at components. -/
def countingHandler (env : Env) (componentRaws : Ty → CountedRaws) : Handler CountedRaws :=
  fun visit t s =>
    match t with
    | .cls c => s.modify fun found => { found with raws := addRaw found.raws c }
    | .param _ raw _ => s.modify fun found => { found with raws := addRaw found.raws raw }
    | .array component => s.modify fun found =>
        { raws := ((componentRaws component).raws.map ClassRef.arrayOf).foldl addRaw found.raws
          cuts := found.cuts + (componentRaws component).cuts }
    | .wild upper _ => Visit.all visit upper s
    | .var v => Visit.all visit (env.bounds.effective v) s

/-- One visit for the raw classes of a type. -/
def countingVisit (env : Env) (componentRaws : Ty → CountedRaws) (t : Ty) : Visit CountedRaws :=
  Visit.run (env.countingHandler componentRaws) .visit [t] ⟨[], 0⟩

/-- The raw classes of a type, seen through at most `arrays` nested array types,
with the number of cuts in all visits. -/
def countedRawsWithin (env : Env) : Nat → Ty → CountedRaws
  | 0, _ => ⟨[], 0⟩
  | arrays + 1, t =>
    let visited := env.countingVisit (env.countedRawsWithin arrays) t
    ⟨visited.acc.raws, visited.acc.cuts + visited.guard.refusals⟩

/-- How often a limit was met in collecting the raw classes of a type. -/
def rawTypeHits (env : Env) (t : Ty) : Nat := (env.countedRawsWithin (env.reach t + 1) t).cuts

/-- Counting changes nothing about what is collected. -/
theorem countedRawsWithin_raws (arrays : Nat) (t : Ty) :
    (env.countedRawsWithin arrays t).raws = env.rawTypesWithin arrays t := by
  induction arrays generalizing t with
  | zero => rfl
  | succ arrays ih =>
      have hmap : ∀ y s,
          (Visit.within (env.countingHandler (env.countedRawsWithin arrays))
            (Profile.visit.maxDepth + 1) y s).map CountedRaws.raws =
          Visit.within (env.rawTypeHandler (env.rawTypesWithin arrays))
            (Profile.visit.maxDepth + 1) y (s.map CountedRaws.raws) := by
        refine Visit.within_map ?_ _
        intro visit visit' hvisit y s
        cases y with
        | cls _ => rfl
        | param _ _ _ => rfl
        | array component =>
            simp only [countingHandler, rawTypeHandler, ← ih]
            rfl
        | wild upper _ => exact Visit.all_map hvisit upper s
        | var v => exact Visit.all_map hvisit (env.bounds.effective v) s
      exact congrArg Visit.acc (hmap t (.start .visit ⟨[], 0⟩))

/-! ## Every class that is collected is one of the type -/

theorem subset_growth : Growth (fun raws raws' : List ClassRef => raws ⊆ raws') where
  refl := List.Subset.refl
  trans := List.Subset.trans

theorem rawTypeHandler_adds (componentRaws : Ty → List ClassRef) :
    (env.rawTypeHandler componentRaws).Adds fun raws raws' => raws ⊆ raws' := by
  intro visit hvisit t s
  cases t with
  | cls c => exact ⟨rfl, rfl, le_refl _, subset_addRaw s.acc c⟩
  | param _ raw _ => exact ⟨rfl, rfl, le_refl _, subset_addRaw s.acc raw⟩
  | array component => exact ⟨rfl, rfl, le_refl _, subset_addRaws _ s.acc⟩
  | wild upper _ => exact Visit.all_grows subset_growth hvisit upper s
  | var v => exact Visit.all_grows subset_growth hvisit (env.bounds.effective v) s

theorem rawOf_of_mem (arrays : Nat) (h : c ∈ env.rawTypesWithin arrays t) : env.RawOf t c := by
  induction arrays generalizing t c with
  | zero => cases h
  | succ arrays ih =>
      have hkept : ∀ c ∈ (Visit.within (env.rawTypeHandler (env.rawTypesWithin arrays))
          (Profile.visit.maxDepth + 1) t (.start .visit [])).acc, env.RawOf t c := by
        refine Visit.within_preserves (P := fun raws => ∀ c ∈ raws, env.RawOf t c)
          (Q := fun y => ∀ c, env.RawOf y c → env.RawOf t c)
          subset_growth (rawTypeHandler_adds _) ?_ _ (fun c hc => hc)
          (fun c hc => absurd hc List.not_mem_nil)
        intro visit _ hvisit y s hy hs
        have hbounds : ∀ bounds, env.upperBounds? y = some bounds →
            ∀ c ∈ (Visit.all visit bounds s).acc, env.RawOf t c := by
          intro bounds hopen
          exact Visit.all_preserves (P := fun raws => ∀ c ∈ raws, env.RawOf t c)
            (fun b hb s => hvisit b s fun c hc => hy c (.bound hopen hb hc)) hs
        cases y with
        | cls d =>
            intro c hc
            rcases mem_addRaw hc with hc | rfl
            · exact hs c hc
            · exact hy c (.raw rfl)
        | param _ d _ =>
            intro c hc
            rcases mem_addRaw hc with hc | rfl
            · exact hs c hc
            · exact hy c (.raw rfl)
        | array component =>
            intro c hc
            rcases mem_addRaws hc with hc | hc
            · exact hs c hc
            · obtain ⟨d, hd, rfl⟩ := List.mem_map.mp hc
              exact hy _ (.array (ih hd))
        | wild upper lower => exact hbounds upper rfl
        | var v => exact hbounds (env.bounds.effective v) rfl
      exact hkept c h

/-! ## No class is missing -/

/-- What was counted only grows. -/
def CountedRaws.Le (found found' : CountedRaws) : Prop :=
  found.raws ⊆ found'.raws ∧ found.cuts ≤ found'.cuts

theorem counted_growth : Growth CountedRaws.Le where
  refl := fun found => ⟨List.Subset.refl found.raws, le_refl found.cuts⟩
  trans := fun h h' => ⟨List.Subset.trans h.1 h'.1, h.2.trans h'.2⟩

theorem countingHandler_adds (componentRaws : Ty → CountedRaws) :
    (env.countingHandler componentRaws).Adds CountedRaws.Le := by
  intro visit hvisit t s
  cases t with
  | cls c => exact ⟨rfl, rfl, le_refl _, subset_addRaw s.acc.raws c, le_refl _⟩
  | param _ raw _ => exact ⟨rfl, rfl, le_refl _, subset_addRaw s.acc.raws raw, le_refl _⟩
  | array component =>
      exact ⟨rfl, rfl, le_refl _, subset_addRaws _ s.acc.raws, Nat.le_add_right _ _⟩
  | wild upper _ => exact Visit.all_grows counted_growth hvisit upper s
  | var v => exact Visit.all_grows counted_growth hvisit (env.bounds.effective v) s

/-- An open type is handled by visiting its upper bounds. -/
theorem countingHandler_open {bounds : List Ty} (componentRaws : Ty → CountedRaws)
    (visit : Ty → Visit CountedRaws → Visit CountedRaws) (s : Visit CountedRaws)
    (hopen : env.upperBounds? y = some bounds) :
    env.countingHandler componentRaws visit y s = Visit.all visit bounds s := by
  cases y with
  | wild upper lower =>
      obtain rfl := Option.some.inj hopen
      rfl
  | var v =>
      obtain rfl := Option.some.inj hopen
      rfl
  | _ => cases hopen

/-- Nothing is cut from one state of a traversal to a later one. -/
def Quiet (s s' : Visit CountedRaws) : Prop :=
  s'.guard.refusals = s.guard.refusals ∧ s'.acc.cuts = s.acc.cuts

/-- Where nothing is cut from end to end, nothing is cut on the way. -/
theorem Quiet.between {first s s' last : Visit CountedRaws}
    (hbefore : Visit.Grows CountedRaws.Le first s) (h : Visit.Grows CountedRaws.Le s s')
    (hafter : Visit.Grows CountedRaws.Le s' last) (huncut : Quiet first last) : Quiet s s' := by
  refine ⟨Visit.quiet_between hbefore h hafter huncut.1, ?_⟩
  have hfirst := hbefore.acc_le.2
  have hstep := h.acc_le.2
  have hlast := hafter.acc_le.2
  have hall := huncut.2
  omega

/-- Where nothing is cut in visiting a list of types, each of them is visited
with nothing cut, and what that visit collects is kept. -/
theorem exists_quiet {visit : Ty → Visit CountedRaws → Visit CountedRaws}
    (hgrows : ∀ t s, Visit.Grows CountedRaws.Le s (visit t s)) {ts : List Ty} (ht : t ∈ ts)
    {s : Visit CountedRaws} (huncut : Quiet s (Visit.all visit ts s)) :
    ∃ s', Visit.Grows CountedRaws.Le s s' ∧ Quiet s' (visit t s') ∧
      (visit t s').acc.raws ⊆ (Visit.all visit ts s).acc.raws := by
  obtain ⟨s', hbefore, hafter⟩ := Visit.all_splits counted_growth hgrows ht s
  exact ⟨s', hbefore, huncut.between hbefore (hgrows t s') hafter, hafter.acc_le.1⟩

/-- A type that is not held is handled with nothing cut, and what the handler has collected is
what the visit collects. -/
theorem Quiet.opened {handler : Handler CountedRaws} {levels : Nat} {s : Visit CountedRaws}
    (huncut : Quiet s (Visit.within handler (levels + 1) y s))
    (hfree : s.guard.held.contains y = false) :
    Quiet (s.opened y) (handler (Visit.within handler levels) y (s.opened y)) ∧
      (Visit.within handler (levels + 1) y s).acc =
        (handler (Visit.within handler levels) y (s.opened y)).acc ∧
      s.guard.held.length < s.guard.maxDepth := by
  obtain ⟨hrun, hquiet, hdepth⟩ := Visit.within_of_quiet huncut.1 hfree
  rw [hrun] at huncut ⊢
  exact ⟨⟨hquiet, huncut.2⟩, rfl, hdepth⟩

/-- A chain of bounds as a visit follows it, to a type with a given raw class: every type that
it has passed is held from then on, and it meets none that is held. -/
inductive Followed (env : Env) : List Ty → Ty → ClassRef → Prop where
  | ends {held : List Ty} {y : Ty} {c : ClassRef} (hfree : held.contains y = false)
      (hclosed : env.upperBounds? y = none) (hc : env.RawOf y c) : Followed env held y c
  | bound {held bounds : List Ty} {y z : Ty} {c : ClassRef} (hfree : held.contains y = false)
      (hopen : env.upperBounds? y = some bounds) (hz : z ∈ bounds)
      (h : Followed env (y :: held) z c) : Followed env held y c

/-- Types by the number of arrays that their chains pass at most. A visit that begins at one of
them can follow a chain to each of its raw classes. -/
structure ByArrays (env : Env) (types : Nat → Ty → Prop) : Prop where
  none : ∀ y, ¬types 0 y
  bound : ∀ n y bounds z, types (n + 1) y → env.upperBounds? y = some bounds → z ∈ bounds →
    types (n + 1) z
  component : ∀ n component, types (n + 1) (.array component) → types n component
  followed : ∀ n y c, types n y → env.RawOf y c → ∃ d, env.Followed [] y d ∧ c.name = d.name

section

variable {types : Nat → Ty → Prop} {arrays : Nat}

/-- A visit in which nothing is cut collects the class at the end of each chain that it follows.
The number of held types with the levels left is that of all levels. -/
theorem ByArrays.within_collects (h : env.ByArrays types)
    (hcomponents : ∀ component c, types arrays component → env.RawOf component c →
      (env.countedRawsWithin arrays component).cuts = 0 →
        (env.countedRawsWithin arrays component).raws.contains c = true)
    (levels : Nat) {s : Visit CountedRaws} (hmax : s.guard.maxDepth = Limits.visitDepth)
    (hlevels : s.guard.held.length + levels = Limits.visitDepth + 1)
    (hheld : s.guard.held.length ≤ Limits.visitDepth) (hy : types (arrays + 1) y)
    (huncut : Quiet s
      (Visit.within (env.countingHandler (env.countedRawsWithin arrays)) levels y s))
    (hchain : env.Followed s.guard.held y c) :
    (Visit.within (env.countingHandler (env.countedRawsWithin arrays)) levels y
      s).acc.raws.contains c = true := by
  induction levels generalizing y s with
  | zero => omega
  | succ levels ih =>
      have hfree : s.guard.held.contains y = false := by
        cases hchain with
        | ends hfree _ _ => exact hfree
        | bound hfree _ _ _ => exact hfree
      obtain ⟨hinner, hacc, hdepth⟩ := huncut.opened hfree
      rw [hmax] at hdepth
      rw [hacc]
      cases hchain with
      | ends _ hclosed hc =>
          cases hc with
          | raw hraw =>
              cases y with
              | cls d =>
                  obtain rfl := Option.some.inj hraw
                  exact contains_addRaw _ d
              | param _ d _ =>
                  obtain rfl := Option.some.inj hraw
                  exact contains_addRaw _ d
              | _ => cases hraw
          | @array component d hd =>
              have hcuts : (env.countedRawsWithin arrays component).cuts = 0 :=
                Nat.add_eq_left.mp hinner.2
              have hmem := hcomponents component d (h.component _ _ hy) hd hcuts
              exact contains_addRaws _ (contains_arrayOf hmem)
          | bound hopen _ _ =>
              rw [hclosed] at hopen
              cases hopen
      | @bound _ bounds _ z _ _ hopen hz hrest =>
          rw [countingHandler_open _ _ _ hopen] at hinner ⊢
          have hgrows := Visit.within_grows counted_growth
            (@countingHandler_adds env (env.countedRawsWithin arrays)) levels
          obtain ⟨s', hbefore, huncut', hkept⟩ := exists_quiet hgrows hz hinner
          have hheldEq : s'.guard.held = y :: s.guard.held := hbefore.held_eq
          have hlength : s'.guard.held.length = s.guard.held.length + 1 :=
            congrArg List.length hheldEq
          rw [← hheldEq] at hrest
          exact contains_mono hkept (ih (hbefore.maxDepth_eq.trans hmax) (by omega) (by omega)
            (h.bound _ _ _ _ hy hopen hz) huncut' hrest)

theorem ByArrays.counted_complete (h : env.ByArrays types) (ht : types arrays t)
    (hcuts : (env.countedRawsWithin arrays t).cuts = 0) (hc : env.RawOf t c) :
    (env.countedRawsWithin arrays t).raws.contains c = true := by
  induction arrays generalizing t c with
  | zero => exact absurd ht (h.none t)
  | succ arrays ih =>
      have hsum : (env.countingVisit (env.countedRawsWithin arrays) t).acc.cuts +
          (env.countingVisit (env.countedRawsWithin arrays) t).guard.refusals = 0 := hcuts
      obtain ⟨hacc, hquiet⟩ := Nat.add_eq_zero_iff.mp hsum
      obtain ⟨d, hchain, hname⟩ := h.followed _ t c ht hc
      have hmem := h.within_collects (fun _ _ ht' hc' hcuts' => ih ht' hcuts' hc')
        (s := .start .visit ⟨[], 0⟩) (Profile.visit.maxDepth + 1) rfl rfl (Nat.zero_le _) ht
        ⟨hquiet, hacc⟩ hchain
      obtain ⟨e, he, hname'⟩ := contains_iff_name.mp hmem
      exact contains_iff_name.mpr ⟨e, he, hname'.trans hname.symm⟩

theorem ByArrays.rawTypes_complete (h : env.ByArrays types) (ht : types (env.reach t + 1) t)
    (hhits : env.rawTypeHits t = 0) (hc : env.RawOf t c) :
    (env.rawTypes t).contains c = true := by
  have hmem := h.counted_complete ht hhits hc
  rwa [countedRawsWithin_raws] at hmem

end

/-! ## Chains that come to an end -/

section

open Vocabulary

variable {w : Vocabulary env}

theorem RawOf.isClass (h : env.RawOf t c) (ht : w.Writes t) : w.isClass c := by
  induction h with
  | raw h =>
      rw [← erase_of_raw? h]
      exact erase_writes ht
  | array _ ih =>
      cases ht with
      | array ht => exact w.arrayOf _ (ih ht)
  | @bound t bounds b c hopen hb _ ih => exact ih (bound_writes ht hopen hb)

/-- Types being visited: each is written in the vocabulary, its chains come to
an end, and the type that is visited next is on one of them. -/
def Leads (w : Vocabulary env) (held : List Ty) (y : Ty) : Prop :=
  ∀ z ∈ held, w.Writes z ∧ env.Nearer y z ∧ ∃ n, env.Ends n z

theorem Leads.free {held : List Ty} (h : Leads w held y) (hy : w.Writes y) :
    held.contains y = false := by
  rw [← Bool.not_eq_true]
  intro hheld
  obtain ⟨z, hz, hsame⟩ := List.contains_iff_exists_mem_beq.mp hheld
  obtain ⟨hwrites, hnear, n, hends⟩ := h z hz
  exact not_nearer_alike hends ⟨hy, hwrites, hsame⟩ hnear

theorem Leads.bound {held bounds : List Ty} {z : Ty} (h : Leads w held y) (hy : w.Writes y)
    {n : Nat} (hends : env.Ends n y) (hopen : env.upperBounds? y = some bounds)
    (hz : z ∈ bounds) : Leads w (y :: held) z := by
  have hnear : env.Nearer z y := nearer_of_bound hopen hz
  intro x hx
  rcases List.mem_cons.mp hx with rfl | hx
  · exact ⟨hy, hnear, n, hends⟩
  · obtain ⟨hwrites, hnear', hends'⟩ := h x hx
    exact ⟨hwrites, hnear.trans hnear', hends'⟩

/-- A visit that holds types of the chains that lead to a type can follow each of its chains. -/
theorem Leads.followed {held : List Ty} (h : Leads w held y) (hy : w.Writes y) {n : Nat}
    (hends : env.Ends n y) (hc : env.RawOf y c) : env.Followed held y c := by
  induction hc generalizing held n with
  | raw hraw => exact .ends (h.free hy) (upperBounds?_of_raw? hraw) (.raw hraw)
  | array hd _ => exact .ends (h.free hy) rfl (.array hd)
  | bound hopen hz _ ih =>
      cases n with
      | zero => cases hends
      | succ n =>
          exact .bound (h.free hy) hopen hz (ih (h.bound hy hends hopen hz)
            (bound_writes hy hopen hz) (hends.1 _ hopen _ hz))

theorem byArrays_ends (w : Vocabulary env) :
    env.ByArrays fun n y => w.Writes y ∧ env.Ends n y where
  none _ h := h.2
  bound _ y bounds z h hopen hz :=
    ⟨bound_writes h.1 hopen hz, ends_succ (h.2.1 bounds hopen z hz)⟩
  component n component h := by
    cases h.1 with
    | array hwrites => exact ⟨hwrites, h.2.2 component rfl⟩
  followed n y c h hc := ⟨c, Leads.followed (w := w) nofun h.1 h.2 hc, rfl⟩

/-- Where nothing was cut, the raw classes that are collected are those of the type. -/
theorem mem_rawTypes_iff {n : Nat} (hends : env.Ends n t) (ht : w.Writes t)
    (hhits : env.rawTypeHits t = 0) : c ∈ env.rawTypes t ↔ env.RawOf t c := by
  constructor
  · exact rawOf_of_mem _
  · intro hc
    have hcontains := (byArrays_ends w).rawTypes_complete ⟨ht, ends_reach hends⟩ hhits hc
    obtain ⟨d, hd, hname⟩ := contains_iff_name.mp hcontains
    have hdClass : w.isClass d := (rawOf_of_mem _ hd).isClass ht
    rw [class_unique (hc.isClass ht) hdClass hname.symm]
    exact hd

theorem someRawBelow_iff {n : Nat} (hends : env.Ends n t) (ht : w.Writes t)
    (hhits : env.rawTypeHits t = 0) {target : ClassRef} :
    env.someRawBelow t target = true ↔
      ∃ c, env.RawOf t c ∧ env.isSubclass c target = true := by
  simp only [someRawBelow, List.any_eq_true, mem_rawTypes_iff hends ht hhits]

end

end Generics.Env
