import Generics.Proofs.Climb
import Generics.Proofs.Collecting
import Generics.Proofs.RawTypes

/-!
The elements of a closure: a token of a type that is not open, seen as each of
its raw ancestors. An element is of the raw class that it was looked for as;
there is one for every ancestor of a class that is neither an array nor a
primitive, as far as the walk is not cut, and for an array with a raw type for
each of the three classes above all arrays.
-/

namespace Generics

namespace Env

variable {env : Env} {t u : Ty} {c d d' : ClassRef}

/-! ## Chains of ancestors -/

/-- No chain of ancestors starts at a class and has more than `n` members. -/
def Low (env : Env) (n : Nat) (c : ClassRef) : Prop := ∀ d, ¬env.RawPath n c d

theorem not_low_zero (c : ClassRef) : ¬env.Low 0 c := fun h => h c rfl

theorem Low.above {above : ClassRef} {n : Nat} (h : env.Low (n + 1) c) (habove : above ∈ env.rawSupertypes c) :
    env.Low n above :=
  fun d hpath => h d ⟨above, habove, hpath⟩

theorem Low.succ {n : Nat} (h : env.Low n c) : env.Low (n + 1) c := by
  induction n generalizing c with
  | zero => exact absurd h (not_low_zero c)
  | succ n ih =>
      rintro d ⟨above, habove, hpath⟩
      exact ih (h.above habove) d hpath

theorem Low.mono {m n : Nat} (h : env.Low m c) (hle : m ≤ n) : env.Low n c :=
  Nat.le_induction h (fun _ _ ih => ih.succ) n hle

theorem Low.step {above : ClassRef} {n : Nat} (h : env.Low n c)
    (habove : above ∈ env.rawSupertypes c) : env.Low n above := by
  cases n with
  | zero => exact absurd h (not_low_zero c)
  | succ n => exact (h.above habove).succ

/-- A class with bounded chains of ancestors is not among its ancestors. -/
theorem Low.acyclic (hplain : env.classes.PlainEdges) {n : Nat} (h : env.Low n c)
    (hc : c.isArray = false) (m : Nat) : ¬env.RawPath (m + 1) c c := by
  induction n generalizing c with
  | zero => exact absurd h (not_low_zero c)
  | succ n ih =>
      rintro ⟨above, habove, hpath⟩
      have harray := (ClassRef.isPlain_iff.mp (rawSupertypes_plain hplain habove)).1
      exact ih (h.above habove) harray
        (hpath.trans (n := 1) harray hc hplain ⟨above, habove, rfl⟩)

/-- Chains are no longer than a rank that goes down along each declared edge. -/
theorem low_of_rank (rank : String → Nat) (hplain : env.classes.PlainEdges)
    (hrank : ∀ entry ∈ env.classes.decls.toList, ∀ e ∈ entry.2.supertypes,
      rank (env.erase e).name < rank entry.1) (hc : c.isArray = false) {n : Nat}
    (h : rank c.name < n) : env.Low n c := by
  intro d hpath
  have hdown := rank_of_rawPath hplain hrank hc hpath
  omega

/-! ## Views of types that are not open -/

theorem raw?_of_closed (hopen : env.upperBounds? t = none)
    (h : (env.erase t).isArray = false) :
    t.raw? = some (env.erase t) := by
  cases t with
  | cls c => rfl
  | param _ _ _ => rfl
  | array _ => cases h
  | wild _ _ => cases hopen
  | var _ => cases hopen

theorem exists_viewStart (hopen : env.upperBounds? t = none) :
    ∃ start, env.viewStart t = some start := by
  cases t with
  | wild _ _ => cases hopen
  | var _ => cases hopen
  | _ => exact ⟨_, rfl⟩

theorem erase_viewStart {start : Ty} (h : env.viewStart t = some start) :
    env.erase start = env.erase t := by
  cases t with
  | cls c =>
      obtain rfl := Option.some.inj h
      cases hc : c.isArray with
      | true => rfl
      | false => exact erase_of_raw? (raw?_genericForm hc)
  | param _ _ _ =>
      obtain rfl := Option.some.inj h
      rfl
  | array _ =>
      obtain rfl := Option.some.inj h
      rfl
  | wild _ _ => cases h
  | var _ => cases h

/-- A view as another class is of the class that it was looked for as. -/
theorem raw_of_viewAs (hplain : env.classes.PlainEdges) (hne : (env.erase t).name ≠ d.name)
    (h : env.viewAs t d = .found u) :
    ∃ e, u.raw? = some e ∧ e.isPlain = true ∧ e.name = d.name := by
  unfold viewAs at h
  split at h
  · rename_i hobject
    cases h
    have hname : (d.name == ClassRef.rootName) = true := (Bool.and_eq_true_iff.mp hobject).1
    exact ⟨.object, rfl, rfl, (beq_iff_eq.mp hname).symm⟩
  · split at h
    · cases h
    · rename_i start hstart
      split at h
      · rename_i hsame
        rw [erase_viewStart hstart, ClassRef.beq_iff_name] at hsame
        exact absurd hsame hne
      · obtain ⟨a, -, hgoal⟩ :=
          goal_of_search (P := fun _ => True) (fun _ _ _ _ => trivial) trivial h
        obtain ⟨edge, hedge, rfl, hname⟩ := viewStep_goal hgoal
        obtain ⟨e, he, heplain, herase⟩ := raw?_edge hplain hedge
        rw [herase, ClassRef.beq_iff_name] at hname
        exact ⟨e, raw?_instantiated he a, heplain, hname⟩

/-- No walk is cut where the steps to one raw class agree and the edges are fewer
than the steps of the walk. -/
theorem viewAs_ne_outOfSteps (hplain : env.classes.PlainEdges) (ht : t.raw? = some c)
    (hc : c.isArray = false) (hcoherent : env.Coherent (env.climbStart t))
    (hedges : env.EdgesBelow c Limits.walkSteps) (d : ClassRef) :
    env.viewAs t d ≠ .outOfSteps := by
  have hwalk : search (env.viewStep d) Limits.walkSteps (env.climbStart t) ≠ .outOfSteps :=
    walk_ne_outOfSteps hplain (raw?_climbStart ht hc) hc hcoherent hedges
  rw [viewAs, viewStart_eq_climbStart ht hc]
  split
  · exact fun h => by cases h
  · dsimp only
    split
    · exact fun h => by cases h
    · exact hwalk

theorem viewAs_congr (hd : d.isPlain = true) (hd' : d'.isPlain = true)
    (hname : d.name = d'.name) (t : Ty) : env.viewAs t d = env.viewAs t d' := by
  have hobject : d.isObject = d'.isObject := by
    rw [ClassRef.isObject, ClassRef.isObject, hname]
  have hbeq : ∀ c : ClassRef, (c == d) = (c == d') := by
    intro c
    apply Bool.eq_iff_iff.mpr
    rw [ClassRef.beq_iff_name, ClassRef.beq_iff_name, hname]
  simp only [viewAs, hobject, hbeq, viewStep_congr hd hd' hname]

theorem someRawBelow_congr (hd : d.isPlain = true) (hd' : d'.isPlain = true)
    (hname : d.name = d'.name) (t : Ty) :
    env.someRawBelow t d = env.someRawBelow t d' := by
  simp only [someRawBelow, isSubclass_congr hd hd' hname]

/-- An ancestor of a type is found when the walk is not cut. -/
theorem supertype_closed_iff (hopen : env.upperBounds? t = none) (hd : d.isArray = false) :
    env.supertype t d = .ok u ↔
      env.someRawBelow t d = true ∧ env.viewAs t d = .found u := by
  rw [supertype_of_closed hopen hd]
  cases env.someRawBelow t d with
  | false => simp
  | true => cases env.viewAs t d <;> simp [Outcome.get?]

/-! ## Ancestors that are found -/

/-- No walk from a type to an ancestor of its class is cut. -/
def Uncut (env : Env) (t : Ty) : Prop :=
  ∀ n d, d.isPlain = true → env.RawPath n (env.erase t) d → env.someRawBelow t d = true →
    env.viewAs t d ≠ .outOfSteps

/-- A class that is neither an array nor a primitive is below its ancestors. -/
theorem isSubclass_of_rawPath (hplain : env.classes.PlainEdges) (hc : c.isPlain = true)
    (hd : d.isPlain = true) {n : Nat} (hpath : env.RawPath n c d) :
    env.isSubclass c d = true := by
  cases hobject : d.isObject with
  | true =>
      exact isSubclass_object (ClassRef.isPlain_iff.mp hc).2 (ClassRef.isPlain_iff.mp hd).2 hobject
  | false => exact (isSubclass_iff_rawPath hplain hc hd hobject).mpr ⟨n, hpath⟩

theorem viewAs_of_rawPath (hplain : env.classes.PlainEdges) (ht : t.raw? = some c)
    (hc : c.isPlain = true) (hd : d.isPlain = true) {n : Nat} (hpath : env.RawPath n c d)
    (hwalk : env.viewAs t d ≠ .outOfSteps) : ∃ u, env.viewAs t d = .found u := by
  obtain ⟨harray, hprimitive⟩ := ClassRef.isPlain_iff.mp hc
  have hdarray := (ClassRef.isPlain_iff.mp hd).1
  cases hobject : d.isObject with
  | true =>
      have ht' : t.isPrimitive = false := by
        cases t with
        | cls e =>
            obtain rfl := Option.some.inj ht
            exact hprimitive
        | _ => rfl
      exact ⟨.object, by simp [viewAs, hobject, ht']⟩
  | false =>
      obtain ⟨u, e, hclimb, he, hname⟩ :=
        climb_of_rawPath hplain hpath (raw?_climbStart ht harray)
      obtain ⟨view, hview⟩ := view_of_climb hplain ht harray hdarray hobject
        (isSubclass_of_rawPath hplain hc hd hpath) hclimb (by
          rw [erase_of_raw? he]
          exact ClassRef.beq_iff_name.mpr hname)
      have hstart : ∀ start ∈ env.viewStart t, HasRaw start := by
        intro start hstart
        rw [viewStart_eq_climbStart ht harray] at hstart
        cases hstart
        exact ⟨c, raw?_climbStart ht harray, harray⟩
      rcases viewAs_of_view (viewStep_hasRaw (rawEdges_of_plain hplain) d) hstart hview with hfound | hout
      · exact ⟨view, hfound⟩
      · exact absurd hout hwalk

theorem isArray_of_rawOf (hopen : env.upperBounds? t = none)
    (harray : (env.erase t).isArray = true) (h : env.RawOf t c) : c.isArray = true := by
  cases h with
  | raw hraw =>
      have herase : env.erase t = c := erase_of_raw? hraw
      rw [← herase]
      exact harray
  | array _ => rfl
  | bound hopen' _ _ => cases hopen.symm.trans hopen'

/-- An array is seen as each of the classes above all arrays, in one step at most. -/
theorem viewAs_arrayTop (hopen : env.upperBounds? t = none)
    (harray : (env.erase t).isArray = true) (hd : d ∈ arrayTops)
    (hne : (env.erase t).name ≠ d.name) : ∃ u, env.viewAs t d = .found u := by
  obtain ⟨start, hstart⟩ := exists_viewStart hopen
  have herase := erase_viewStart hstart
  obtain ⟨u, hu⟩ : ∃ u, env.viewStep d start = .goal u :=
    viewStep_arrayTop (by rw [herase]; exact harray) hd
  have hnestart : (env.erase start == d) = false := by
    rw [herase, ← Bool.not_eq_true, ClassRef.beq_iff_name]
    exact hne
  simp only [viewAs, hstart, hnestart, Bool.false_eq_true, if_false]
  split
  · exact ⟨_, rfl⟩
  · exact ⟨u, search_of_goal 9999 hu⟩

/-- No walk from an array class is cut. -/
theorem uncut_arrayClass (hc : c.isArray = true) : env.Uncut (.cls c) := by
  intro n d hd _ hbelow
  by_cases hname : c.name = d.name
  · have hsame : (env.erase (.cls c) == d) = true := ClassRef.beq_iff_name.mpr hname
    simp only [viewAs, viewStart, hc, if_true, hsame]
    split <;> exact fun h => by cases h
  · have hsub : env.isSubclass c d = true := by
      rw [someRawBelow, rawTypes_of_raw? (c := c) rfl, List.any_cons, List.any_nil,
        Bool.or_false] at hbelow
      exact hbelow
    obtain ⟨top, htop, htopName⟩ :=
      exists_arrayTop hc (ClassRef.isPlain_iff.mp hd).1 hname hsub
    have htopPlain : top.isPlain = true := by
      simp only [List.mem_cons, List.not_mem_nil, or_false] at htop
      rcases htop with rfl | rfl | rfl <;> rfl
    obtain ⟨u, hu⟩ := viewAs_arrayTop (t := .cls c) rfl hc htop
      (fun h => hname (h.trans htopName))
    rw [viewAs_congr hd htopPlain htopName.symm, hu]
    exact fun h => by cases h

theorem someRawBelow_arrayTop (hopen : env.upperBounds? t = none)
    (harray : (env.erase t).isArray = true) (hraws : env.rawTypes t ≠ []) (hd : d ∈ arrayTops) :
    env.someRawBelow t d = true := by
  obtain ⟨c, hc⟩ := List.exists_mem_of_ne_nil _ hraws
  exact List.any_eq_true.mpr
    ⟨c, hc, isSubclass_arrayTop (isArray_of_rawOf hopen harray (rawOf_of_mem _ hc)) hd⟩

end Env

namespace Token

open Env

variable {env : Env} {origin e : Token} {c d d' : ClassRef}

theorem elementAt?_of_name (h : (origin.rawType env).name = d.name) :
    origin.elementAt? env d = some origin := by
  rw [elementAt?, if_pos (ClassRef.beq_iff_name.mpr h)]

theorem elementAt?_iff (hne : (origin.rawType env).name ≠ d.name) :
    origin.elementAt? env d = some e ↔ origin.supertype env d = .ok e := by
  rw [elementAt?, if_neg fun h => hne (ClassRef.beq_iff_name.mp h)]
  cases origin.supertype env d <;> simp [Except.toOption]

section

variable (hopen : env.upperBounds? origin.type = none)

include hopen

/-- Handles of one name have one element. -/
theorem elementAt?_congr (hd : d.isPlain = true) (hd' : d'.isPlain = true)
    (hname : d.name = d'.name) : origin.elementAt? env d = origin.elementAt? env d' := by
  by_cases hsame : (origin.rawType env).name = d.name
  · rw [elementAt?_of_name hsame, elementAt?_of_name (hsame.trans hname)]
  · have hsame' : (origin.rawType env).name ≠ d'.name := hname ▸ hsame
    apply Option.ext
    intro e
    rw [elementAt?_iff hsame, elementAt?_iff hsame', supertype_iff, supertype_iff]
    simp only [supertype_closed_iff hopen (ClassRef.isPlain_iff.mp hd).1,
      supertype_closed_iff hopen (ClassRef.isPlain_iff.mp hd').1,
      viewAs_congr hd hd' hname, someRawBelow_congr hd hd' hname]

/-- An element of another class than the token is of the class that it was
looked for as. -/
theorem raw_of_elementAt? (hplain : env.classes.PlainEdges) (hd : d.isArray = false)
    (hne : (origin.rawType env).name ≠ d.name) (h : origin.elementAt? env d = some e) :
    ∃ r, e.type.raw? = some r ∧ r.isPlain = true ∧ r.name = d.name := by
  obtain ⟨u, hu, rfl⟩ := supertype_iff.mp ((elementAt?_iff hne).mp h)
  exact raw_of_viewAs hplain hne ((supertype_closed_iff hopen hd).mp hu).2

theorem exists_elementAt? (hd : d.isArray = false) (hbelow : env.someRawBelow origin.type d = true)
    (hview : ∃ u, env.viewAs origin.type d = .found u) :
    ∃ e, origin.elementAt? env d = some e := by
  by_cases hne : (origin.rawType env).name = d.name
  · exact ⟨origin, elementAt?_of_name hne⟩
  · obtain ⟨u, hu⟩ := hview
    exact ⟨origin.derive u, (elementAt?_iff hne).mpr
      (supertype_iff.mpr ⟨u, (supertype_closed_iff hopen hd).mpr ⟨hbelow, hu⟩, rfl⟩)⟩

/-- Every ancestor of a class that is neither an array nor a primitive has an
element, unless the walk to it is cut. -/
theorem elementAt?_of_rawPath (hplain : env.classes.PlainEdges)
    (hc : (origin.rawType env).isPlain = true) (hd : d.isPlain = true) {n : Nat}
    (hpath : env.RawPath n (origin.rawType env) d) (huncut : env.Uncut origin.type) :
    ∃ e, origin.elementAt? env d = some e := by
  have hraw := raw?_of_closed hopen (ClassRef.isPlain_iff.mp hc).1
  have hbelow : env.someRawBelow origin.type d = true := by
    rw [someRawBelow, rawTypes_of_raw? hraw, List.any_cons,
      show env.isSubclass (env.erase origin.type) d = true from
        isSubclass_of_rawPath hplain hc hd hpath]
    rfl
  exact exists_elementAt? hopen (ClassRef.isPlain_iff.mp hd).1 hbelow
    (viewAs_of_rawPath hplain hraw hc hd hpath (huncut n d hd hpath hbelow))

/-- An array with a raw type has an element for each class above all arrays. -/
theorem elementAt?_arrayTop (harray : (origin.rawType env).isArray = true)
    (hraws : env.rawTypes origin.type ≠ []) (hd : d ∈ arrayTops) :
    ∃ e, origin.elementAt? env d = some e := by
  by_cases hne : (origin.rawType env).name = d.name
  · exact ⟨origin, elementAt?_of_name hne⟩
  · have hdarray : d.isArray = false := by
      simp only [List.mem_cons, List.not_mem_nil, or_false] at hd
      rcases hd with rfl | rfl | rfl <;> rfl
    exact exists_elementAt? hopen hdarray (someRawBelow_arrayTop hopen harray hraws hd)
      (viewAs_arrayTop hopen harray hd hne)

end

end Token

end Generics
