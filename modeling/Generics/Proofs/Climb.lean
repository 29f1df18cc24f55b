import Generics.Proofs.Ancestry
import Generics.Proofs.View
import Generics.Token.Navigation

/-!
Supertypes by steps. A step takes a declared edge of the raw class of a type
and puts the arguments in; above a raw use it takes the bare class. The walk
for a supertype leaves aside edges that do not lead to the target and types
that were seen; what it finds is still reached by a shortest sequence of
steps, and where types of one raw class are equal it finds every ancestor.
-/

namespace Generics

namespace Env

variable {env : Env}

/-- A sequence of `n` steps. -/
def Climb (env : Env) : Nat → Ty → Ty → Prop
  | 0, t, u => t = u
  | n + 1, t, u => ∃ edge ∈ env.classes.directSupertypes (env.erase t),
      env.Climb n (env.instantiated t edge) u

/-- Where the steps start: a class stands for its generic form. -/
def climbStart (env : Env) : Ty → Ty
  | .cls c => env.classes.genericForm c
  | t => t

section

variable {t u : Ty} {c target : ClassRef}

theorem raw?_genericForm (hc : c.isArray = false) :
    (env.classes.genericForm c).raw? = some c := by
  rcases Registry.formWithin_raw env.classes (env.classes.formSteps env.classes.size) hc
    with h | ⟨owner, h⟩
  · exact congrArg Ty.raw? h
  · exact congrArg Ty.raw? h

theorem raw?_climbStart (ht : t.raw? = some c) (hc : c.isArray = false) :
    (env.climbStart t).raw? = some c := by
  cases t with
  | cls d =>
      obtain rfl := Option.some.inj ht
      exact raw?_genericForm hc
  | _ => exact ht

theorem viewStart_eq_climbStart (ht : t.raw? = some c) (hc : c.isArray = false) :
    env.viewStart t = some (env.climbStart t) := by
  cases t with
  | cls d =>
      obtain rfl := Option.some.inj ht
      simp [viewStart, climbStart, hc]
  | param owner raw args => rfl
  | _ => cases ht

/-- The raw class of an instantiated edge is that of the edge. -/
theorem raw?_instantiated {edge : Ty} {d : ClassRef} (h : edge.raw? = some d) (t : Ty) :
    (env.instantiated t edge).raw? = some d := by
  have herase : env.erase edge = d := erase_of_raw? h
  unfold instantiated
  split
  · rw [herase]
    rfl
  · cases edge with
    | cls e => exact h
    | param owner raw args =>
        rw [Ty.subst_param]
        exact h
    | _ => cases h

theorem Climb.trans {m n : Nat} {s t u : Ty} (hst : env.Climb m s t) (htu : env.Climb n t u) :
    env.Climb (m + n) s u := by
  induction m generalizing s with
  | zero =>
      obtain rfl : s = t := hst
      rw [Nat.zero_add]
      exact htu
  | succ m ih =>
      obtain ⟨edge, hedge, hrest⟩ := hst
      rw [Nat.succ_add]
      exact ⟨edge, hedge, ih hrest⟩

/-- What every step preserves, every sequence of steps preserves. -/
theorem Climb.preserves {P : Ty → Prop}
    (hstep : ∀ t, P t → ∀ edge ∈ env.classes.directSupertypes (env.erase t),
      P (env.instantiated t edge))
    {n : Nat} (h : env.Climb n t u) (ht : P t) : P u := by
  induction n generalizing t with
  | zero =>
      obtain rfl : t = u := h
      exact ht
  | succ n ih =>
      obtain ⟨edge, hedge, hrest⟩ := h
      exact ih hrest (hstep t ht edge hedge)

end

/-! ## Plain edges -/

/-- Types of classes that are no arrays. -/
def HasRaw (t : Ty) : Prop := ∃ c, t.raw? = some c ∧ c.isArray = false

section

variable {t u : Ty} {c target : ClassRef}

theorem raw?_edge (hplain : env.classes.PlainEdges) {edge : Ty}
    (hedge : edge ∈ env.classes.directSupertypes c) :
    ∃ d, edge.raw? = some d ∧ d.isPlain = true ∧ env.erase edge = d := by
  obtain ⟨d, hd, hflag⟩ :=
    Ty.isPlain_iff.mp (Registry.directSupertypes_plain hplain c edge hedge)
  exact ⟨d, hd, hflag, erase_of_raw? hd⟩

theorem hasRaw_edge (hplain : env.classes.PlainEdges) {edge : Ty}
    (hedge : edge ∈ env.classes.directSupertypes c) : HasRaw edge := by
  obtain ⟨d, hd, hdplain, -⟩ := raw?_edge hplain hedge
  exact ⟨d, hd, (ClassRef.isPlain_iff.mp hdplain).1⟩

/-- The edges lead to types of classes that are no arrays. -/
def RawEdges (env : Env) : Prop := ∀ c, ∀ e ∈ env.classes.directSupertypes c, HasRaw e

theorem rawEdges_of_plain (hplain : env.classes.PlainEdges) : env.RawEdges :=
  fun _ _ => hasRaw_edge hplain

/-- Steps follow the raw edges. -/
theorem Climb.rawPath (hplain : env.classes.PlainEdges) {n : Nat} (h : env.Climb n t u)
    (ht : t.raw? = some c) : ∃ d, u.raw? = some d ∧ env.RawPath n c d := by
  induction n generalizing t c with
  | zero =>
      obtain rfl : t = u := h
      exact ⟨c, ht, rfl⟩
  | succ n ih =>
      obtain ⟨edge, hedge, hrest⟩ := h
      rw [erase_of_raw? ht] at hedge
      obtain ⟨above, habove, -, herase⟩ := raw?_edge hplain hedge
      obtain ⟨d, hd, hpath⟩ := ih hrest (raw?_instantiated habove t)
      refine ⟨d, hd, above, ?_, hpath⟩
      exact List.mem_map.mpr ⟨edge, hedge, herase⟩

/-- Raw edges are followed by steps. -/
theorem climb_of_rawPath (hplain : env.classes.PlainEdges) {n : Nat} {d : ClassRef}
    (h : env.RawPath n c d) (ht : t.raw? = some c) :
    ∃ u e, env.Climb n t u ∧ u.raw? = some e ∧ e.name = d.name := by
  induction n generalizing t c with
  | zero => exact ⟨t, c, rfl, ht, h⟩
  | succ n ih =>
      obtain ⟨above, habove, hpath⟩ := h
      obtain ⟨edge, hedge, rfl⟩ := List.mem_map.mp habove
      obtain ⟨d', hd', -, herase⟩ := raw?_edge hplain hedge
      rw [herase] at hpath
      obtain ⟨u, e, hclimb, he, hname⟩ := ih hpath (raw?_instantiated hd' t)
      refine ⟨u, e, ⟨edge, ?_, hclimb⟩, he, hname⟩
      rw [erase_of_raw? ht]
      exact hedge

theorem climb_of_firstAt (hplain : env.classes.PlainEdges) {n : Nat}
    (h : firstAt (env.viewStep target) n t = some u) :
    env.Climb (n + 1) t u ∧ (env.erase u == target) = true := by
  induction n generalizing t with
  | zero =>
      simp only [firstAt] at h
      cases hstep : env.viewStep target t with
      | goal v =>
          obtain rfl : v = u := by simpa [hstep, Expansion.goal?] using h
          obtain ⟨edge, hedge, rfl, htarget⟩ := viewStep_goal hstep
          obtain ⟨d, hd, -, herase⟩ := raw?_edge hplain hedge
          refine ⟨⟨edge, hedge, rfl⟩, ?_⟩
          rw [erase_of_raw? (raw?_instantiated hd t), ← herase]
          exact htarget
      | next more => simp [hstep, Expansion.goal?] at h
  | succ n ih =>
      obtain ⟨t', hmem, hfirst⟩ := List.exists_of_findSome?_eq_some h
      obtain ⟨edge, hedge, rfl, -⟩ := viewStep_nodes hmem
      obtain ⟨hclimb, htarget⟩ := ih hfirst
      exact ⟨⟨edge, hedge, hclimb⟩, htarget⟩

/-- An edge that leads to the target by steps is below it. -/
theorem isSubclass_of_climb (hplain : env.classes.PlainEdges) (htarget : target.isPlain = true)
    (hobject : target.isObject = false) {edge : Ty}
    (hedge : edge ∈ env.classes.directSupertypes c) {m : Nat}
    (h : env.Climb m (env.instantiated t edge) u) (hu : (env.erase u == target) = true) :
    env.isSubclass (env.erase edge) target = true := by
  obtain ⟨d, hd, hdplain, herase⟩ := raw?_edge hplain hedge
  obtain ⟨e, he, hpath⟩ := h.rawPath hplain (raw?_instantiated hd t)
  rw [erase_of_raw? he] at hu
  rw [herase, isSubclass_iff_rawPath hplain hdplain htarget hobject]
  exact ⟨m, hpath.target (ClassRef.beq_iff_name.mp hu)⟩

/-- The walk leaves no edge aside that leads to the target, so it has a goal on
a level no farther than any sequence of steps. -/
theorem firstAt_of_climb (hplain : env.classes.PlainEdges) (htarget : target.isPlain = true)
    (hobject : target.isObject = false) {m : Nat} (h : env.Climb (m + 1) t u)
    (hu : (env.erase u == target) = true) :
    ∃ k ≤ m, ∃ v, firstAt (env.viewStep target) k t = some v := by
  induction m generalizing t with
  | zero =>
      obtain ⟨edge, hedge, hrest⟩ := h
      have hsub := isSubclass_of_climb hplain htarget hobject hedge hrest hu
      obtain ⟨d, hd, -, herase⟩ := raw?_edge hplain hedge
      have hedgeTarget : (env.erase edge == target) = true := by
        obtain rfl : env.instantiated t edge = u := hrest
        rw [erase_of_raw? (raw?_instantiated hd t), ← herase] at hu
        exact hu
      obtain ⟨v, hgoal⟩ := viewStep_reaches hedge hsub hedgeTarget
      exact ⟨0, le_refl 0, v, by simp [firstAt, hgoal, Expansion.goal?]⟩
  | succ m ih =>
      obtain ⟨edge, hedge, hrest⟩ := h
      have hsub := isSubclass_of_climb hplain htarget hobject hedge hrest hu
      rcases viewStep_of_edge hedge hsub with ⟨v, hgoal⟩ | hnode
      · exact ⟨0, Nat.zero_le _, v, by simp [firstAt, hgoal, Expansion.goal?]⟩
      · obtain ⟨k, hk, v, hfirst⟩ := ih hrest
        have hsome : ((env.viewStep target t).nodes.findSome?
            (firstAt (env.viewStep target) k)).isSome = true :=
          List.findSome?_isSome_iff.mpr ⟨_, hnode, by simp [hfirst]⟩
        obtain ⟨v', hv'⟩ := Option.isSome_iff_exists.mp hsome
        exact ⟨k + 1, Nat.succ_le_succ hk, v', hv'⟩

/-! ## The walk -/

/-- Types of one raw class that is no array, which have the same raw edges. -/
def OfOneRaw (s t : Ty) : Prop :=
  ∃ c d, s.raw? = some c ∧ t.raw? = some d ∧ c.isArray = false ∧ d.isArray = false ∧
    c.name = d.name

theorem viewStep_ofOneRaw (hraw : env.RawEdges) (target : ClassRef) {s t : Ty}
    (h : OfOneRaw s t) :
    (env.viewStep target s).Related OfOneRaw OfOneRaw (env.viewStep target t) := by
  obtain ⟨c, d, hs, ht, hc, hd, hname⟩ := h
  apply viewStep_related
  apply instantiatedEdges_related
  · rw [erase_of_raw? hs, erase_of_raw? ht, Registry.directSupertypes_of_name hc hd hname]
  · intro edge hedge
    obtain ⟨e, he, harray⟩ := hraw _ edge hedge
    exact ⟨e, e, raw?_instantiated he s, raw?_instantiated he t, harray, harray, rfl⟩

theorem raw?_of_same {s t : Ty} (h : Ty.Same s t) (hs : s.raw? = some c) :
    ∃ d, t.raw? = some d ∧ c.name = d.name := by
  cases s with
  | cls _ =>
      obtain ⟨d, rfl, hname⟩ := Ty.same_cls.mp h
      obtain rfl := Option.some.inj hs
      exact ⟨d, rfl, hname⟩
  | param _ _ _ =>
      obtain ⟨_, d, _, rfl, hname, -⟩ := Ty.same_param.mp h
      obtain rfl := Option.some.inj hs
      exact ⟨d, rfl, hname⟩
  | _ => cases hs

theorem Climb.hasRaw (hplain : env.classes.PlainEdges) {n : Nat} (h : env.Climb n t u)
    (ht : HasRaw t) : HasRaw u := by
  refine h.preserves ?_ ht
  intro s _ edge hedge
  obtain ⟨d, hd, hdplain, -⟩ := raw?_edge hplain hedge
  exact ⟨d, raw?_instantiated hd s, (ClassRef.isPlain_iff.mp hdplain).1⟩

theorem viewStep_hasRaw (hraw : env.RawEdges) (target : ClassRef) :
    Faithful (env.viewStep target) HasRaw where
  nodes := by
    intro t _ u hu
    obtain ⟨edge, hedge, rfl, -⟩ := viewStep_nodes hu
    obtain ⟨d, hd, harray⟩ := hraw _ edge hedge
    exact ⟨d, raw?_instantiated hd t, harray⟩
  equal := by
    intro t s ⟨c, hc, hcarray⟩ ⟨d, hd, hdarray⟩ hsame n hnone
    obtain ⟨d', hd', hname⟩ := raw?_of_same hsame hc
    obtain rfl := Option.some.inj (hd.symm.trans hd')
    have hlevel := firstAt_related (fun _ _ => viewStep_ofOneRaw hraw target) n
      (show OfOneRaw t s from ⟨c, d, hc, hd, hcarray, hdarray, hname⟩)
    rw [hnone] at hlevel
    generalize firstAt (env.viewStep target) n t = o at hlevel
    cases hlevel
    rfl

/-! ## Views -/

/-- What the walk finds is a view. -/
theorem view_of_raw? (hraw : env.RawEdges) (ht : t.raw? = some c)
    (hc : c.isArray = false) (h : env.viewAs t target = .found u) : env.View t target u := by
  apply view_of_viewAs (viewStep_hasRaw hraw target) _ h
  intro start hstart
  rw [viewStart_eq_climbStart ht hc] at hstart
  cases hstart
  exact ⟨c, raw?_climbStart ht hc, hc⟩

/-- A view is reached by steps. -/
theorem climb_of_view (hplain : env.classes.PlainEdges) (ht : t.raw? = some c)
    (hc : c.isArray = false) (hobject : target.isObject = false) (h : env.View t target u) :
    ∃ n, env.Climb n (env.climbStart t) u ∧ (env.erase u == target) = true := by
  have hviewStart : env.viewStart t = some (env.climbStart t) := viewStart_eq_climbStart ht hc
  cases h with
  | object h => simp [hobject] at h
  | start _ hstart hsame =>
      obtain rfl := Option.some.inj (hviewStart.symm.trans hstart)
      exact ⟨0, rfl, hsame⟩
  | walk _ hstart _ hnearest =>
      obtain rfl := Option.some.inj (hviewStart.symm.trans hstart)
      obtain ⟨n, hfirst, -⟩ := hnearest
      exact ⟨n + 1, climb_of_firstAt hplain hfirst⟩

/-- What is reached by steps has a view, as long as ancestry is respected. -/
theorem view_of_climb (hplain : env.classes.PlainEdges) (ht : t.raw? = some c)
    (hc : c.isArray = false) (htarget : target.isArray = false)
    (hobject : target.isObject = false) (hsub : env.isSubclass c target = true) {n : Nat}
    (h : env.Climb n (env.climbStart t) u) (hu : (env.erase u == target) = true) :
    ∃ view, env.View t target view := by
  have hviewStart : env.viewStart t = some (env.climbStart t) := viewStart_eq_climbStart ht hc
  have herase : env.erase (env.climbStart t) = c := erase_of_raw? (raw?_climbStart ht hc)
  have hshortcut : (target.isObject && !t.isPrimitive) = false := by rw [hobject]; rfl
  by_cases hname : (c == target) = true
  · exact ⟨_, .start hshortcut hviewStart (by rw [herase]; exact hname)⟩
  · have hne : (env.erase (env.climbStart t) == target) = false := by
      rw [herase]
      exact (Bool.not_eq_true _).mp hname
    cases n with
    | zero =>
        obtain rfl : env.climbStart t = u := h
        rw [hne] at hu
        cases hu
    | succ n =>
        have hprimitive := (isPrimitive_of_isSubclass hsub
          (fun h => hname (ClassRef.beq_iff_name.mpr h))).2
        obtain ⟨k, -, v, hfirst⟩ := firstAt_of_climb hplain
          (ClassRef.isPlain_iff.mpr ⟨htarget, hprimitive⟩) hobject h hu
        obtain ⟨v', hnearest⟩ := exists_nearest hfirst
        exact ⟨v', .walk hshortcut hviewStart hne hnearest⟩

/-! ## Navigation -/

/-- A type of a class has this class as its only raw class. -/
theorem rawTypes_of_raw? (ht : t.raw? = some c) : env.rawTypes t = [c] := by
  cases t with
  | cls d =>
      obtain rfl := Option.some.inj ht
      rfl
  | param owner d args =>
      obtain rfl := Option.some.inj ht
      rfl
  | _ => cases ht

/-- Navigation from a type that is not open to a class is one walk. -/
theorem supertype_of_closed (hopen : env.upperBounds? t = none) (htarget : target.isArray = false) :
    env.supertype t target =
      if env.someRawBelow t target then
        match (env.viewAs t target).get? with
        | some view => .ok view
        | none => .error (.notASupertype t target)
      else .error (.notASupertype t target) := by
  have hsteps : (target.dimensions + 1) * (env.reach t + 1) =
      (target.dimensions + 1) * env.reach t + target.dimensions + 1 := by ring
  have hcomponent : target.component? = none := by
    obtain ⟨name, kind, rfl⟩ := ClassRef.exists_named htarget
    rfl
  rw [supertype, hsteps]
  simp only [supertypeWithin, hopen, hcomponent]
  cases env.someRawBelow t target <;> rfl

theorem supertype_of_raw? (ht : t.raw? = some c) (htarget : target.isArray = false) :
    env.supertype t target =
      if env.isSubclass c target then
        match (env.viewAs t target).get? with
        | some view => .ok view
        | none => .error (.notASupertype t target)
      else .error (.notASupertype t target) := by
  have hbelow : env.someRawBelow t target = env.isSubclass c target := by
    simp [someRawBelow, rawTypes_of_raw? ht]
  rw [supertype_of_closed (upperBounds?_of_raw? ht) htarget, hbelow]

theorem supertype_array (ht : t.raw? = some c) (hc : c.isArray = false)
    (htarget : target.isArray = true) :
    env.supertype t target = .error (.notASupertype t target) := by
  have hsteps : (target.dimensions + 1) * (env.reach t + 1) =
      (target.dimensions + 1) * env.reach t + target.dimensions + 1 := by ring
  have hcomponent : t.component? = none := by
    obtain ⟨name, kind, rfl⟩ := ClassRef.exists_named hc
    cases t with
    | cls d =>
        obtain rfl := Option.some.inj ht
        rfl
    | param _ _ _ => rfl
    | _ => cases ht
  have hopen : env.upperBounds? t = none := upperBounds?_of_raw? ht
  cases target with
  | named _ _ => cases htarget
  | array name component =>
      rw [supertype, hsteps]
      simp only [supertypeWithin, hopen, hcomponent, ClassRef.component?]
      split <;> rfl

/-- What is found above a type of a class is a view. -/
theorem viewAs_of_supertype (ht : t.raw? = some c) (hc : c.isArray = false)
    (h : env.supertype t target = .ok u) :
    target.isArray = false ∧ env.isSubclass c target = true ∧
      env.viewAs t target = .found u := by
  cases harray : target.isArray with
  | true =>
      rw [supertype_array ht hc harray] at h
      cases h
  | false =>
      rw [supertype_of_raw? ht harray] at h
      split at h
      · rename_i hsub
        refine ⟨rfl, hsub, ?_⟩
        cases hview : env.viewAs t target with
        | found view =>
            rw [hview] at h
            cases h
            rfl
        | missing =>
            rw [hview] at h
            cases h
        | outOfSteps =>
            rw [hview] at h
            cases h
      · cases h

/-- No sequence of steps leads to the target in fewer steps. -/
def Shortest (env : Env) (start u : Ty) (target : ClassRef) : Prop :=
  ∃ n, env.Climb n start u ∧
    ∀ m v, env.Climb m start v → (env.erase v == target) = true → n ≤ m

/-- The supertype that is found has the target as its raw class, at the end of
a shortest sequence of steps. -/
theorem shortest_of_supertype (hplain : env.classes.PlainEdges) (ht : t.raw? = some c)
    (hc : c.isArray = false) (htarget : target.isArray = false)
    (hobject : target.isObject = false) (h : env.supertype t target = .ok u) :
    (env.erase u == target) = true ∧ env.Shortest (env.climbStart t) u target := by
  obtain ⟨-, hsub, hfound⟩ := viewAs_of_supertype ht hc h
  have hstart : env.viewStart t = some (env.climbStart t) := viewStart_eq_climbStart ht hc
  have herase : env.erase (env.climbStart t) = c := erase_of_raw? (raw?_climbStart ht hc)
  cases view_of_raw? (rawEdges_of_plain hplain) ht hc hfound with
  | object hshortcut => simp [hobject] at hshortcut
  | start _ hs hsame =>
      obtain rfl := Option.some.inj (hstart.symm.trans hs)
      exact ⟨hsame, 0, rfl, fun _ _ _ _ => Nat.zero_le _⟩
  | walk _ hs hne hnearest =>
      obtain rfl := Option.some.inj (hstart.symm.trans hs)
      obtain ⟨n, hfirst, hfree⟩ := hnearest
      obtain ⟨hclimb, htargetRaw⟩ := climb_of_firstAt hplain hfirst
      refine ⟨htargetRaw, n + 1, hclimb, ?_⟩
      intro m v hv hvraw
      cases m with
      | zero =>
          obtain rfl : env.climbStart t = v := hv
          rw [hne] at hvraw
          cases hvraw
      | succ m =>
          have hname : c.name ≠ target.name := by
            intro hname
            rw [herase, ClassRef.beq_iff_name.mpr hname] at hne
            cases hne
          have htargetPlain : target.isPlain = true :=
            ClassRef.isPlain_iff.mpr ⟨htarget, (isPrimitive_of_isSubclass hsub hname).2⟩
          obtain ⟨k, hk, v', hfirst'⟩ :=
            firstAt_of_climb hplain htargetPlain hobject hv hvraw
          by_contra hlt
          rw [hfree k (by omega)] at hfirst'
          cases hfirst'

/-- The number of edges of the classes that a class leads to is below a bound. -/
def EdgesBelow (env : Env) (c : ClassRef) (bound : Nat) : Prop :=
  ∀ cs : List ClassRef, (∀ d ∈ cs, d.isArray = false ∧ ∃ n, env.RawPath n c d) →
    (cs.map ClassRef.name).Nodup →
    (cs.map fun d => (env.classes.directSupertypes d).length).sum < bound

/-- All sequences of steps that end in one raw class end in equal types. -/
def Coherent (env : Env) (start : Ty) : Prop :=
  ∀ m n u v, env.Climb m start u → env.Climb n start v →
    (env.erase u == env.erase v) = true → (u == v) = true

theorem edgesBelow_of_edgeBound {bound : Nat} (h : env.classes.edgeBound < bound) :
    env.EdgesBelow c bound := by
  intro cs hcs hnames
  have hsum : (cs.map fun d => (env.classes.directSupertypes d).length).sum ≤
      env.classes.edgeBound :=
    Registry.sum_edges_le (fun d hd => (hcs d hd).1) hnames
  exact lt_of_le_of_lt hsum h

/-- The steps agree when they stay among types of different classes. -/
theorem coherent_of_closed {P : Ty → Prop} (ht : P t)
    (hstep : ∀ t, P t → ∀ edge ∈ env.classes.directSupertypes (env.erase t),
      P (env.instantiated t edge))
    (hraw : ∀ u v, P u → P v → (env.erase u == env.erase v) = true → (u == v) = true) :
    env.Coherent t := by
  intro m n u v hu hv
  exact hraw u v (hu.preserves hstep ht) (hv.preserves hstep ht)

/-- The walk has steps enough. -/
theorem walk_ne_outOfSteps (hplain : env.classes.PlainEdges) (ht : t.raw? = some c)
    (hc : c.isArray = false) (hcoherent : env.Coherent t)
    (hedges : env.EdgesBelow c Limits.walkSteps) :
    search (env.viewStep target) Limits.walkSteps t ≠ .outOfSteps := by
  have hreached : ∀ {a : Ty}, (∃ n, env.Climb n t a) →
      ∀ a' ∈ (env.viewStep target a).nodes, ∃ n, env.Climb n t a' := by
    intro a ⟨n, ha⟩ a' ha'
    obtain ⟨edge, hedge, rfl, -⟩ := viewStep_nodes ha'
    exact ⟨n + 1, ha.trans ⟨edge, hedge, rfl⟩⟩
  apply search_ne_outOfSteps hreached ?_ ⟨0, rfl⟩
  intro seen hseen hdistinct
  have hraw : ∀ a ∈ seen, (env.erase a).isArray = false ∧ ∃ n, env.RawPath n c (env.erase a) := by
    intro a ha
    obtain ⟨n, hclimb⟩ := hseen a ha
    obtain ⟨d, hd, hpath⟩ := hclimb.rawPath hplain ht
    obtain ⟨d', hd', harray⟩ := hclimb.hasRaw hplain ⟨c, ht, hc⟩
    obtain rfl := Option.some.inj (hd.symm.trans hd')
    rw [erase_of_raw? hd]
    exact ⟨harray, n, hpath⟩
  have hnames : ((seen.map env.erase).map ClassRef.name).Nodup := by
    rw [List.Nodup, List.pairwise_map, List.pairwise_map]
    refine hdistinct.imp_of_mem ?_
    intro a b ha hb hne hname
    obtain ⟨m, hm⟩ := hseen a ha
    obtain ⟨n, hn⟩ := hseen b hb
    exact hne (hcoherent m n a b hm hn (ClassRef.beq_iff_name.mpr hname))
  have hpushed : (seen.map fun a => (env.viewStep target a).nodes.length).sum ≤
      (seen.map fun a => (env.classes.directSupertypes (env.erase a)).length).sum := by
    apply List.sum_le_sum
    intro a _
    simp only [viewStep]
    split
    · exact Nat.zero_le _
    · simp only [Expansion.nodes, List.length_map]
      refine (List.length_filter_le _ _).trans ?_
      rw [instantiatedEdges_eq, List.length_map]
  have hsum := hedges (seen.map env.erase) ?_ hnames
  · rw [List.map_map] at hsum
    exact lt_of_le_of_lt hpushed hsum
  · intro d hd
    obtain ⟨a, ha, rfl⟩ := List.mem_map.mp hd
    exact hraw a ha

/-- An ancestor that no primitive is compared with is found, when the steps to
one raw class agree and the edges are fewer than the steps of the walk. -/
theorem supertype_of_rawPath (hplain : env.classes.PlainEdges) (ht : t.raw? = some c)
    (hc : c.isArray = false) (htarget : target.isArray = false)
    (hobject : target.isObject = false)
    (hprimitive : (c.isPrimitive || target.isPrimitive) = true → c.name = target.name)
    (hreach : ∃ n, env.RawPath n c target) (hcoherent : env.Coherent (env.climbStart t))
    (hedges : env.EdgesBelow c Limits.walkSteps) : ∃ u, env.supertype t target = .ok u := by
  have hstart : env.viewStart t = some (env.climbStart t) := viewStart_eq_climbStart ht hc
  have hstartRaw : (env.climbStart t).raw? = some c := raw?_climbStart ht hc
  have hview : env.viewAs t target =
      if env.erase (env.climbStart t) == target then .found (env.climbStart t)
      else search (env.viewStep target) Limits.walkSteps (env.climbStart t) := by
    simp only [viewAs, hobject, Bool.false_and, Bool.false_eq_true, if_false, hstart]
  rw [supertype_of_raw? ht htarget]
  by_cases hname : c.name = target.name
  · have hsame : (env.erase (env.climbStart t) == target) = true := by
      rw [erase_of_raw? hstartRaw]
      exact ClassRef.beq_iff_name.mpr hname
    rw [if_pos (isSubclass_of_name hname), hview, if_pos hsame]
    exact ⟨_, rfl⟩
  · have hflags : c.isPrimitive = false ∧ target.isPrimitive = false := by
      rw [← Bool.or_eq_false_iff, ← Bool.not_eq_true]
      exact fun h => hname (hprimitive h)
    have hcplain : c.isPlain = true := ClassRef.isPlain_iff.mpr ⟨hc, hflags.1⟩
    have htargetPlain : target.isPlain = true := ClassRef.isPlain_iff.mpr ⟨htarget, hflags.2⟩
    have hne : ¬(env.erase (env.climbStart t) == target) = true := by
      rw [erase_of_raw? hstartRaw, ClassRef.beq_iff_name]
      exact hname
    have hsub : env.isSubclass c target = true :=
      (isSubclass_iff_rawPath hplain hcplain htargetPlain hobject).mpr hreach
    rw [if_pos hsub, hview, if_neg hne]
    obtain ⟨n, hpath⟩ := hreach
    cases n with
    | zero => exact absurd hpath hname
    | succ n =>
        obtain ⟨u, e, hclimb, he, hetarget⟩ := climb_of_rawPath hplain hpath hstartRaw
        have hu : (env.erase u == target) = true := by
          rw [erase_of_raw? he]
          exact ClassRef.beq_iff_name.mpr hetarget
        obtain ⟨k, -, v, hfirst⟩ := firstAt_of_climb hplain htargetPlain hobject hclimb hu
        obtain ⟨v', hnearest⟩ := exists_nearest hfirst
        have hin : HasRaw (env.climbStart t) := ⟨c, hstartRaw, hc⟩
        rcases search_of_nearest (viewStep_hasRaw (rawEdges_of_plain hplain) target) hin hnearest
          Limits.walkSteps with hfound | hout
        · rw [hfound]
          exact ⟨v', rfl⟩
        · exact absurd hout (walk_ne_outOfSteps hplain hstartRaw hc hcoherent hedges)

/-- What navigation to a superclass finds, and when it finds it. -/
theorem supertype_shortest (hplain : env.classes.PlainEdges) (ht : t.raw? = some c)
    (hc : c.isArray = false) (htarget : target.isArray = false)
    (hobject : target.isObject = false) :
    (∀ u, env.supertype t target = .ok u →
      (env.erase u == target) = true ∧ env.Shortest (env.climbStart t) u target) ∧
    (((c.isPrimitive || target.isPrimitive) = true → c.name = target.name) →
      (∃ n, env.RawPath n c target) → env.Coherent (env.climbStart t) →
      env.EdgesBelow c 10000 → ∃ u, env.supertype t target = .ok u) :=
  ⟨fun _ => shortest_of_supertype hplain ht hc htarget hobject,
    supertype_of_rawPath hplain ht hc htarget hobject⟩

end

/-! ## A generic class and its interface -/

def listClass : ClassRef := .named "java.util.List" .interface

def arrayListClass : ClassRef := .named "java.util.ArrayList" .ordinary

def listVar : TyVar := ⟨0, .ofClass listClass, "E"⟩

def arrayListVar : TyVar := ⟨1, .ofClass arrayListClass, "E"⟩

def listEnv : Env :=
  ⟨(Registry.core.register ((ClassDecl.of listClass).withParameters [listVar])).register
    (((ClassDecl.of arrayListClass).withParameters [arrayListVar]).implementing
      (.param none listClass [.var arrayListVar])), .empty⟩

def stringType : Ty := .cls (.named "java.lang.String" .ordinary)

def stringList : Ty := .param none arrayListClass [stringType]

/-- The supertypes of a list are of different classes, whatever is in the list. -/
theorem arrayList_coherent (bounds : BoundTable) (arg : Ty) :
    (⟨listEnv.classes, bounds⟩ : Env).Coherent (.param none arrayListClass [arg]) := by
  apply coherent_of_closed
    (P := fun t => t = .param none arrayListClass [arg] ∨ t = .object ∨
      t = .param none listClass [arg]) (Or.inl rfl)
  · rintro t (rfl | rfl | rfl) edge hedge
    · have hedges : edge ∈ [Ty.object, .param none listClass [.var arrayListVar]] := hedge
      rcases List.mem_cons.mp hedges with rfl | hrest
      · exact Or.inr (Or.inl rfl)
      · obtain rfl := List.mem_singleton.mp hrest
        exact Or.inr (Or.inr rfl)
    · exact absurd (show edge ∈ [] from hedge) List.not_mem_nil
    · exact absurd (show edge ∈ [] from hedge) List.not_mem_nil
  · rintro u v (rfl | rfl | rfl) (rfl | rfl | rfl) h
    · exact Ty.same_refl _
    · exact absurd (show (arrayListClass == ClassRef.object) = true from h) (by decide)
    · exact absurd (show (arrayListClass == listClass) = true from h) (by decide)
    · exact absurd (show (ClassRef.object == arrayListClass) = true from h) (by decide)
    · exact Ty.same_refl _
    · exact absurd (show (ClassRef.object == listClass) = true from h) (by decide)
    · exact absurd (show (listClass == arrayListClass) = true from h) (by decide)
    · exact absurd (show (listClass == ClassRef.object) = true from h) (by decide)
    · exact Ty.same_refl _

theorem stringList_coherent : listEnv.Coherent stringList := arrayList_coherent _ _

/-- The list interface of a list of strings is found, over one step. -/
theorem supertype_shortest_arrayList :
    ∃ u, listEnv.supertype stringList listClass = .ok u ∧
      listEnv.Shortest stringList u listClass := by
  have hplain : listEnv.classes.PlainEdges := by decide
  have hobject : listClass.isObject = false := by decide
  have hreach : ∃ n, listEnv.RawPath n arrayListClass listClass :=
    ⟨1, listClass, List.mem_cons_of_mem _ List.mem_cons_self, rfl⟩
  have hraw : stringList.raw? = some arrayListClass := rfl
  obtain ⟨hsound, hcomplete⟩ := supertype_shortest hplain hraw rfl rfl hobject
  obtain ⟨u, hu⟩ := hcomplete (by decide) hreach stringList_coherent
    (edgesBelow_of_edgeBound (by decide))
  exact ⟨u, hu, (hsound u hu).2⟩

/-! ## A primitive with a superclass -/

def numberClass : ClassRef := .named "java.lang.Number" .ordinary

def intType : Ty := .cls Primitive.int.toClass

/-- A registry in which `int` extends a class. -/
def intEnv : Env :=
  ⟨(Registry.core.register (.of numberClass)).register
    ((ClassDecl.of Primitive.int.toClass).extending (.cls numberClass)), .empty⟩

theorem intType_coherent : intEnv.Coherent intType := by
  apply coherent_of_closed (P := fun t => t = intType ∨ t = .cls numberClass ∨ t = .object)
    (Or.inl rfl)
  · rintro t (rfl | rfl | rfl) edge hedge
    · obtain rfl := List.mem_singleton.mp (show edge ∈ [Ty.cls numberClass] from hedge)
      exact Or.inr (Or.inl rfl)
    · obtain rfl := List.mem_singleton.mp (show edge ∈ [Ty.object] from hedge)
      exact Or.inr (Or.inr rfl)
    · exact absurd (show edge ∈ [] from hedge) List.not_mem_nil
  · rintro u v (rfl | rfl | rfl) (rfl | rfl | rfl) <;> decide

/-- An edge of a primitive is not climbed, although a step leads there. -/
theorem supertype_primitive : ¬∀ (env : Env) (t : Ty) (c target : ClassRef),
    env.classes.PlainEdges → t.raw? = some c → c.isArray = false → target.isArray = false →
      target.isObject = false → (∃ n, env.RawPath n c target) →
      env.Coherent (env.climbStart t) → env.EdgesBelow c 10000 →
      ∃ u, env.supertype t target = .ok u := by
  intro hclaim
  have hobject : numberClass.isObject = false := by decide
  have hreach : ∃ n, intEnv.RawPath n Primitive.int.toClass numberClass :=
    ⟨1, numberClass, List.mem_cons_self, rfl⟩
  obtain ⟨u, hu⟩ := hclaim intEnv intType Primitive.int.toClass numberClass
    (by decide) rfl rfl rfl hobject hreach intType_coherent
    (edgesBelow_of_edgeBound (by decide))
  have hfails : (intEnv.supertype intType numberClass).isOk = false := by decide
  rw [hu] at hfails
  cases hfails

end Env

end Generics
