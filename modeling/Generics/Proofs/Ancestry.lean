import Generics.Ancestry
import Generics.Proofs.Search

/-!
Raw ancestry is reachability. Where the declared edges lead to classes that
are neither arrays nor primitives, a class is below another one exactly when
it is the same one, the other one is the root class, or a path of declared
edges leads there. The search that decides it never runs out of steps, since
each class is expanded once and the registry bounds the number of edges.
-/

namespace Generics

/-- Neither an array class nor a primitive one. -/
def ClassRef.isPlain (c : ClassRef) : Bool := !c.isArray && !c.isPrimitive

/-- The class of a class type or of a parameterized type. -/
def Ty.raw? : Ty → Option ClassRef
  | .cls c => some c
  | .param _ raw _ => some raw
  | _ => none

def Ty.isPlain (t : Ty) : Bool := t.raw?.any ClassRef.isPlain

theorem Ty.isPlain_iff {t : Ty} :
    t.isPlain = true ↔ ∃ c, t.raw? = some c ∧ c.isPlain = true := by
  simp [Ty.isPlain, Option.any_eq_true]

theorem ClassRef.isPlain_iff {c : ClassRef} :
    c.isPlain = true ↔ c.isArray = false ∧ c.isPrimitive = false := by
  simp [ClassRef.isPlain]

theorem ClassRef.exists_named {c : ClassRef} (h : c.isArray = false) :
    ∃ name kind, c = .named name kind := by
  cases c with
  | named name kind => exact ⟨name, kind, rfl⟩
  | array _ _ => simp [ClassRef.isArray] at h

namespace Registry

/-- The declared edges lead to classes and parameterized types of classes that
are neither arrays nor primitives. -/
def PlainEdges (registry : Registry) : Prop :=
  ∀ entry ∈ registry.decls.toList, ∀ e ∈ entry.2.supertypes, e.isPlain = true

instance (registry : Registry) : Decidable registry.PlainEdges :=
  inferInstanceAs (Decidable (∀ entry ∈ registry.decls.toList,
    ∀ e ∈ entry.2.supertypes, e.isPlain = true))

variable {registry : Registry}

theorem directSupertypes_named (name : String) (kind : ClassKind) :
    registry.directSupertypes (.named name kind) =
      ((registry.decls[name]?).map ClassDecl.supertypes).getD [] := by
  simp only [directSupertypes, superclass?, interfaces]
  cases registry.decls[name]? with
  | none => rfl
  | some d => rfl

/-- What holds of the declared edges holds of the edges of every class that is
not an array. -/
theorem forall_edges {Q : Ty → Prop}
    (h : ∀ entry ∈ registry.decls.toList, ∀ e ∈ entry.2.supertypes, Q e)
    {c : ClassRef} (hc : c.isArray = false) : ∀ e ∈ registry.directSupertypes c, Q e := by
  obtain ⟨name, kind, rfl⟩ := ClassRef.exists_named hc
  rw [directSupertypes_named]
  intro e he
  cases hd : registry.decls[name]? with
  | none => simp [hd] at he
  | some d =>
      have hmem : (name, d) ∈ registry.decls.toList :=
        Std.TreeMap.mem_toList_iff_getElem?_eq_some.mpr hd
      exact h (name, d) hmem e (by simpa [hd] using he)

theorem forall_supertypes {Q : Ty → Prop} {edges : List Ty}
    (hedges : registry.decls.toList.flatMap (fun entry => entry.2.supertypes) = edges)
    (h : ∀ e ∈ edges, Q e) :
    ∀ entry ∈ registry.decls.toList, ∀ e ∈ entry.2.supertypes, Q e := by
  intro entry hentry e he
  apply h
  rw [← hedges]
  exact List.mem_flatMap.mpr ⟨entry, hentry, he⟩

theorem directSupertypes_plain (h : registry.PlainEdges) (c : ClassRef) :
    ∀ e ∈ registry.directSupertypes c, e.isPlain = true := by
  cases c with
  | named name kind => exact forall_edges h rfl
  | array name component =>
      intro e he
      simp only [directSupertypes, superclass?, interfaces, Option.toList,
        List.singleton_append, List.mem_cons, List.not_mem_nil, or_false] at he
      rcases he with rfl | rfl | rfl <;> rfl

theorem directSupertypes_of_name {c d : ClassRef} (hc : c.isArray = false)
    (hd : d.isArray = false) (hname : c.name = d.name) :
    registry.directSupertypes c = registry.directSupertypes d := by
  obtain ⟨m, k, rfl⟩ := ClassRef.exists_named hc
  obtain ⟨n, l, rfl⟩ := ClassRef.exists_named hd
  obtain rfl : m = n := hname
  rw [directSupertypes_named, directSupertypes_named]

theorem parameters_of_name {c d : ClassRef} (hname : c.name = d.name) :
    registry.parameters c = registry.parameters d := by
  simp [parameters, decl?, hname]

/-- Classes with different names have no more edges together than there are in
the registry. -/
theorem sum_edges_le {cs : List ClassRef} (harray : ∀ c ∈ cs, c.isArray = false)
    (hdistinct : (cs.map ClassRef.name).Nodup) :
    (cs.map fun c => (registry.directSupertypes c).length).sum ≤ registry.edgeBound := by
  let edges : String → Nat := fun name =>
    (((registry.decls[name]?).map ClassDecl.supertypes).getD []).length
  have hedges : cs.map (fun c => (registry.directSupertypes c).length) =
      (cs.map ClassRef.name).map edges := by
    rw [List.map_map]
    apply List.map_congr_left
    intro c hc
    obtain ⟨name, kind, rfl⟩ := ClassRef.exists_named (harray c hc)
    simp only [directSupertypes_named, Function.comp_apply, edges, ClassRef.name]
  have hkeys : registry.decls.keys.Nodup := Std.TreeMap.nodup_keys
  have hdeclared : registry.decls.keys.map edges =
      registry.decls.toList.map fun entry => entry.2.supertypes.length := by
    rw [← Std.TreeMap.map_fst_toList_eq_keys, List.map_map]
    apply List.map_congr_left
    rintro ⟨name, d⟩ hmem
    have hd := Std.TreeMap.mem_toList_iff_getElem?_eq_some.mp hmem
    simp [edges, hd]
  have hsubset : ∑ name ∈ (cs.map ClassRef.name).toFinset, edges name ≤
      ∑ name ∈ registry.decls.keys.toFinset, edges name := by
    apply Finset.sum_le_sum_of_ne_zero
    intro name _ hne
    rw [List.mem_toFinset, Std.TreeMap.mem_keys]
    by_contra hmissing
    apply hne
    simp [edges, Std.TreeMap.getElem?_eq_none hmissing]
  calc
    (cs.map fun c => (registry.directSupertypes c).length).sum
        = ∑ name ∈ (cs.map ClassRef.name).toFinset, edges name := by
          rw [hedges, List.sum_toFinset edges hdistinct]
    _ ≤ ∑ name ∈ registry.decls.keys.toFinset, edges name := hsubset
    _ = (registry.decls.toList.map fun entry => entry.2.supertypes.length).sum := by
          rw [List.sum_toFinset edges hkeys, hdeclared]
    _ ≤ registry.edgeBound := by
          rw [← List.length_flatMap]
          exact registry.edges_le

end Registry

namespace Env

variable {env : Env}

theorem erase_of_raw? {t : Ty} {c : ClassRef} (h : t.raw? = some c) : env.erase t = c := by
  cases t with
  | cls d => exact Option.some.inj h
  | param owner raw args => exact Option.some.inj h
  | _ => simp [Ty.raw?] at h

theorem upperBounds?_of_raw? {t : Ty} {c : ClassRef} (h : t.raw? = some c) :
    env.upperBounds? t = none := by
  cases t with
  | cls _ => rfl
  | param _ _ _ => rfl
  | _ => cases h

theorem mem_rawSupertypes {c : ClassRef} {edge : Ty}
    (h : edge ∈ env.classes.interfaces c ++ (env.classes.superclass? c).toList) :
    env.erase edge ∈ env.rawSupertypes c := by
  refine List.mem_map.mpr ⟨edge, ?_, rfl⟩
  exact List.mem_append.mpr (List.mem_append.mp h).symm

theorem exists_edge {c d : ClassRef} (h : d ∈ env.rawSupertypes c) :
    ∃ edge ∈ env.classes.interfaces c ++ (env.classes.superclass? c).toList,
      env.erase edge = d := by
  obtain ⟨edge, hedge, rfl⟩ := List.mem_map.mp h
  exact ⟨edge, List.mem_append.mpr (List.mem_append.mp hedge).symm, rfl⟩

/-- A path of `n` declared edges, from class to class. -/
def RawPath (env : Env) : Nat → ClassRef → ClassRef → Prop
  | 0, c, d => c.name = d.name
  | n + 1, c, d => ∃ above ∈ env.rawSupertypes c, env.RawPath n above d

theorem RawPath.trans {m n : Nat} {c d e : ClassRef} (hc : c.isArray = false)
    (hd : d.isArray = false) (hplain : env.classes.PlainEdges)
    (hcd : env.RawPath m c d) (hde : env.RawPath n d e) : env.RawPath (m + n) c e := by
  induction m generalizing c with
  | zero =>
      rw [Nat.zero_add]
      cases n with
      | zero => exact (show c.name = d.name from hcd).trans hde
      | succ n =>
          obtain ⟨above, habove, hpath⟩ := hde
          refine ⟨above, ?_, hpath⟩
          rw [rawSupertypes, Registry.directSupertypes_of_name hc hd hcd]
          exact habove
  | succ m ih =>
      obtain ⟨above, habove, hpath⟩ := hcd
      rw [Nat.succ_add]
      refine ⟨above, habove, ih ?_ hpath⟩
      obtain ⟨e, he, rfl⟩ := List.mem_map.mp habove
      obtain ⟨a, ha, hflag⟩ :=
        Ty.isPlain_iff.mp (Registry.directSupertypes_plain hplain c e he)
      rw [erase_of_raw? ha]
      exact (ClassRef.isPlain_iff.mp hflag).1

theorem rawSupertypes_plain (hplain : env.classes.PlainEdges) {c above : ClassRef}
    (h : above ∈ env.rawSupertypes c) : above.isPlain = true := by
  obtain ⟨e, he, rfl⟩ := List.mem_map.mp h
  obtain ⟨a, ha, hflag⟩ :=
    Ty.isPlain_iff.mp (Registry.directSupertypes_plain hplain c e he)
  rw [erase_of_raw? ha]
  exact hflag

theorem rawPath_step (hplain : env.classes.PlainEdges) {n : Nat} {c d above : ClassRef}
    (h : env.RawPath (n + 1) c d) (hd : d.isArray = false) (habove : above ∈ env.rawSupertypes d) :
    env.RawPath (n + 2) c above := by
  obtain ⟨first, hfirst, hpath⟩ := h
  have harray := (ClassRef.isPlain_iff.mp (rawSupertypes_plain hplain hfirst)).1
  exact ⟨first, hfirst, hpath.trans (n := 1) harray hd hplain ⟨above, habove, rfl⟩⟩

theorem RawPath.target {n : Nat} {c d d' : ClassRef} (hname : d.name = d'.name)
    (h : env.RawPath n c d) : env.RawPath n c d' := by
  induction n generalizing c with
  | zero => exact (show c.name = d.name from h).trans hname
  | succ n ih =>
      obtain ⟨above, habove, hpath⟩ := h
      exact ⟨above, habove, ih hpath⟩

/-- Along a path every rank goes down that goes down along each declared edge. -/
theorem rank_of_rawPath (hplain : env.classes.PlainEdges) {rank : String → Nat}
    (hrank : ∀ entry ∈ env.classes.decls.toList, ∀ e ∈ entry.2.supertypes,
      rank (env.erase e).name < rank entry.1) {n : Nat} {c d : ClassRef}
    (hc : c.isArray = false) (h : env.RawPath n c d) : rank d.name + n ≤ rank c.name := by
  induction n generalizing c with
  | zero => exact (congrArg rank (show c.name = d.name from h)).ge
  | succ n ih =>
      obtain ⟨above, habove, hpath⟩ := h
      have habovePlain := rawSupertypes_plain hplain habove
      obtain ⟨e, he, rfl⟩ := List.mem_map.mp habove
      have hrest := ih (ClassRef.isPlain_iff.mp habovePlain).1 hpath
      obtain ⟨name, kind, rfl⟩ := ClassRef.exists_named hc
      rw [Registry.directSupertypes_named] at he
      cases hd : env.classes.decls[name]? with
      | none => simp [hd] at he
      | some decl =>
          have hmem := Std.TreeMap.mem_toList_iff_getElem?_eq_some.mpr hd
          have hstep : rank (env.erase e).name < rank name :=
            hrank (name, decl) hmem e (by simpa [hd] using he)
          change rank d.name + (n + 1) ≤ rank name
          omega

/-! ## The search for an ancestor -/

/-- What looking at a class gives when an ancestor is searched. -/
def ancestryStep (env : Env) (target c : ClassRef) : Expansion ClassRef Unit :=
  if (env.rawSupertypes c).contains target then .goal () else .next (env.rawSupertypes c)

theorem inherits_eq (c target : ClassRef) : env.inherits c target =
    (search (env.ancestryStep target) env.ancestrySteps c).isFound := rfl

theorem contains_iff_name {cs : List ClassRef} {d : ClassRef} :
    cs.contains d = true ↔ ∃ c ∈ cs, c.name = d.name := by
  rw [List.contains_iff_exists_mem_beq]
  constructor
  · rintro ⟨c, hc, heq⟩
    exact ⟨c, hc, (ClassRef.beq_iff_name.mp heq).symm⟩
  · rintro ⟨c, hc, hname⟩
    exact ⟨c, hc, ClassRef.beq_iff_name.mpr hname.symm⟩

theorem rawPath_of_firstAt {target : ClassRef} {n : Nat} {c : ClassRef}
    (h : firstAt (env.ancestryStep target) n c = some ()) :
    env.RawPath (n + 1) c target := by
  induction n generalizing c with
  | zero =>
      simp only [firstAt, ancestryStep] at h
      split at h
      · rename_i hgoal
        exact contains_iff_name.mp hgoal
      · simp [Expansion.goal?] at h
  | succ n ih =>
      simp only [firstAt, ancestryStep] at h
      split at h
      · simp [Expansion.nodes] at h
      · obtain ⟨above, habove, hfirst⟩ := List.exists_of_findSome?_eq_some h
        exact ⟨above, habove, ih hfirst⟩

theorem firstAt_of_rawPath {target : ClassRef} {n : Nat} {c : ClassRef}
    (h : env.RawPath (n + 1) c target) :
    ∃ k, firstAt (env.ancestryStep target) k c = some () := by
  by_cases hgoal : (env.rawSupertypes c).contains target = true
  · exact ⟨0, by simp [firstAt, ancestryStep, hgoal, Expansion.goal?]⟩
  · induction n generalizing c with
    | zero => exact absurd (contains_iff_name.mpr h) hgoal
    | succ n ih =>
        obtain ⟨above, habove, hpath⟩ := h
        have hnext : ∃ k, firstAt (env.ancestryStep target) k above = some () := by
          by_cases habove' : (env.rawSupertypes above).contains target = true
          · exact ⟨0, by simp [firstAt, ancestryStep, habove', Expansion.goal?]⟩
          · exact ih hpath habove'
        obtain ⟨k, hk⟩ := hnext
        have hsome : ((env.rawSupertypes c).findSome?
            (firstAt (env.ancestryStep target) k)).isSome = true :=
          List.findSome?_isSome_iff.mpr ⟨above, habove, by simp [hk]⟩
        obtain ⟨⟨⟩, hfound⟩ := Option.isSome_iff_exists.mp hsome
        refine ⟨k + 1, ?_⟩
        simp only [firstAt, ancestryStep, hgoal, Bool.false_eq_true, if_false,
          Expansion.nodes]
        exact hfound

theorem ancestryStep_nodes (target c : ClassRef) :
    ∀ above ∈ (env.ancestryStep target c).nodes, above ∈ env.rawSupertypes c := by
  intro above h
  unfold ancestryStep at h
  split at h
  · simp [Expansion.nodes] at h
  · exact h

theorem ancestryStep_faithful (hplain : env.classes.PlainEdges) (target : ClassRef) :
    Faithful (env.ancestryStep target) (fun c => c.isArray = false) where
  nodes := by
    intro c _ above h
    exact (ClassRef.isPlain_iff.mp
      (rawSupertypes_plain hplain (ancestryStep_nodes target c above h))).1
  equal := by
    intro c d hc hd heq n h
    have hsupers : env.rawSupertypes c = env.rawSupertypes d := by
      rw [rawSupertypes, rawSupertypes,
        Registry.directSupertypes_of_name hc hd (ClassRef.beq_iff_name.mp heq)]
    have hstep : env.ancestryStep target c = env.ancestryStep target d := by
      rw [ancestryStep, ancestryStep, hsupers]
    cases n with
    | zero => simpa only [firstAt, hstep] using h
    | succ n => simpa only [firstAt, hstep] using h

/-- The raw classes that declared edges lead to. -/
def rawEdges (env : Env) : List ClassRef :=
  (env.classes.decls.toList.flatMap fun entry => entry.2.supertypes).map env.erase

/-- Different classes have no more than four times as many edges as are declared: an array
class that a declared edge leads to has three more. -/
theorem sum_rawSupertypes_le {cs : List ClassRef}
    (harray : ∀ c ∈ cs, c.isArray = true → c ∈ env.rawEdges)
    (hdistinct : (cs.map ClassRef.name).Nodup) :
    (cs.map fun c => (env.rawSupertypes c).length).sum ≤ 4 * env.classes.edgeBound := by
  have hsplit : (cs.filter ClassRef.isArray ++ cs.filter fun c => !c.isArray).Perm cs :=
    List.filter_append_perm ClassRef.isArray cs
  have hnamed : ((cs.filter fun c => !c.isArray).map fun c => (env.rawSupertypes c).length).sum ≤
      env.classes.edgeBound := by
    simp only [rawSupertypes, List.length_map]
    refine Registry.sum_edges_le (fun c hc => ?_) ?_
    · simpa using (List.mem_filter.mp hc).2
    · exact hdistinct.sublist (List.filter_sublist.map _)
  have hcount : (cs.filter ClassRef.isArray).length ≤ env.classes.edgeBound := by
    have hnames : ((cs.filter ClassRef.isArray).map ClassRef.name).Nodup :=
      hdistinct.sublist (List.filter_sublist.map _)
    have hsubset : (cs.filter ClassRef.isArray).map ClassRef.name ⊆
        env.rawEdges.map ClassRef.name := by
      refine List.map_subset _ fun c hc => ?_
      obtain ⟨hmem, hc⟩ := List.mem_filter.mp hc
      exact harray c hmem hc
    have hle := (hnames.subperm hsubset).length_le
    rw [List.length_map, List.length_map, rawEdges, List.length_map] at hle
    exact hle.trans env.classes.edges_le
  have harrays : ((cs.filter ClassRef.isArray).map fun c => (env.rawSupertypes c).length).sum ≤
      (cs.filter ClassRef.isArray).length * 3 := by
    refine (List.sum_le_card_nsmul _ 3 fun n hn => ?_).trans (by simp)
    obtain ⟨c, hc, rfl⟩ := List.mem_map.mp hn
    cases c with
    | named _ _ => cases (List.mem_filter.mp hc).2
    | array _ _ => exact le_refl 3
  have hsum := (hsplit.map fun c => (env.rawSupertypes c).length).sum_eq
  rw [List.map_append, List.sum_append] at hsum
  omega

/-- The search for an ancestor has steps enough where array classes are met on declared edges. -/
theorem ancestry_ne_outOfSteps_of_closed {R : ClassRef → Prop}
    (hnodes : ∀ c, R c → ∀ above ∈ env.rawSupertypes c, R above)
    (harray : ∀ c, R c → c.isArray = true → c ∈ env.rawEdges) (target : ClassRef) {c : ClassRef}
    (hc : R c) : search (env.ancestryStep target) env.ancestrySteps c ≠ .outOfSteps := by
  refine search_ne_outOfSteps
    (fun ha above h => hnodes _ ha above (ancestryStep_nodes target _ above h)) ?_ hc
  intro seen hseen hdistinct
  have hnames : (seen.map ClassRef.name).Nodup := by
    rw [List.Nodup, List.pairwise_map]
    exact hdistinct.imp fun h hname => h (ClassRef.beq_iff_name.mpr hname)
  have hpushed : (seen.map fun a => (env.ancestryStep target a).nodes.length).sum ≤
      (seen.map fun a => (env.rawSupertypes a).length).sum := by
    apply List.sum_le_sum
    intro a _
    unfold ancestryStep
    split <;> simp [Expansion.nodes]
  have hbound := sum_rawSupertypes_le (fun a ha => harray a (hseen a ha)) hnames
  unfold ancestrySteps
  omega

/-- The search for an ancestor has steps enough. -/
theorem ancestry_ne_outOfSteps (hplain : env.classes.PlainEdges) (target : ClassRef)
    {c : ClassRef} (hc : c.isArray = false) :
    search (env.ancestryStep target) env.ancestrySteps c ≠ .outOfSteps := by
  have hnodes : ∀ c : ClassRef, c.isArray = false → ∀ above ∈ env.rawSupertypes c,
      above.isArray = false :=
    fun _ _ _ habove => (ClassRef.isPlain_iff.mp (rawSupertypes_plain hplain habove)).1
  refine ancestry_ne_outOfSteps_of_closed hnodes (fun c hc harray => ?_) target hc
  rw [hc] at harray
  cases harray

/-- A search that leaves equal classes aside without harm, and has steps enough, finds every path
of one or more edges. -/
theorem inherits_iff_of_faithful {P : ClassRef → Prop} {c target : ClassRef}
    (hfaithful : Faithful (env.ancestryStep target) P)
    (hsteps : search (env.ancestryStep target) env.ancestrySteps c ≠ .outOfSteps) (hc : P c) :
    env.inherits c target = true ↔ ∃ n, env.RawPath (n + 1) c target := by
  rw [inherits_eq]
  constructor
  · intro h
    cases hsearch : search (env.ancestryStep target) env.ancestrySteps c with
    | found u =>
        obtain ⟨n, hn, -⟩ := nearest_of_search hfaithful hc hsearch
        exact ⟨n, rawPath_of_firstAt hn⟩
    | missing => simp [hsearch, Outcome.isFound] at h
    | outOfSteps => simp [hsearch, Outcome.isFound] at h
  · rintro ⟨n, hpath⟩
    obtain ⟨k, hk⟩ := firstAt_of_rawPath hpath
    obtain ⟨u, hnearest⟩ := exists_nearest hk
    rcases search_of_nearest hfaithful hc hnearest env.ancestrySteps with hfound | hout
    · rw [hfound]
      rfl
    · exact absurd hout hsteps

/-- Inheritance is a path of one or more edges. -/
theorem inherits_iff (hplain : env.classes.PlainEdges) {c target : ClassRef}
    (hc : c.isArray = false) :
    env.inherits c target = true ↔ ∃ n, env.RawPath (n + 1) c target :=
  inherits_iff_of_faithful (ancestryStep_faithful hplain target)
    (ancestry_ne_outOfSteps hplain target hc) hc

/-! ## Raw subclasses -/

theorem isSubclass_of_name {c d : ClassRef} (h : c.name = d.name) :
    env.isSubclass c d = true := by
  have heq : (c == d) = true := ClassRef.beq_iff_name.mpr h
  unfold isSubclass
  rw [if_pos heq]

/-- A primitive is below itself alone, and nothing else is below it. -/
theorem isSubclass_primitive {c d : ClassRef}
    (hprimitive : c.isPrimitive = true ∨ d.isPrimitive = true) :
    env.isSubclass c d = true ↔ c.name = d.name := by
  constructor
  · intro h
    by_contra hname
    have hne : (c == d) = false := by
      rw [← Bool.not_eq_true, ClassRef.beq_iff_name]
      exact hname
    have hflag : (c.isPrimitive || d.isPrimitive) = true := by
      simpa using hprimitive
    unfold isSubclass at h
    simp [hne, hflag] at h
  · exact isSubclass_of_name

/-- Different classes one of which is below the other are not primitive. -/
theorem isPrimitive_of_isSubclass {c d : ClassRef} (h : env.isSubclass c d = true)
    (hne : c.name ≠ d.name) : c.isPrimitive = false ∧ d.isPrimitive = false := by
  rw [← Bool.or_eq_false_iff, ← Bool.not_eq_true, Bool.or_eq_true]
  exact fun hflag => hne ((isSubclass_primitive hflag).mp h)

theorem isSubclass_object {c d : ClassRef} (hc : c.isPrimitive = false)
    (hd : d.isPrimitive = false) (hobject : d.isObject = true) :
    env.isSubclass c d = true := by
  unfold isSubclass
  simp [hc, hd, hobject]

/-- Array classes are related when their names are equal, or as their components
are, primitives excepted. -/
theorem isSubclass_arrays {name name' : String} {c d : ClassRef}
    (hobject : (ClassRef.array name' d).isObject = false) :
    env.isSubclass (.array name c) (.array name' d) = true ↔
      name = name' ∨ c.isPrimitive = false ∧ d.isPrimitive = false ∧ env.isSubclass c d = true := by
  have hc : (ClassRef.array name c).isPrimitive = false := rfl
  have hd : (ClassRef.array name' d).isPrimitive = false := rfl
  have hname : (ClassRef.array name c == ClassRef.array name' d) = true ↔ name = name' :=
    ClassRef.beq_iff_name
  rw [isSubclass.eq_def, hobject, hc, hd]
  simp [hname, and_assoc]

theorem isSubclass_iff_rawPath (hplain : env.classes.PlainEdges) {c d : ClassRef}
    (hc : c.isPlain = true) (hd : d.isPlain = true) (hobject : d.isObject = false) :
    env.isSubclass c d = true ↔ ∃ n, env.RawPath n c d := by
  obtain ⟨hca, hcp⟩ := ClassRef.isPlain_iff.mp hc
  obtain ⟨hda, hdp⟩ := ClassRef.isPlain_iff.mp hd
  by_cases hname : c.name = d.name
  · exact iff_of_true (isSubclass_of_name hname) ⟨0, hname⟩
  · have hne : (c == d) = false := by
      rw [← Bool.not_eq_true, ClassRef.beq_iff_name]
      exact hname
    have hinherits : env.isSubclass c d = env.inherits c d := by
      obtain ⟨m, k, rfl⟩ := ClassRef.exists_named hca
      obtain ⟨n, l, rfl⟩ := ClassRef.exists_named hda
      unfold isSubclass
      simp [hne, hcp, hdp, hobject]
    rw [hinherits, inherits_iff hplain hca]
    constructor
    · rintro ⟨n, h⟩
      exact ⟨n + 1, h⟩
    · rintro ⟨n, h⟩
      cases n with
      | zero => exact absurd h hname
      | succ n => exact ⟨n, h⟩

/-! ## Array classes -/

section

variable {c d : ClassRef}

/-- The three classes above all arrays. -/
abbrev arrayTops : List ClassRef := [.object, .cloneable, .serializable]

theorem arrayTop_isPlain (hd : d ∈ arrayTops) : d.isPlain = true := by
  simp only [List.mem_cons, List.not_mem_nil, or_false] at hd
  rcases hd with rfl | rfl | rfl <;> rfl

theorem rawSupertypes_array (hc : c.isArray = true) : env.rawSupertypes c = arrayTops := by
  cases c with
  | named _ _ => cases hc
  | array _ _ => rfl

theorem isSubclass_arrayTop (hc : c.isArray = true) (hd : d ∈ arrayTops) :
    env.isSubclass c d = true := by
  simp only [List.mem_cons, List.not_mem_nil, or_false] at hd
  cases c with
  | named _ _ => cases hc
  | array name component =>
      rw [isSubclass.eq_def]
      split
      · rfl
      · rcases hd with rfl | rfl | rfl <;> rfl

/-- An array class is below no class but arrays, itself and these three. -/
theorem exists_arrayTop (hc : c.isArray = true) (hd : d.isArray = false)
    (hname : c.name ≠ d.name) (h : env.isSubclass c d = true) :
    ∃ top ∈ arrayTops, top.name = d.name := by
  have hne : (c == d) = false := by
    rw [← Bool.not_eq_true, ClassRef.beq_iff_name]
    exact hname
  obtain ⟨hcprimitive, hdprimitive⟩ := isPrimitive_of_isSubclass h hname
  obtain ⟨name, kind, rfl⟩ := ClassRef.exists_named hd
  rw [isSubclass.eq_def, hne, hcprimitive, hdprimitive] at h
  simp only [Bool.false_eq_true, if_false, Bool.or_self] at h
  split at h
  · rename_i hobject
    have hroot : name = ClassRef.rootName := by
      simpa only [ClassRef.isObject, ClassRef.name, beq_iff_eq] using hobject
    exact ⟨.object, by simp, hroot.symm⟩
  · cases c with
    | named _ _ => cases hc
    | array _ _ =>
        simp only [Bool.or_eq_true, beq_iff_eq] at h
        rcases h with rfl | rfl
        · exact ⟨.cloneable, by simp, rfl⟩
        · exact ⟨.serializable, by simp, rfl⟩

end

/-! ## Handles of one class -/

section

variable {d target : ClassRef}

theorem inherits_congr (hname : d.name = target.name) (c : ClassRef) :
    env.inherits c d = env.inherits c target := by
  have hcontains : ∀ cs : List ClassRef, cs.contains d = cs.contains target := by
    intro cs
    apply Bool.eq_iff_iff.mpr
    rw [contains_iff_name, contains_iff_name, hname]
  simp only [inherits, hcontains]

theorem isSubclass_congr (hd : d.isPlain = true) (htarget : target.isPlain = true)
    (hname : d.name = target.name) (c : ClassRef) :
    env.isSubclass c d = env.isSubclass c target := by
  obtain ⟨hda, hdp⟩ := ClassRef.isPlain_iff.mp hd
  obtain ⟨hta, htp⟩ := ClassRef.isPlain_iff.mp htarget
  obtain ⟨m, k, rfl⟩ := ClassRef.exists_named hda
  obtain ⟨n, l, rfl⟩ := ClassRef.exists_named hta
  obtain rfl : m = n := hname
  have hbeq : (c == ClassRef.named m k) = (c == ClassRef.named m l) := rfl
  have hobject : (ClassRef.named m k).isObject = (ClassRef.named m l).isObject := rfl
  have hinherits : ∀ e, env.inherits e (.named m k) = env.inherits e (.named m l) :=
    inherits_congr rfl
  rw [isSubclass.eq_def, isSubclass.eq_def, hbeq, hobject, hdp, htp]
  cases c with
  | array _ _ => rfl
  | named _ _ => simp only [hinherits]

end

end Env

end Generics
