import Generics.Proofs.Ancestry

/-!
Raw ancestry in any registry. Edges may lead to array classes and primitives, and in
circles. What is asked for is that a name has one handle among the classes that a
search can meet: the queue then leaves aside no class that has edges of its own, and
a class is below another one exactly when one of five rules says so. The rules are
transitive as soon as nothing is declared above the three classes that all arrays
are below.
-/

namespace Generics

namespace Env

/-- Class handles that a registry uses, of which no two with one name differ in kind. They
include the classes that edges lead to, and the components of array classes. -/
structure OneKind (env : Env) (known : ClassRef → Prop) : Prop where
  tops : ∀ c ∈ arrayTops, known c
  edges : ∀ c ∈ env.rawEdges, known c
  component : ∀ c, known c → ∀ d ∈ c.component?, known d
  sameKind : ∀ c d, known c → known d → (c == d) = true → c.sameKind d = true

/-- The order of the raw classes. The last rule is a path of one or more edges. -/
inductive ClassBelow (env : Env) : ClassRef → ClassRef → Prop where
  | same {c d} (h : (c == d) = true) : ClassBelow env c d
  | root {c d} (hc : c.isPrimitive = false) (hd : d.isPrimitive = false)
      (h : d.isObject = true) : ClassBelow env c d
  | arrays {name name' c d} (hc : c.isPrimitive = false) (hd : d.isPrimitive = false)
      (h : ClassBelow env c d) : ClassBelow env (.array name c) (.array name' d)
  | arrayTop {name c d}
      (h : d.name = ClassRef.cloneableName ∨ d.name = ClassRef.serializableName) :
      ClassBelow env (.array name c) d
  | path {c d n} (hc : c.isPlain = true) (hd : d.isPlain = true)
      (h : env.RawPath (n + 1) c d) : ClassBelow env c d

variable {env : Env} {known : ClassRef → Prop} {c d e : ClassRef} {n : Nat}

/-! ## One handle for a name -/

theorem OneKind.unique (h : env.OneKind known) (hc : known c) (hd : known d)
    (hname : c.name = d.name) : c = d :=
  ClassRef.eq_of_name h.component h.sameKind hc hd hname

/-- A class with the name of one of the three above all arrays is that one. -/
theorem OneKind.eq_top (h : env.OneKind known) (hc : known c) (hd : d ∈ arrayTops)
    (hname : c.name = d.name) : c = d :=
  h.unique hc (h.tops d hd) hname

theorem OneKind.eq_object (h : env.OneKind known) (hc : known c) (hobject : c.isObject = true) :
    c = .object :=
  h.eq_top hc List.mem_cons_self (beq_iff_eq.mp hobject)

theorem OneKind.mem_arrayTops (h : env.OneKind known) (hc : known c)
    (hname : c.name = ClassRef.cloneableName ∨ c.name = ClassRef.serializableName) :
    c ∈ arrayTops := by
  rcases hname with hname | hname
  · rw [h.eq_top hc (d := .cloneable) (by simp) hname]
    simp
  · rw [h.eq_top hc (d := .serializable) (by simp) hname]
    simp

/-! ## The search -/

theorem mem_rawEdges_of_named (hc : c.isArray = false) {above : ClassRef}
    (habove : above ∈ env.rawSupertypes c) : above ∈ env.rawEdges := by
  obtain ⟨e, he, rfl⟩ := List.mem_map.mp habove
  refine Registry.forall_edges (Q := fun e => env.erase e ∈ env.rawEdges) ?_ hc e he
  intro entry hentry e he
  exact List.mem_map_of_mem (List.mem_flatMap.mpr ⟨entry, hentry, he⟩)

/-- An edge of an array class leads to one of the three classes above all arrays. -/
theorem mem_rawSupertypes_cases {above : ClassRef} (habove : above ∈ env.rawSupertypes c) :
    above ∈ arrayTops ∨ above ∈ env.rawEdges := by
  cases harray : c.isArray with
  | true =>
      rw [rawSupertypes_array harray] at habove
      exact Or.inl habove
  | false => exact Or.inr (mem_rawEdges_of_named harray habove)

theorem OneKind.above (h : env.OneKind known) {above : ClassRef}
    (habove : above ∈ env.rawSupertypes c) : known above :=
  (mem_rawSupertypes_cases habove).elim (h.tops above) (h.edges above)

/-- Equal nodes of the search are one, so that nothing is lost when a seen one is left aside. -/
theorem OneKind.faithful (h : env.OneKind known) (target : ClassRef) :
    Faithful (env.ancestryStep target) known where
  nodes _ above habove := h.above (ancestryStep_nodes target _ above habove)
  equal hc hd heq n hnone := by
    rw [h.unique hc hd (ClassRef.beq_iff_name.mp heq)]
    exact hnone

/-- Array classes above a class that is none are counted among the edges. -/
theorem ancestry_ne_outOfSteps_of_named (target : ClassRef) (hc : c.isArray = false) :
    search (env.ancestryStep target) env.ancestrySteps c ≠ .outOfSteps := by
  have hnodes : ∀ c : ClassRef, (c.isArray = true → c ∈ env.rawEdges) →
      ∀ above ∈ env.rawSupertypes c, above.isArray = true → above ∈ env.rawEdges := by
    intro c _ above habove harray
    rcases mem_rawSupertypes_cases habove with htop | hedge
    · rw [(ClassRef.isPlain_iff.mp (arrayTop_isPlain htop)).1] at harray
      cases harray
    · exact hedge
  refine ancestry_ne_outOfSteps_of_closed hnodes (fun _ h => h) target fun harray => ?_
  rw [hc] at harray
  cases harray

/-- Inheritance is a path of one or more edges, whatever the edges lead to. -/
theorem OneKind.inherits_iff (h : env.OneKind known) (hc : known c) (hcarray : c.isArray = false)
    (target : ClassRef) : env.inherits c target = true ↔ ∃ n, env.RawPath (n + 1) c target :=
  inherits_iff_of_faithful (h.faithful target) (ancestry_ne_outOfSteps_of_named target hcarray) hc

/-! ## The rules for each pair of forms -/

section

variable {name name' : String} {kind kind' : ClassKind}

theorem isSubclass_array_named : env.isSubclass (.array name c) (.named name' kind') = true ↔
    (ClassRef.array name c == .named name' kind') = true ∨
      (ClassRef.named name' kind').isPrimitive = false ∧
        ((ClassRef.named name' kind').isObject = true ∨
          name' = ClassRef.cloneableName ∨ name' = ClassRef.serializableName) := by
  rw [isSubclass.eq_def]
  cases (ClassRef.array name c == .named name' kind') <;>
    cases (ClassRef.named name' kind').isPrimitive <;>
      cases (ClassRef.named name' kind').isObject <;> simp [ClassRef.isPrimitive]

theorem isSubclass_named_array (hobject : (ClassRef.array name' d).isObject = false) :
    env.isSubclass (.named name kind) (.array name' d) = true ↔
      (ClassRef.named name kind == .array name' d) = true := by
  rw [isSubclass.eq_def, hobject]
  simp

theorem isSubclass_named : env.isSubclass (.named name kind) (.named name' kind') = true ↔
    (ClassRef.named name kind == .named name' kind') = true ∨
      (ClassRef.named name kind).isPrimitive = false ∧
        (ClassRef.named name' kind').isPrimitive = false ∧
          ((ClassRef.named name' kind').isObject = true ∨
            env.inherits (.named name kind) (.named name' kind') = true) := by
  rw [isSubclass.eq_def]
  cases (ClassRef.named name kind == .named name' kind') <;>
    cases (ClassRef.named name kind).isPrimitive <;>
      cases (ClassRef.named name' kind').isPrimitive <;>
        cases (ClassRef.named name' kind').isObject <;> simp

end

theorem isPlain_named {name : String} {kind : ClassKind}
    (h : (ClassRef.named name kind).isPrimitive = false) :
    (ClassRef.named name kind).isPlain = true :=
  ClassRef.isPlain_iff.mpr ⟨rfl, h⟩

section

variable (h : env.OneKind known)

include h

/-- No array class has the name of the root class. -/
theorem OneKind.isObject_array {name : String} (hc : known (.array name c)) :
    (ClassRef.array name c).isObject = false := by
  rw [← Bool.not_eq_true]
  intro hobject
  cases h.eq_object hc hobject

theorem OneKind.below_of_isSubclass (hc : known c) (hd : known d)
    (hsub : env.isSubclass c d = true) : env.ClassBelow c d := by
  induction c generalizing d with
  | named name kind =>
      cases d with
      | named name' kind' =>
          rcases isSubclass_named.mp hsub with hsame | ⟨hcprim, hdprim, hobject | hinherits⟩
          · exact .same hsame
          · exact .root hcprim hdprim hobject
          · obtain ⟨n, hpath⟩ := (h.inherits_iff hc rfl _).mp hinherits
            exact .path (isPlain_named hcprim) (isPlain_named hdprim) hpath
      | array name' component =>
          exact .same ((isSubclass_named_array (h.isObject_array hd)).mp hsub)
  | array name component ih =>
      cases d with
      | named name' kind' =>
          rcases isSubclass_array_named.mp hsub with hsame | ⟨hdprim, hobject | hname⟩
          · exact .same hsame
          · exact .root rfl hdprim hobject
          · exact .arrayTop hname
      | array name' component' =>
          rcases (isSubclass_arrays (h.isObject_array hd)).mp hsub with
            hname | ⟨hcprim, hdprim, hsub⟩
          · exact .same (ClassRef.beq_iff_name.mpr hname)
          · exact .arrays hcprim hdprim
              (ih (h.component _ hc _ rfl) (h.component _ hd _ rfl) hsub)

theorem OneKind.isSubclass_of_below (hc : known c) (hd : known d) (hcd : env.ClassBelow c d) :
    env.isSubclass c d = true := by
  induction hcd with
  | same hsame => exact isSubclass_of_name (ClassRef.beq_iff_name.mp hsame)
  | root hcprim hdprim hobject => exact isSubclass_object hcprim hdprim hobject
  | arrays hcprim hdprim _ ih =>
      have hsub := ih (h.component _ hc _ rfl) (h.component _ hd _ rfl)
      exact (isSubclass_arrays (h.isObject_array hd)).mpr (Or.inr ⟨hcprim, hdprim, hsub⟩)
  | arrayTop hname => exact isSubclass_arrayTop rfl (h.mem_arrayTops hd hname)
  | @path c d n hcplain hdplain hpath =>
      obtain ⟨hcarray, hcprim⟩ := ClassRef.isPlain_iff.mp hcplain
      obtain ⟨hdarray, hdprim⟩ := ClassRef.isPlain_iff.mp hdplain
      have hinherits := (h.inherits_iff hc hcarray d).mpr ⟨n, hpath⟩
      obtain ⟨name, kind, rfl⟩ := ClassRef.exists_named hcarray
      obtain ⟨name', kind', rfl⟩ := ClassRef.exists_named hdarray
      exact isSubclass_named.mpr (Or.inr ⟨hcprim, hdprim, Or.inr hinherits⟩)

/-! ## Transitivity -/

theorem OneKind.trans_path (hc : known c) (hd : known d) {m : Nat} (hcd : env.RawPath m c d)
    (hde : env.RawPath n d e) : env.RawPath (m + n) c e := by
  induction m generalizing c with
  | zero =>
      rw [Nat.zero_add, h.unique hc hd hcd]
      exact hde
  | succ m ih =>
      obtain ⟨above, habove, hpath⟩ := hcd
      rw [Nat.succ_add]
      exact ⟨above, habove, ih (h.above habove) hpath⟩

omit h in
/-- Above a class without edges are only itself and the root class. -/
theorem below_of_top (hnone : ∀ top ∈ arrayTops, env.classes.directSupertypes top = [])
    (htop : d ∈ arrayTops) (hde : env.ClassBelow d e) : (d == e) = true ∨
      (e.isPrimitive = false ∧ e.isObject = true) := by
  have harray := (ClassRef.isPlain_iff.mp (arrayTop_isPlain htop)).1
  cases hde with
  | same hsame => exact Or.inl hsame
  | root _ heprim hobject => exact Or.inr ⟨heprim, hobject⟩
  | arrays _ _ _ => cases harray
  | arrayTop _ => cases harray
  | path _ _ hpath =>
      obtain ⟨above, habove, -⟩ := hpath
      rw [rawSupertypes, hnone d htop] at habove
      cases habove

theorem OneKind.below_trans (hnone : ∀ top ∈ arrayTops, env.classes.directSupertypes top = [])
    (hc : known c) (hd : known d) (he : known e) (hcd : env.ClassBelow c d)
    (hde : env.ClassBelow d e) : env.ClassBelow c e := by
  induction hcd generalizing e with
  | same hsame =>
      rw [h.unique hc hd (ClassRef.beq_iff_name.mp hsame)]
      exact hde
  | @root c d hcprim hdprim hobject =>
      obtain rfl := h.eq_object hd hobject
      rcases below_of_top hnone List.mem_cons_self hde with hsame | ⟨heprim, hobject⟩
      · rw [← h.unique hd he (ClassRef.beq_iff_name.mp hsame)]
        exact .root hcprim hdprim hobject
      · exact .root hcprim heprim hobject
  | @arrays name name' c d hcprim hdprim hcd ih =>
      cases hde with
      | same hsame =>
          rw [← h.unique hd he (ClassRef.beq_iff_name.mp hsame)]
          exact .arrays hcprim hdprim hcd
      | root _ heprim hobject => exact .root rfl heprim hobject
      | arrays _ heprim hde =>
          exact .arrays hcprim heprim (ih (h.component _ hc _ rfl) (h.component _ hd _ rfl)
            (h.component _ he _ rfl) hde)
      | arrayTop hname => exact .arrayTop hname
      | path hdplain _ _ => cases hdplain
  | @arrayTop name c d hname =>
      rcases below_of_top hnone (h.mem_arrayTops hd hname) hde with hsame | ⟨heprim, hobject⟩
      · rw [← h.unique hd he (ClassRef.beq_iff_name.mp hsame)]
        exact .arrayTop hname
      · exact .root rfl heprim hobject
  | @path c d n hcplain hdplain hpath =>
      have hcprim := (ClassRef.isPlain_iff.mp hcplain).2
      cases hde with
      | same hsame =>
          rw [← h.unique hd he (ClassRef.beq_iff_name.mp hsame)]
          exact .path hcplain hdplain hpath
      | root _ heprim hobject => exact .root hcprim heprim hobject
      | arrays _ _ _ => cases hdplain
      | arrayTop _ => cases hdplain
      | path _ heplain hpath' =>
          have hjoined := h.trans_path hc hd hpath hpath'
          exact .path (n := n + 1 + _) hcplain heplain hjoined

end

/-- A class is below another one exactly by the rules, in registries with circles and with edges
to array classes and primitives, too. Where nothing is declared above the three classes above all
arrays, the order is transitive, whatever the other edges lead to. -/
theorem isSubclass_iff_below (h : env.OneKind known) :
    (∀ c d, known c → known d → (env.isSubclass c d = true ↔ env.ClassBelow c d)) ∧
      ((∀ top ∈ arrayTops, env.classes.directSupertypes top = []) →
        ∀ c d e, known c → known d → known e → env.isSubclass c d = true →
          env.isSubclass d e = true → env.isSubclass c e = true) := by
  refine ⟨fun c d hc hd => ⟨h.below_of_isSubclass hc hd, h.isSubclass_of_below hc hd⟩, ?_⟩
  intro hnone c d e hc hd he hcd hde
  have hbelow := h.below_trans hnone hc hd he (h.below_of_isSubclass hc hd hcd)
    (h.below_of_isSubclass hd he hde)
  exact h.isSubclass_of_below hc he hbelow

/-! ## A circle -/

def ringClass : ClassRef := .named "Ring" .interface

def loopClass : ClassRef := .named "Loop" .interface

/-- Two interfaces that extend each other; one of them extends the arrays of the other, too. -/
def ringEnv : Env :=
  ⟨[(ClassDecl.of ringClass).implementing (.cls loopClass),
    ((ClassDecl.of loopClass).implementing (.cls ringClass)).implementing
      (.cls (.arrayOf ringClass))].foldl Registry.register .core, .empty⟩

def ringClasses : List ClassRef :=
  arrayTops ++ [ringClass, loopClass, .arrayOf ringClass, .arrayOf loopClass, .arrayOf .cloneable]

theorem ringEnv_oneKind : ringEnv.OneKind (· ∈ ringClasses) where
  tops _ hc := List.mem_append_left _ hc
  edges := by
    rw [show ringEnv.rawEdges = [ringClass, .arrayOf ringClass, loopClass] from rfl]
    simp [ringClasses]
  component := by
    simp [ringClasses, ClassRef.component?, ClassRef.object, ClassRef.cloneable,
      ClassRef.serializable, ringClass, loopClass, ClassRef.arrayOf]
  sameKind := by
    have hkinds : ∀ c ∈ ringClasses, ∀ d ∈ ringClasses, (c == d) = true → c.sameKind d = true := by
      decide
    exact fun c d hc hd => hkinds c hc d hd

/-- Above the arrays of a ring is what is above the arrays of a loop, where a path of edges
through an array class leads from a loop to an interface of all arrays. -/
theorem isSubclass_iff_below_ring :
    ringEnv.ClassBelow loopClass .cloneable ∧
      ringEnv.isSubclass (.arrayOf ringClass) (.arrayOf .cloneable) = true ∧
      ¬ringEnv.ClassBelow ringClass (.arrayOf ringClass) := by
  obtain ⟨hiff, htrans⟩ := isSubclass_iff_below ringEnv_oneKind
  have hring : ringClass ∈ ringClasses := by simp [ringClasses]
  have hloop : loopClass ∈ ringClasses := by simp [ringClasses]
  have htop : ClassRef.cloneable ∈ ringClasses := by simp [ringClasses]
  have hrings : ClassRef.arrayOf ringClass ∈ ringClasses := by simp [ringClasses]
  refine ⟨(hiff loopClass .cloneable hloop htop).mp (by decide), ?_, fun hbelow => ?_⟩
  · refine htrans ?_ (.arrayOf ringClass) (.arrayOf loopClass) (.arrayOf .cloneable) hrings
      (by simp [ringClasses]) (by simp [ringClasses]) (by decide) (by decide)
    simp only [List.forall_mem_cons]
    exact ⟨rfl, rfl, rfl, List.forall_mem_nil _⟩
  · exact absurd ((hiff ringClass (.arrayOf ringClass) hring hrings).mpr hbelow) (by decide)

end Env

end Generics
