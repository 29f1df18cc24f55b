import Generics.Proofs.Descent

/-!
The closure of a token that is not open is exact. Collecting adds elements of
ancestors only, and the elements above an element are members when it becomes
one. So the closure has one element for each ancestor that the type can be seen
as, and it has no other.

A primitive and an array can be seen as few of the classes that declared edges
lead to: a primitive as none but itself, an array as the three classes above
all arrays, whatever edges are declared for these.
-/

namespace Generics.Token

open Env

variable {env : Env} {origin e e' x : Token} {c d d' : ClassRef}

/-! ## Elements of one class -/

section

variable (hplain : env.classes.PlainEdges) (hopen : env.upperBounds? origin.type = none)
  (hacyclic : ∀ n, ¬env.RawPath (n + 1) (origin.rawType env) (origin.rawType env))

include hplain hopen hacyclic

/-- Elements of equal types are of one ancestor. -/
theorem Ancestor.name_of_element (hd : Ancestor env origin d) (hd' : Ancestor env origin d')
    (he : origin.elementAt? env d = some e) (he' : origin.elementAt? env d' = some e')
    (hsame : (e.type == e'.type) = true) : d.name = d'.name := by
  obtain ⟨r, hr, hname⟩ := hd.raw_of_element hplain hopen hacyclic he
  obtain ⟨r', hr', hname'⟩ := hd'.raw_of_element hplain hopen hacyclic he'
  obtain ⟨r'', hr'', hsameName⟩ := raw?_of_same hsame hr
  obtain rfl : r' = r'' := Option.some.inj (hr'.symm.trans hr'')
  exact hname.symm.trans (hsameName.trans hname')

end

/-! ## What collecting keeps -/

/-- Tokens collected for ancestors of a token: elements, and with each of them
the elements above it. -/
structure Collected (env : Env) (origin : Token) (members : List (Token × Nat)) : Prop where
  element : ∀ m ∈ members, ∃ d, Ancestor env origin d ∧ origin.elementAt? env d = some m.1
  closed : ∀ m ∈ members, ∀ d, Ancestor env origin d → origin.elementAt? env d = some m.1 →
    ∀ above ∈ env.rawSupertypes d, ∀ e, origin.elementAt? env above = some e →
      ∃ m' ∈ members, m'.1 = e

/-- The element of a class, if there is one, is a member. -/
def HasElement (env : Env) (origin : Token) (d : ClassRef) (members : List (Token × Nat)) :
    Prop :=
  ∀ e, origin.elementAt? env d = some e → ∃ m ∈ members, m.1 = e

section

variable (hplain : env.classes.PlainEdges) (hopen : env.upperBounds? origin.type = none)
  (hacyclic : ∀ n, ¬env.RawPath (n + 1) (origin.rawType env) (origin.rawType env))

include hplain hopen hacyclic

theorem Collected.push {members : List (Token × Nat)} {level : Nat}
    (h : Collected env origin members) (hd : Ancestor env origin d)
    (he : origin.elementAt? env d = some e)
    (habove : ∀ above ∈ env.rawSupertypes d, HasElement env origin above members) :
    Collected env origin (members ++ [(e, level)]) where
  element := by
    intro m hm
    rcases List.mem_append.mp hm with hold | hnew
    · exact h.element m hold
    · obtain rfl := List.mem_singleton.mp hnew
      exact ⟨d, hd, he⟩
  closed := by
    intro m hm d' hd' he' above hedge u hu
    have hmember : ∃ m' ∈ members, m'.1 = u := by
      rcases List.mem_append.mp hm with hold | hnew
      · exact h.closed m hold d' hd' he' above hedge u hu
      · obtain rfl := List.mem_singleton.mp hnew
        have hname := hd'.name_of_element hplain hopen hacyclic hd he' he BEq.rfl
        rw [rawSupertypes, Registry.directSupertypes_of_name
          (hd'.isArray hplain) (hd.isArray hplain) hname] at hedge
        exact habove above hedge u hu
    obtain ⟨m', hm', rfl⟩ := hmember
    exact ⟨m', List.mem_append_left _ hm', rfl⟩

/-- Collecting keeps what was collected closed, and brings in the element of each
ancestor. -/
theorem descent_collected :
    Descent env origin (Collected env origin) (fun d _ => HasElement env origin d) where
  mono := by
    intro d _ members members' hQ hprefix e he
    obtain ⟨m, hm, rfl⟩ := hQ e he
    exact ⟨m, hprefix.subset hm, rfl⟩
  missing := by
    intro d members _ hnone _ e he
    rw [hnone] at he
    cases he
  known := by
    intro d e member members hd he hP hmember hsame e' he'
    obtain rfl : e = e' := Option.some.inj (he.symm.trans he')
    obtain ⟨d', hd', he''⟩ := hP.element member hmember
    have hname := hd'.name_of_element hplain hopen hacyclic hd he'' he hsame
    rw [elementAt?_congr hopen (hd'.plain hplain) (hd.plain hplain) hname, he] at he''
    exact ⟨member, hmember, (Option.some.inj he'').symm⟩
  new := by
    intro d e levels members hd he hP hlevels
    refine ⟨hP.push hplain hopen hacyclic hd he fun above habove => ?_, fun e' he' => ?_⟩
    · obtain ⟨edge, hedge, rfl⟩ := exists_edge habove
      obtain ⟨-, -, hmember⟩ := forall₂_mem_left hlevels hedge
      exact hmember
    · obtain rfl : e = e' := Option.some.inj (he.symm.trans he')
      exact ⟨_, List.mem_append_right _ List.mem_cons_self, rfl⟩

omit hplain hopen hacyclic in
/-- Where every ancestor has an element, the members have the elements of all. -/
theorem Collected.hasElement {members : List (Token × Nat)} (h : Collected env origin members)
    (hedges : ∀ above ∈ env.rawSupertypes (origin.rawType env),
      HasElement env origin above members)
    (helements : ∀ d, Ancestor env origin d → ∃ e, origin.elementAt? env d = some e)
    (hd : Ancestor env origin d) : HasElement env origin d members := by
  induction hd with
  | edge habove => exact hedges _ habove
  | step hbelow habove ih =>
      obtain ⟨e, he⟩ := helements _ hbelow
      obtain ⟨m, hm, rfl⟩ := ih e he
      exact h.closed m hm _ hbelow he _ habove

end

/-! ## The closure -/

section

variable {token : Token}

theorem nodup_closure (env : Env) (token : Token) : (token.closure env).types.Nodup := by
  rw [closure, (Closure.byLevel_perm _).nodup_iff, List.nodup_iff_pairwise_ne, List.pairwise_map]
  refine (tidy_collection env token).distinct.imp fun hne heq => ?_
  rw [heq, BEq.rfl] at hne
  cases hne

/-- A type that is the only one of its class in a closure is there once. -/
theorem filter_closure (hx : x ∈ (token.closure env).types)
    (hclass : (x.rawType env).name = d.name)
    (honly : ∀ y ∈ (token.closure env).types, (y.rawType env).name = d.name → y = x) :
    (token.closure env).types.filter (fun y => y.rawType env == d) = [x] := by
  refine List.perm_singleton.mp ((List.perm_ext_iff_of_nodup
    ((nodup_closure env token).filter _) (List.nodup_singleton x)).mpr fun y => ?_)
  rw [List.mem_filter, List.mem_singleton, ClassRef.beq_iff_name]
  constructor
  · rintro ⟨hy, hname⟩
    exact honly y hy hname
  · rintro rfl
    exact ⟨hx, hclass⟩

section

variable (hplain : env.classes.PlainEdges) (hopen : env.upperBounds? token.type = none)
  (hacyclic : ∀ n, ¬env.RawPath (n + 1) (token.rawType env) (token.rawType env))

include hplain hopen hacyclic

/-- What a closure is made of. -/
theorem exists_collected (hlow : env.Low Limits.closureDepth (token.rawType env))
    (hattempts : (token.collection env).guard.attempts ≤ Limits.attempts) :
    ∃ members, Collected env token members ∧
      (∀ above ∈ env.rawSupertypes (token.rawType env), HasElement env token above members) ∧
      ∀ x, x ∈ (token.closure env).types ↔ x = token ∨ ∃ m ∈ members, m.1 = x := by
  have hstart : Collected env token [] :=
    ⟨fun _ h => absurd h List.not_mem_nil, fun _ h => absurd h List.not_mem_nil⟩
  obtain ⟨members, levels, hmembers, hcollected, hlevels, -⟩ :=
    (descent_collected hplain hopen hacyclic).collection hplain hopen hacyclic hlow hattempts hstart
  refine ⟨members, hcollected, fun above habove => ?_, fun x => ?_⟩
  · obtain ⟨edge, hedge, rfl⟩ := exists_edge habove
    obtain ⟨-, -, hmember⟩ := forall₂_mem_left hlevels hedge
    exact hmember
  · rw [closure, (Closure.byLevel_perm _).mem_iff, hmembers]
    simp [or_comm]

/-- An element in a closure is the only one of its class there. -/
theorem filter_closure_element {members : List (Token × Nat)}
    (hcollected : Collected env token members)
    (hmem : ∀ x, x ∈ (token.closure env).types ↔ x = token ∨ ∃ m ∈ members, m.1 = x)
    (hc : Ancestor env token c) (hname : c.name = d.name)
    (he : token.elementAt? env c = some e) (hmember : ∃ m ∈ members, m.1 = e) :
    (token.closure env).types.filter (fun y => y.rawType env == d) = [e] := by
  have hclass := (hc.rawType_of_element hplain hopen hacyclic he).trans hname
  refine filter_closure ((hmem e).mpr (Or.inr hmember)) hclass fun y hy hyname => ?_
  rcases (hmem y).mp hy with rfl | ⟨m, hm, rfl⟩
  · exact absurd (hyname.trans hname.symm) (hc.name_ne hplain hacyclic)
  · obtain ⟨c', hc', he'⟩ := hcollected.element m hm
    have hsame := (hc'.rawType_of_element hplain hopen hacyclic he').symm.trans
      (hyname.trans hname.symm)
    rw [elementAt?_congr hopen (hc'.plain hplain) (hc.plain hplain) hsame, he] at he'
    exact (Option.some.inj he').symm

end

/-- The closure of a token that is not open holds the token and, of the other
classes that declared edges lead to, one element each, which is the token seen
as that class. Only a primitive and an array cannot be seen as all of them. -/
theorem closure_exact (hplain : env.classes.PlainEdges)
    (hopen : env.upperBounds? token.type = none)
    (hacyclic : ∀ n, ¬env.RawPath (n + 1) (token.rawType env) (token.rawType env))
    (hchains : ∀ d, ¬env.RawPath 64 (token.rawType env) d)
    (hattempts : (token.collection env).guard.attempts ≤ Limits.attempts)
    (huncut : env.Uncut token.type) :
    (token.closure env).types.filter (fun x => x.rawType env == token.rawType env) = [token] ∧
    (∀ x ∈ (token.closure env).types, x = token ∨ ∃ n d, d.isPlain = true ∧
      env.RawPath n (token.rawType env) d ∧ (token.rawType env).name ≠ d.name ∧
      token.supertype env d = .ok x ∧
      (token.closure env).types.filter (fun y => y.rawType env == d) = [x]) ∧
    ∀ n d, d.isPlain = true → env.RawPath n (token.rawType env) d →
      (token.rawType env).name ≠ d.name →
      ((token.rawType env).isPlain = true ∨
        ((token.rawType env).isArray = true ∧ env.rawTypes token.type ≠ [] ∧ d ∈ arrayTops)) →
      ∃ u, token.supertype env d = .ok u ∧
        (token.closure env).types.filter (fun y => y.rawType env == d) = [u] := by
  obtain ⟨members, hcollected, hedges, hmem⟩ :=
    exists_collected hplain hopen hacyclic hchains hattempts
  refine ⟨?_, ?_, ?_⟩
  · refine filter_closure ((hmem token).mpr (Or.inl rfl)) rfl fun y hy hname => ?_
    rcases (hmem y).mp hy with rfl | ⟨m, hm, rfl⟩
    · rfl
    · obtain ⟨d, hd, he⟩ := hcollected.element m hm
      have hclass := hd.rawType_of_element hplain hopen hacyclic he
      exact absurd (hname.symm.trans hclass) (hd.name_ne hplain hacyclic)
  · intro x hx
    rcases (hmem x).mp hx with rfl | ⟨m, hm, rfl⟩
    · exact Or.inl rfl
    · right
      obtain ⟨d, hd, he⟩ := hcollected.element m hm
      obtain ⟨n, hpath⟩ := hd.path hplain
      have hne := hd.name_ne hplain hacyclic
      exact ⟨n + 1, d, hd.plain hplain, hpath, hne, (elementAt?_iff hne).mp he,
        filter_closure_element hplain hopen hacyclic hcollected hmem hd rfl he ⟨m, hm, rfl⟩⟩
  · intro n d hd hpath hne hvisible
    have hmember : ∃ a, Ancestor env token a ∧ a.name = d.name ∧
        ∃ e, token.elementAt? env a = some e ∧ ∃ m ∈ members, m.1 = e := by
      rcases hvisible with hc | ⟨harray, hraws, htop⟩
      · have helements : ∀ a, Ancestor env token a → ∃ e, token.elementAt? env a = some e :=
          fun a ha => ha.exists_element hplain hopen hc huncut
        cases n with
        | zero => exact absurd hpath hne
        | succ n =>
            obtain ⟨a, ha, hname⟩ := exists_ancestor hpath
            obtain ⟨e, he⟩ := helements a ha
            exact ⟨a, ha, hname, e, he, hcollected.hasElement hedges helements ha e he⟩
      · have hedge : d ∈ env.rawSupertypes (token.rawType env) := by
          rw [rawSupertypes_array harray]
          exact htop
        obtain ⟨e, he⟩ := elementAt?_arrayTop hopen harray hraws htop
        exact ⟨d, .edge hedge, rfl, e, he, hedges d hedge e he⟩
    obtain ⟨a, ha, hname, e, he, hmember⟩ := hmember
    have he' := he
    rw [elementAt?_congr hopen (ha.plain hplain) hd hname] at he'
    exact ⟨e, (elementAt?_iff hne).mp he',
      filter_closure_element hplain hopen hacyclic hcollected hmem ha hname he hmember⟩

end

/-- The list interface of a list of strings is in the closure once. -/
theorem closure_exact_arrayList : ∃ u,
    (ofType stringList).supertype listEnv listClass = .ok u ∧
      ((ofType stringList).closure listEnv).types.filter
        (fun x => x.rawType listEnv == listClass) = [u] := by
  have hplain : listEnv.classes.PlainEdges := by decide
  have hlow : listEnv.Low 64 arrayListClass := low_of_rank
    (fun name => if name == arrayListClass.name then 1 else 0) hplain (by decide) rfl (by decide)
  obtain ⟨-, -, hall⟩ := @closure_exact listEnv (ofType stringList) hplain rfl
    (hlow.acyclic hplain rfl) hlow (by decide) fun _ d _ _ _ =>
      viewAs_ne_outOfSteps (t := stringList) hplain rfl rfl stringList_coherent
        (edgesBelow_of_edgeBound (by decide)) d
  exact hall 1 listClass rfl ⟨listClass, List.mem_cons_of_mem _ List.mem_cons_self, rfl⟩
    (by decide) (Or.inl rfl)

/-- A primitive is not seen as the class that it extends. -/
theorem closure_primitive : ¬∀ (env : Env) (token : Token), env.classes.PlainEdges →
    env.upperBounds? token.type = none →
    (∀ n, ¬env.RawPath (n + 1) (token.rawType env) (token.rawType env)) →
    (∀ d, ¬env.RawPath 64 (token.rawType env) d) →
    (token.collection env).guard.attempts ≤ Limits.attempts →
    env.Uncut token.type →
    ∀ n d, d.isPlain = true → env.RawPath n (token.rawType env) d →
      (token.rawType env).name ≠ d.name →
      ∃ u, token.supertype env d = .ok u ∧
        (token.closure env).types.filter (fun x => x.rawType env == d) = [u] := by
  intro hclaim
  have hplain : intEnv.classes.PlainEdges := by decide
  have hlow : intEnv.Low 64 Primitive.int.toClass := low_of_rank
    (fun name => if name == Primitive.int.toClass.name then 2
      else if name == numberClass.name then 1 else 0) hplain (by decide) rfl (by decide)
  obtain ⟨u, hu, -⟩ := hclaim intEnv (ofType intType) hplain rfl
    (hlow.acyclic hplain rfl) hlow (by decide)
    (fun _ d _ _ _ => viewAs_ne_outOfSteps (t := intType) hplain rfl rfl intType_coherent
      (edgesBelow_of_edgeBound (by decide)) d)
    1 numberClass rfl ⟨numberClass, List.mem_cons_self, rfl⟩ (by decide)
  have hfails : ((ofType intType).supertype intEnv numberClass).isOk = false := by decide
  rw [hu] at hfails
  cases hfails

end Generics.Token
