import Generics.Proofs.Heights

/-!
The order of a closure. Every member is collected at the height of its class,
whatever bound it was collected for, so that by levels no type comes after one
of its supertypes. The levels of arrays go by what is seen above them, and only
as far as this is all that is declared above them do they follow ancestry.
-/

namespace Generics

namespace Token

open Env Vocabulary

variable {env : Env} {w : Vocabulary env} {seen : ClassRef → Bool} {origin e : Token}
  {base : Option Token} {d : ClassRef}

/-! ## Members at the height of their class -/

/-- A member at the height of its class. Beside classes there is at most one
array, the first bound of a type, above the classes that are above all arrays. -/
structure Placed (w : Vocabulary env) (seen : ClassRef → Bool) (base : Option Token)
    (m : Token × Nat) : Prop where
  writes : w.Writes m.1.type
  plain : (m.1.rawType env).isPlain = true →
    env.Low Limits.closureDepth (m.1.rawType env) ∧ seen (m.1.rawType env) = true ∧
      m.2 = env.height seen (m.1.rawType env)
  array : (m.1.rawType env).isArray = true →
    base = some m.1 ∧ ∀ top ∈ arrayTops, env.height seen top < m.2

theorem Placed.isClass {m : Token × Nat} (h : Placed w seen base m) :
    w.isClass (m.1.rawType env) :=
  erase_writes h.writes

/-- By levels no member comes after one of its supertypes. -/
theorem Placed.order {a b : Token × Nat} (hfalling : Falling w seen)
    (ha : Placed w seen base a) (hb : Placed w seen base b) (hle : b.2 ≤ a.2)
    (hne : (a.1.rawType env == b.1.rawType env) = false) :
    env.isSubclass (b.1.rawType env) (a.1.rawType env) = false := by
  have hname : (b.1.rawType env).name ≠ (a.1.rawType env).name := by
    intro hname
    rw [ClassRef.beq_iff_name.mpr hname.symm] at hne
    cases hne
  rw [← Bool.not_eq_true]
  intro hsub
  obtain ⟨hbprimitive, haprimitive⟩ := isPrimitive_of_isSubclass hsub hname
  cases haarray : (a.1.rawType env).isArray with
  | true =>
      cases hbarray : (b.1.rawType env).isArray with
      | true =>
          have hsame := (ha.array haarray).1.symm.trans (hb.array hbarray).1
          rw [Option.some.inj hsame] at hname
          exact hname rfl
      | false =>
          rw [Subtyping.not_isSubclass_array ha.isClass haarray hb.isClass hbarray] at hsub
          cases hsub
  | false =>
      obtain ⟨-, haseen, halevel⟩ := ha.plain (ClassRef.isPlain_iff.mpr ⟨haarray, haprimitive⟩)
      cases hbarray : (b.1.rawType env).isArray with
      | true =>
          have htop := (Subtyping.isSubclass_array_plain hb.isClass hbarray ha.isClass
            haarray).mp hsub
          have habove := (hb.array hbarray).2 _ htop
          omega
      | false =>
          obtain ⟨hblow, hbseen, hblevel⟩ :=
            hb.plain (ClassRef.isPlain_iff.mpr ⟨hbarray, hbprimitive⟩)
          have hdown := hfalling _ _ hb.isClass ha.isClass
            (ClassRef.isPlain_iff.mpr ⟨hbarray, hbprimitive⟩)
            (ClassRef.isPlain_iff.mpr ⟨haarray, haprimitive⟩) hblow hbseen haseen
            (fun h => hname (congrArg ClassRef.name h)) hsub
          omega

theorem Ancestor.isClass (ho : w.Writes origin.type) (h : Ancestor env origin d) :
    w.isClass d := by
  induction h with
  | edge h => exact isClass_above (erase_writes ho) h
  | step _ h ih => exact isClass_above ih h

/-- The class of a token is not among its ancestors. -/
theorem not_rawPath_self (hplain : env.classes.PlainEdges) (ho : w.Writes origin.type) {k : Nat}
    (hlow : env.Low k (origin.rawType env)) (n : Nat) :
    ¬env.RawPath (n + 1) (origin.rawType env) (origin.rawType env) := by
  intro hpath
  cases harray : (origin.rawType env).isArray with
  | false => exact hlow.acyclic hplain harray n hpath
  | true =>
      obtain ⟨a, ha, hname⟩ := exists_ancestor hpath
      have hsame := class_unique (ha.isClass ho) (erase_writes ho) hname
      have haarray := ha.isArray hplain
      rw [hsame] at haarray
      exact absurd (harray.symm.trans haarray) (by decide)

theorem element_writes (hopen : env.upperBounds? origin.type = none) (ho : w.Writes origin.type)
    (hd : d.isArray = false) (he : origin.elementAt? env d = some e) :
    w.Writes e.type := by
  by_cases hname : (origin.rawType env).name = d.name
  · rw [elementAt?_of_name hname] at he
    rw [← Option.some.inj he]
    exact ho
  · obtain ⟨u, hu, rfl⟩ := supertype_iff.mp ((elementAt?_iff hname).mp he)
    have hview := ((supertype_closed_iff hopen hd).mp hu).2
    exact view_writes ho (view_of_viewAs (viewStep_faithful d) (viewStart_writes ho) hview)

section

variable (hplain : env.classes.PlainEdges) (hopen : env.upperBounds? origin.type = none)
  (ho : w.Writes origin.type)

include hplain hopen ho

/-- The class of an element is the ancestor that it was looked for as. -/
theorem Ancestor.rawType_eq {k : Nat} (hlow : env.Low k (origin.rawType env))
    (hd : Ancestor env origin d) (he : origin.elementAt? env d = some e) :
    e.rawType env = d := by
  have hname := hd.rawType_of_element hplain hopen (not_rawPath_self hplain ho hlow) he
  exact class_unique (erase_writes (element_writes hopen ho (hd.isArray hplain) he))
    (hd.isClass ho) hname

/-- Collecting places every element at the height of its class. -/
theorem descent_placed (hlow : env.Low Limits.closureDepth (origin.rawType env))
    (hseen : ∀ d, Ancestor env origin d → (origin.elementAt? env d).isSome = seen d) :
    Descent env origin (fun members => ∀ m ∈ members, Placed w seen base m)
      (fun d level _ => level = env.height seen d) where
  mono := fun hlevel _ => hlevel
  missing := by
    intro d members hd hnone _
    have hhidden := hseen d hd
    rw [hnone] at hhidden
    exact (height_of_hidden hhidden.symm).symm
  known := by
    intro d e member members hd he hP hmember hsame
    have hewrites := element_writes hopen ho (hd.isArray hplain) he
    have hplaced := hP member hmember
    have hraw : member.1.rawType env = d := by
      rw [← hd.rawType_eq hplain hopen ho hlow he]
      exact erase_alike ⟨hplaced.writes, hewrites, hsame⟩
    obtain ⟨-, -, hlevel⟩ := hplaced.plain (by rw [hraw]; exact hd.plain hplain)
    rw [hlevel, hraw]
  new := by
    intro d e levels members hd he hP hlevels
    have hraw := hd.rawType_eq hplain hopen ho hlow he
    have hdseen : seen d = true := by
      rw [← hseen d hd, he]
      rfl
    have hlevel := height_of_levels (hd.low hlow) hdseen hlevels
    refine ⟨fun m hm => ?_, hlevel⟩
    rcases List.mem_append.mp hm with hold | hnew
    · exact hP m hold
    · obtain rfl := List.mem_singleton.mp hnew
      refine ⟨element_writes hopen ho (hd.isArray hplain) he, fun _ => ?_, fun harray => ?_⟩
      · rw [hraw]
        exact ⟨hd.low hlow, hdseen, hlevel⟩
      · rw [hraw, hd.isArray hplain] at harray
        cases harray

end

/-! ## The order of a closure -/

/-- Two types in an order in which no type comes after one of its supertypes. -/
def Precedes (env : Env) (x y : Token) : Prop :=
  (x.rawType env == y.rawType env) = false →
    env.isSubclass (y.rawType env) (x.rawType env) = false

/-- A token on a level above all other members comes first, and the members come
in the order of their heights. -/
theorem order_of_placed {token : Token} {members : List (Token × Nat)} {level : Nat}
    (hmembers : (token.collection env).members = members ++ [(token, level + 1)])
    (hle : ∀ m ∈ members, m.2 ≤ level) (hfalling : Falling w seen)
    (hplaced : ∀ m ∈ members, Placed w seen base m) :
    ∃ rest, (token.closure env).types = token :: rest ∧ rest.Pairwise (Precedes env) := by
  rw [closure, hmembers]
  refine ⟨_, Closure.byLevel_top hle token, Closure.atLevels_pairwise ?_ ?_⟩
  · exact List.pairwise_reverse.mpr List.pairwise_lt_range
  · intro a ha b hb hbelow hne
    exact (hplaced a ha).order hfalling (hplaced b hb) hbelow hne

theorem order_of_closed (hplain : env.classes.PlainEdges)
    (hopen : env.upperBounds? origin.type = none) (ho : w.Writes origin.type)
    (hlow : env.Low Limits.closureDepth (origin.rawType env))
    (hattempts : (origin.collection env).guard.attempts ≤ Limits.attempts)
    (hseen : ∀ d, Ancestor env origin d → (origin.elementAt? env d).isSome = seen d)
    (hfalling : Falling w seen) :
    ∃ rest, (origin.closure env).types = origin :: rest ∧ rest.Pairwise (Precedes env) := by
  have hnone : ∀ m ∈ ([] : List (Token × Nat)), Placed w seen none m :=
    fun _ h => absurd h List.not_mem_nil
  obtain ⟨members, levels, hmembers, hplaced, -, hle⟩ :=
    (descent_placed hplain hopen ho hlow hseen).collection hplain hopen
      (not_rawPath_self hplain ho hlow) hlow hattempts hnone
  exact order_of_placed hmembers hle hfalling hplaced

/-! ## What is seen above primitives and arrays -/

section

variable (hopen : env.upperBounds? origin.type = none) (ho : w.Writes origin.type)
  (hd : w.isClass d) (hdplain : d.isPlain = true)

include hopen ho hd hdplain

theorem someRawBelow_of_element (hne : origin.rawType env ≠ d)
    (he : origin.elementAt? env d = some e) : env.someRawBelow origin.type d = true := by
  have hname : (origin.rawType env).name ≠ d.name :=
    fun h => hne (class_unique (erase_writes ho) hd h)
  obtain ⟨u, hu, -⟩ := supertype_iff.mp ((elementAt?_iff hname).mp he)
  exact ((supertype_closed_iff hopen (ClassRef.isPlain_iff.mp hdplain).1).mp hu).1

theorem elementAt?_of_primitive (hprimitive : (origin.rawType env).isPrimitive = true) :
    origin.elementAt? env d = none := by
  obtain ⟨hdarray, hdprimitive⟩ := ClassRef.isPlain_iff.mp hdplain
  have hne : origin.rawType env ≠ d := by
    intro h
    rw [h, hdprimitive] at hprimitive
    cases hprimitive
  cases he : origin.elementAt? env d with
  | none => rfl
  | some e =>
      have hbelow := someRawBelow_of_element hopen ho hd hdplain hne he
      have hraw := raw?_of_closed hopen (isArray_of_primitive hprimitive)
      rw [someRawBelow, rawTypes_of_raw? hraw, List.any_cons, List.any_nil,
        Bool.or_false] at hbelow
      exact absurd (eq_of_primitive_class (erase_writes ho) hd (Or.inl hprimitive) hbelow) hne

theorem arrayTop_of_element (harray : (origin.rawType env).isArray = true)
    (he : origin.elementAt? env d = some e) : d ∈ arrayTops := by
  obtain ⟨hdarray, -⟩ := ClassRef.isPlain_iff.mp hdplain
  have hne : origin.rawType env ≠ d := by
    intro h
    rw [h, hdarray] at harray
    cases harray
  have hbelow := someRawBelow_of_element hopen ho hd hdplain hne he
  obtain ⟨c, hc, hsub⟩ := List.any_eq_true.mp hbelow
  have hraw := rawOf_of_mem _ hc
  exact (Subtyping.isSubclass_array_plain (hraw.isClass ho)
    (isArray_of_rawOf hopen harray hraw) hd hdarray).mp hsub

end

theorem Ancestor.arrayTop (htops : env.TopsClosed) (harray : (origin.rawType env).isArray = true)
    (h : Ancestor env origin d) : d ∈ arrayTops := by
  induction h with
  | edge h =>
      rw [rawSupertypes_array harray] at h
      exact h
  | step _ h ih => exact htops _ ih _ h

/-! ## The bounds of an open token -/

/-- What is asked of a bound whose supertypes are collected: it is not open, its
chains and walks are within the limits, and if it is an array it has a raw type
and everything above arrays is seen. -/
structure Collectable (env : Env) (x : Token) : Prop where
  closed : env.upperBounds? x.type = none
  low : env.Low (Limits.closureDepth - 1) (x.rawType env)
  uncut : env.Uncut x.type
  array : (x.rawType env).isArray = true → env.rawTypes x.type ≠ [] ∧ env.TopsClosed

section

variable {x : Token} (hplain : env.classes.PlainEdges) (hx : Collectable env x)
  (hwrites : w.Writes x.type)

include hplain hx hwrites

/-- All ancestors of a bound are seen, unless it is a primitive, above which nothing is. -/
theorem exists_descent_bound (base : Option Token) : ∃ Q,
    Descent env x (fun members => ∀ m ∈ members, Placed w (fun _ => true) base m) Q ∧
      ((x.rawType env).isPrimitive = false → ∀ d level members, Q d level members →
        level = env.height (fun _ => true) d) := by
  have hlow : env.Low Limits.closureDepth (x.rawType env) := hx.low.mono (Nat.sub_le _ _)
  cases hprimitive : (x.rawType env).isPrimitive with
  | true =>
      have hnone : ∀ d, Ancestor env x d → x.elementAt? env d = none := fun d hd =>
        elementAt?_of_primitive hx.closed hwrites (hd.isClass hwrites) (hd.plain hplain) hprimitive
      refine ⟨fun _ _ _ => True, ⟨fun _ _ => trivial, fun _ _ _ => trivial,
        fun _ _ _ _ _ => trivial, fun hd he _ _ => ?_⟩, fun h => by cases h⟩
      rw [hnone _ hd] at he
      cases he
  | false =>
      refine ⟨_, descent_placed hplain hx.closed hwrites hlow fun d hd => ?_,
        fun _ _ _ _ hlevel => hlevel⟩
      rw [Option.isSome_iff_exists]
      cases harray : (x.rawType env).isArray with
      | true =>
          obtain ⟨hraws, htops⟩ := hx.array harray
          exact elementAt?_arrayTop hx.closed harray hraws (hd.arrayTop htops harray)
      | false =>
          exact hd.exists_element hplain hx.closed
            (ClassRef.isPlain_iff.mpr ⟨harray, hprimitive⟩) hx.uncut

/-- Collecting a bound of an open token places the bound and everything above it. -/
theorem placed_of_bound (hbase : (x.rawType env).isArray = true → base = some x) {s : Collection}
    (hs : ∀ m ∈ s.members, Placed w (fun _ => true) base m)
    (hfree : s.guard.held.contains x.type = false) (hheld : ∀ z ∈ s.guard.held, z.raw? = none)
    (hdepth : Limits.closureDepth - 1 + s.guard.held.length ≤ s.guard.maxDepth)
    (hbudget : s.guard.maxIterations < Limits.countedAttempts)
    (hattempts : ((collect env Limits.closureDepth x).run s).2.guard.attempts ≤
      s.guard.maxIterations) :
    ∀ m ∈ ((collect env Limits.closureDepth x).run s).2.members,
      Placed w (fun _ => true) base m := by
  obtain ⟨Q, hdescent, hQ⟩ := exists_descent_bound hplain hx hwrites base
  have hlow : env.Low Limits.closureDepth (x.rawType env) := hx.low.mono (Nat.sub_le _ _)
  rw [show Limits.closureDepth = Limits.closureDepth - 1 + 1 from rfl,
    collect_closed hx.closed] at hattempts ⊢
  rcases hdescent.recorded hplain hx.closed (not_rawPath_self hplain hwrites hlow)
    (k := Limits.closureDepth - 2) (Limits.closureDepth - 1) (by decide) hx.low hs hfree hheld
    hdepth hbudget hattempts with ⟨level, -, hrun⟩ | ⟨members, levels, hmembers, hplaced, hlevels, -⟩
  · rw [hrun]
    exact hs
  · rw [hmembers]
    intro m hm
    rcases List.mem_append.mp hm with hold | hnew
    · exact hplaced m hold
    · obtain rfl := List.mem_singleton.mp hnew
      refine ⟨hwrites, fun hxplain => ?_, fun harray => ⟨hbase harray, fun top htop => ?_⟩⟩
      · have hheights := hlevels.imp fun edge level h =>
          hQ (ClassRef.isPlain_iff.mp hxplain).2 _ level members h
        exact ⟨hlow, rfl, height_of_levels hlow rfl hheights⟩
      · have hprimitive : (x.rawType env).isPrimitive = false := by
          rw [← Bool.not_eq_true]
          intro h
          rw [isArray_of_primitive h] at harray
          cases harray
        have hedge : top ∈ env.rawSupertypes (x.rawType env) := by
          rw [rawSupertypes_array harray]
          exact htop
        obtain ⟨edge, hmem, rfl⟩ := exists_edge hedge
        obtain ⟨level, hlevel, hheight⟩ := forall₂_mem_left hlevels hmem
        rw [← hQ hprimitive _ _ _ hheight]
        exact Nat.lt_succ_of_le ((Closure.le_foldl_max _ _).2 level hlevel)

end

/-- Collects the bounds of an open token. -/
def collectBounds (env : Env) (token : Token) : CollectM Nat :=
  CollectM.highest
    (fun item => collect env Limits.closureDepth (token.resolveDirect .empty item))
    (baseLevel (token.rawType env))
    (token.directInterfaces env ++ (token.directSuperclass? env).toList)

theorem respects_collectBounds (env : Env) (token : Token) :
    CollectM.Respects (collectBounds env token) :=
  CollectM.respects_highest (fun _ _ => respects_collect _ _) _

section

variable {token x : Token} {bounds : List Ty} (hopen : env.upperBounds? token.type = some bounds)

include hopen

theorem raw?_of_open : token.type.raw? = none := by
  cases ht : token.type with
  | wild _ _ => rfl
  | var _ => rfl
  | _ =>
      rw [ht] at hopen
      cases hopen

theorem beq_of_open (hclosed : env.upperBounds? x.type = none) :
    (x.type == token.type) = false := by
  cases hx : x.type with
  | wild _ _ =>
      rw [hx] at hclosed
      cases hclosed
  | var _ =>
      rw [hx] at hclosed
      cases hclosed
  | _ =>
      cases ht : token.type with
      | wild _ _ => rfl
      | var _ => rfl
      | _ =>
          rw [ht] at hopen
          cases hopen

/-- The direct supertypes of an open token are bounds; the only one that may not be
an interface is its superclass. -/
theorem bound_of_direct {item : DirectSupertype}
    (h : item ∈ token.directInterfaces env ++ (token.directSuperclass? env).toList) :
    token.resolveDirect .empty item ∈ token.interfaces env ++ (token.superclass? env).toList ∧
      ∃ b ∈ bounds, token.resolveDirect .empty item = token.derive b ∧
        ((env.erase b).isInterface = true ∨ token.superclass? env = some (token.derive b)) := by
  rcases List.mem_append.mp h with hinterface | hsuper
  · have hmap := hinterface
    simp only [directInterfaces, hopen] at hinterface
    obtain ⟨b, hb, rfl⟩ := List.mem_map.mp hinterface
    obtain ⟨hmem, hflag⟩ := List.mem_filter.mp hb
    refine ⟨List.mem_append_left _ ?_, b, hmem, rfl, Or.inl hflag⟩
    exact List.mem_map.mpr ⟨.bound b, hmap, rfl⟩
  · obtain ⟨b, hb, rfl⟩ : ∃ b ∈ bounds, item = .bound b := by
      simp only [directSuperclass?, hopen, Option.mem_toList, Option.map_eq_some_iff,
        Option.filter_eq_some_iff] at hsuper
      obtain ⟨b, ⟨hhead, -⟩, rfl⟩ := hsuper
      exact ⟨b, List.mem_of_head? hhead, rfl⟩
    have hsuperclass : token.superclass? env = some (token.derive b) := by
      rw [superclass?, Option.mem_toList.mp hsuper]
      rfl
    refine ⟨List.mem_append_right _ ?_, b, hb, rfl, Or.inr hsuperclass⟩
    rw [hsuperclass]
    exact List.mem_cons_self

/-- Collecting one of the bounds keeps every member placed. -/
theorem placed_of_direct (hplain : env.classes.PlainEdges) (ht : w.Writes token.type)
    (hbounds : ∀ x ∈ token.interfaces env ++ (token.superclass? env).toList, Collectable env x)
    {item : DirectSupertype}
    (hitem : item ∈ token.directInterfaces env ++ (token.directSuperclass? env).toList)
    {s : Collection} (hlater : Collection.Later (Collection.start.opened token.type) s)
    (hs : ∀ m ∈ s.members, Placed w (fun _ => true) (token.superclass? env) m)
    (hattempts : ((collect env Limits.closureDepth
      (token.resolveDirect .empty item)).run s).2.guard.attempts ≤ Limits.attempts) :
    ∀ m ∈ ((collect env Limits.closureDepth (token.resolveDirect .empty item)).run s).2.members,
      Placed w (fun _ => true) (token.superclass? env) m := by
  obtain ⟨hdirect, b, hb, hx, hbase⟩ := bound_of_direct hopen hitem
  have hcollectable := hbounds _ hdirect
  have hheld : s.guard.held = [token.type] := hlater.held_eq
  have hmaxDepth : s.guard.maxDepth = Limits.closureDepth := hlater.maxDepth_eq
  have hmaxIterations : s.guard.maxIterations = Limits.attempts := hlater.maxIterations_eq
  rw [hx] at hcollectable hattempts ⊢
  refine placed_of_bound hplain hcollectable (bound_writes ht hopen hb) (fun harray => ?_) hs
    ?_ ?_ ?_ ?_ ?_
  · refine hbase.resolve_left fun hinterface => ?_
    have hraw : (env.erase b).isArray = true := harray
    cases hc : env.erase b with
    | named _ _ =>
        rw [hc] at hraw
        cases hraw
    | array _ _ =>
        rw [hc] at hinterface
        cases hinterface
  · rw [hheld, List.contains_cons, beq_of_open hopen hcollectable.closed]
    rfl
  · intro z hz
    rw [hheld, List.mem_singleton] at hz
    rw [hz]
    exact raw?_of_open hopen
  · rw [hheld, hmaxDepth]
    exact (show Limits.closureDepth - 1 + 1 ≤ Limits.closureDepth by decide)
  · rw [hmaxIterations]
    decide
  · rw [hmaxIterations]
    exact hattempts

theorem order_of_open (hplain : env.classes.PlainEdges) (ht : w.Writes token.type)
    (hattempts : (token.collection env).guard.attempts ≤ Limits.attempts)
    (hbounds : ∀ x ∈ token.interfaces env ++ (token.superclass? env).toList, Collectable env x)
    (hfalling : Falling w fun _ => true) :
    ∃ rest, (token.closure env).types = token :: rest ∧ rest.Pairwise (Precedes env) := by
  have hcollection : token.collection env =
      ((CollectM.record token (collectBounds env token)).run .start).2 := by
    rw [Token.collection, collect, hopen]
    rfl
  have hrespects := respects_collectBounds env token
  rw [hcollection] at hattempts
  rcases CollectM.record_cases (s := .start) rfl (by decide) hrespects hattempts with
    ⟨level, hlevel, -⟩ | ⟨level, s', habove, -, hwithin, hresult⟩
  · cases hlevel
  · have hwithin' : ((collectBounds env token).run
        (Collection.start.opened token.type)).2.guard.attempts ≤ Limits.attempts := by
      rw [habove]
      exact hwithin
    have hplaced := CollectM.highest_collects
      (P := fun s => Collection.Later (Collection.start.opened token.type) s ∧
        ∀ m ∈ s.members, Placed w (fun _ => true) (token.superclass? env) m)
      (Q := fun _ _ _ => True) (by decide) (fun _ _ => respects_collect _ _)
      (fun _ _ _ _ _ _ => trivial)
      (fun item hitem s hs hle =>
        ⟨⟨hs.1.trans ((respects_collect _ _).later s),
          placed_of_direct hopen hplain ht hbounds hitem hs.1 hs.2 hle⟩, trivial⟩)
      (baseLevel (token.rawType env))
      ⟨Collection.Later.refl _, fun _ h => absurd h List.not_mem_nil⟩ hwithin'
    have hmembers : (token.collection env).members = s'.members ++ [(token, level + 1)] := by
      rw [hcollection, hresult]
      rfl
    have hmember : ∀ m ∈ s'.members, Placed w (fun _ => true) (token.superclass? env) m := by
      have hrun : ((collectBounds env token).run
          (Collection.start.opened token.type)).2 = s' := by rw [habove]
      rw [← hrun]
      exact hplaced.1.2
    have hle := hrespects.level_le (Collection.start.opened token.type)
    rw [habove] at hle
    exact order_of_placed hmembers (fun m hm => (hle m hm).resolve_left List.not_mem_nil)
      hfalling hmember

end

/-- The closure of a token begins with the token, and no type after it comes
after one of its supertypes. -/
theorem closure_subtypesFirst {token : Token} (hplain : env.classes.PlainEdges)
    (hroot : env.classes.directSupertypes .object = [])
    (hrooted : ∀ c, w.isClass c → c.isPlain = true → c.isInterface = false →
      c.isObject = false → (env.classes.superclass? c).isSome = true)
    (ht : w.Writes token.type)
    (hattempts : (token.collection env).guard.attempts ≤ Limits.attempts)
    (hclosed : env.upperBounds? token.type = none → env.Low 64 (token.rawType env) ∧
      env.Uncut token.type ∧ ((token.rawType env).isArray = true → env.DirectTops))
    (hopen : ∀ bounds, env.upperBounds? token.type = some bounds →
      ∀ x ∈ token.interfaces env ++ (token.superclass? env).toList, Collectable env x) :
    ∃ rest, (token.closure env).types = token :: rest ∧ rest.Pairwise fun x y =>
      (x.rawType env == y.rawType env) = false →
        env.isSubclass (y.rawType env) (x.rawType env) = false := by
  cases hbounds : env.upperBounds? token.type with
  | some bounds =>
      exact order_of_open hbounds hplain ht hattempts (hopen bounds hbounds)
        (falling_of_seen hplain hroot hrooted fun _ => rfl)
  | none =>
      obtain ⟨hlow, huncut, htops⟩ := hclosed hbounds
      cases hc : (token.rawType env).isPlain with
      | true =>
          refine order_of_closed hplain hbounds ht hlow hattempts (fun d hd => ?_)
            (falling_of_seen hplain hroot hrooted fun _ => rfl)
          exact Option.isSome_iff_exists.mpr (hd.exists_element hplain hbounds hc huncut)
      | false =>
          refine order_of_closed hplain hbounds ht hlow hattempts (fun _ _ => rfl) ?_
          cases harray : (token.rawType env).isArray with
          | true =>
              refine falling_of_tops hplain hroot (htops harray) fun d hd hdplain hseen => ?_
              obtain ⟨e, he⟩ := Option.isSome_iff_exists.mp hseen
              exact arrayTop_of_element hbounds ht hd hdplain harray he
          | false =>
              have hprimitive : (token.rawType env).isPrimitive = true := by
                rw [← Bool.not_eq_false]
                intro h
                rw [ClassRef.isPlain_iff.mpr ⟨harray, h⟩] at hc
                cases hc
              intro c d hcclass _ hcplain _ _ hcseen
              obtain ⟨e, he⟩ := Option.isSome_iff_exists.mp hcseen
              rw [elementAt?_of_primitive hbounds ht hcclass hcplain hprimitive] at he
              cases he

/-! ## A variable with two bounds -/

def itemVar : TyVar := ⟨2, .synthetic "item", "T"⟩

def objectList : Ty := .param none arrayListClass [.object]

/-- Lists, and a variable that is bounded by a list and an interface. -/
def itemEnv : Env := ⟨listEnv.classes, ⟨#[none, none, some [objectList, .cls .cloneable]]⟩⟩

theorem itemEnv_regular :
    itemEnv.Regular itemEnv.classes.declaredHandle [listVar, arrayListVar, itemVar] :=
  regular_of_isRegular (by decide)

theorem cloneable_coherent : itemEnv.Coherent (.cls .cloneable) := by
  apply coherent_of_closed (P := fun t => t = .cls .cloneable) rfl
  · rintro t rfl edge hedge
    exact absurd (show edge ∈ [] from hedge) List.not_mem_nil
  · rintro u v rfl rfl
    decide

/-- The closure of the variable begins with the variable and goes on by levels. -/
theorem closure_subtypesFirst_bounds :
    ∃ rest, ((ofType (.var itemVar)).closure itemEnv).types = ofType (.var itemVar) :: rest ∧
      rest.Pairwise fun x y => (x.rawType itemEnv == y.rawType itemEnv) = false →
        itemEnv.isSubclass (y.rawType itemEnv) (x.rawType itemEnv) = false := by
  have hplain : itemEnv.classes.PlainEdges := by decide
  have hedges : ∀ c, itemEnv.EdgesBelow c Limits.walkSteps :=
    fun c => edgesBelow_of_edgeBound (by decide)
  have hlow : ∀ c, c.isArray = false → itemEnv.Low 63 c := fun c hc => low_of_rank
    (fun name => if name == arrayListClass.name then 1 else 0) hplain (by decide) hc
    (by split <;> decide)
  let w := Vocabulary.ofRegular itemEnv_regular
  refine closure_subtypesFirst (w := w) hplain rfl
    (rooted_of_declared itemEnv_regular (by decide))
    (.var (show itemVar.isListed _ = true by decide)) (by decide)
    (fun h => by cases h) fun bounds _ x hx => ?_
  have hx' : x ∈ [ofType (.cls .cloneable), ofType objectList] := hx
  rcases List.mem_cons.mp hx' with rfl | hrest
  · exact ⟨rfl, hlow _ rfl, fun _ d _ _ _ => viewAs_ne_outOfSteps (t := .cls .cloneable) hplain rfl
      rfl cloneable_coherent (hedges _) d, fun h => by cases h⟩
  · obtain rfl := List.mem_singleton.mp hrest
    exact ⟨rfl, hlow _ rfl, fun _ d _ _ _ => viewAs_ne_outOfSteps (t := objectList) hplain rfl
      rfl (arrayList_coherent _ _) (hedges _) d, fun h => by cases h⟩

/-! ## An array interface below the other -/

def tagClass : ClassRef := .named "Tag" .interface

/-- One of the two array interfaces is below the other, over an interface between them. -/
def tagEnv : Env :=
  ⟨(Registry.core.register ((ClassDecl.of tagClass).implementing (.cls .cloneable))).register
    ((ClassDecl.of .serializable).implementing (.cls tagClass)), .empty⟩

theorem tagEnv_regular : tagEnv.Regular tagEnv.classes.declaredHandle [] :=
  regular_of_isRegular (by decide)

/-- How far a class is below the array interface that is on top. -/
def tagRank (name : String) : Nat :=
  if name == ClassRef.serializableName then 2 else if name == tagClass.name then 1 else 0

theorem tagEnv_rank : ∀ entry ∈ tagEnv.classes.decls.toList, ∀ e ∈ entry.2.supertypes,
    tagRank (tagEnv.erase e).name < tagRank entry.1 := by
  decide

theorem tagEnv_low : tagEnv.Low 64 (.arrayOf .object) := by
  have hplain : tagEnv.classes.PlainEdges := by decide
  rintro d ⟨above, habove, hpath⟩
  have hrank : tagRank above.name < 63 := by
    unfold tagRank
    split <;> [decide; split <;> decide]
  exact low_of_rank tagRank hplain tagEnv_rank
    (ClassRef.isPlain_iff.mp (rawSupertypes_plain hplain habove)).1 hrank d hpath

/-- Above an array the interface between them is not seen, and the one that is
below comes second. -/
theorem closure_array : ¬∀ (env : Env) (w : Vocabulary env) (token : Token),
    env.classes.PlainEdges → env.classes.directSupertypes .object = [] →
    (∀ c, w.isClass c → c.isPlain = true → c.isInterface = false → c.isObject = false →
      (env.classes.superclass? c).isSome = true) →
    (∀ c n, c.isArray = false → ¬env.RawPath (n + 1) c c) →
    w.Writes token.type → env.upperBounds? token.type = none →
    env.Low 64 (token.rawType env) → env.Uncut token.type →
    (token.collection env).guard.attempts ≤ Limits.attempts →
    ∃ rest, (token.closure env).types = token :: rest ∧ rest.Pairwise fun x y =>
      (x.rawType env == y.rawType env) = false →
        env.isSubclass (y.rawType env) (x.rawType env) = false := by
  intro hclaim
  have hplain : tagEnv.classes.PlainEdges := by decide
  have hacyclic : ∀ c n, c.isArray = false → ¬tagEnv.RawPath (n + 1) c c := by
    intro c n hc hpath
    have hdown := rank_of_rawPath hplain tagEnv_rank hc hpath
    omega
  have hclass : (Vocabulary.ofRegular tagEnv_regular).isClass (.arrayOf .object) :=
    show ClassRef.isRegular _ _ = true by decide
  obtain ⟨rest, htypes, hordered⟩ := hclaim tagEnv (.ofRegular tagEnv_regular)
    (ofType (.cls (.arrayOf .object))) hplain rfl
    (rooted_of_declared tagEnv_regular (by decide)) hacyclic (.cls hclass) rfl tagEnv_low
    (uncut_arrayClass rfl) (by decide)
  have hfails : ¬(((ofType (.cls (.arrayOf .object))).closure tagEnv).types.drop 1).Pairwise
      fun x y => (x.rawType tagEnv == y.rawType tagEnv) = false →
        tagEnv.isSubclass (y.rawType tagEnv) (x.rawType tagEnv) = false := by
    decide
  rw [htypes] at hfails
  exact hfails hordered

end Token

end Generics
