import Generics.Proofs.Assignability
import Generics.Proofs.Descent

/-!
The height of a class: one above the highest class that an edge leads to, with
a floor for interfaces that keeps them above the root class. Heights go down
along every edge, so that they follow ancestry.

Heights leave out what is not seen. Above an array only three classes are seen,
and no edge of these that leads elsewhere is followed; a path that comes back to
one of the three is lost.
-/

namespace Generics

namespace Env

variable {env : Env} {seen : ClassRef → Bool} {c d : ClassRef}

/-! ## The height of a class -/

/-- The height of a class, by `n` edges at most, among the classes that are seen. -/
def heightWithin (env : Env) (seen : ClassRef → Bool) : Nat → ClassRef → Nat
  | 0, _ => 0
  | n + 1, c =>
    if seen c then
      ((env.classes.interfaces c ++ (env.classes.superclass? c).toList).map fun edge =>
        env.heightWithin seen n (env.erase edge)).foldl max (Token.baseLevel c) + 1
    else 0

/-- The height of a class with no more ancestors in a chain than are collected. -/
def height (env : Env) (seen : ClassRef → Bool) (c : ClassRef) : Nat :=
  env.heightWithin seen Limits.closureDepth c

theorem heightWithin_of_low {m n : Nat} (hlow : env.Low n c) (hle : n ≤ m) :
    env.heightWithin seen m c = env.heightWithin seen n c := by
  induction n generalizing c m with
  | zero => exact absurd hlow (not_low_zero c)
  | succ n ih =>
      cases m with
      | zero => omega
      | succ m =>
          have hedges : (env.classes.interfaces c ++ (env.classes.superclass? c).toList).map
                (fun edge => env.heightWithin seen m (env.erase edge)) =
              (env.classes.interfaces c ++ (env.classes.superclass? c).toList).map
                (fun edge => env.heightWithin seen n (env.erase edge)) := by
            apply List.map_congr_left
            intro edge hedge
            exact ih (hlow.above (mem_rawSupertypes hedge)) (by omega)
          rw [heightWithin, heightWithin, hedges]

theorem height_eq (hlow : env.Low Limits.closureDepth c) (hseen : seen c = true) :
    env.height seen c =
      ((env.classes.interfaces c ++ (env.classes.superclass? c).toList).map fun edge =>
        env.height seen (env.erase edge)).foldl max (Token.baseLevel c) + 1 := by
  have hdepth : Limits.closureDepth = (Limits.closureDepth - 1) + 1 := rfl
  have hedges : (env.classes.interfaces c ++ (env.classes.superclass? c).toList).map
        (fun edge => env.heightWithin seen (Limits.closureDepth - 1) (env.erase edge)) =
      (env.classes.interfaces c ++ (env.classes.superclass? c).toList).map
        (fun edge => env.height seen (env.erase edge)) := by
    apply List.map_congr_left
    intro edge hedge
    rw [hdepth] at hlow
    exact (heightWithin_of_low (hlow.above (mem_rawSupertypes hedge)) (Nat.sub_le _ _)).symm
  rw [height, hdepth, heightWithin, if_pos hseen, hedges]

theorem height_of_levels (hlow : env.Low Limits.closureDepth c) (hseen : seen c = true)
    {levels : List Nat}
    (hlevels : List.Forall₂ (fun edge level => level = env.height seen (env.erase edge))
      (env.classes.interfaces c ++ (env.classes.superclass? c).toList) levels) :
    levels.foldl max (Token.baseLevel c) + 1 = env.height seen c := by
  have hmap : (env.classes.interfaces c ++ (env.classes.superclass? c).toList).map
      (fun edge => env.height seen (env.erase edge)) = levels := by
    rw [← List.forall₂_eq_eq_eq]
    exact List.forall₂_map_left_iff.mpr (hlevels.imp fun _ _ h => h.symm)
  rw [height_eq hlow hseen, hmap]

theorem height_of_hidden (hseen : seen c = false) : env.height seen c = 0 := by
  have hdepth : Limits.closureDepth = (Limits.closureDepth - 1) + 1 := rfl
  rw [height, hdepth, heightWithin, hseen]
  rfl

theorem baseLevel_lt_height (hlow : env.Low Limits.closureDepth c) (hseen : seen c = true) :
    Token.baseLevel c < env.height seen c := by
  rw [height_eq hlow hseen]
  exact Nat.lt_succ_of_le (Closure.le_foldl_max _ _).1

/-- Heights go down along edges. -/
theorem height_lt_of_edge (hlow : env.Low Limits.closureDepth c) (hseen : seen c = true)
    (hedge : d ∈ env.rawSupertypes c) : env.height seen d < env.height seen c := by
  obtain ⟨edge, hmem, rfl⟩ := exists_edge hedge
  rw [height_eq hlow hseen]
  exact Nat.lt_succ_of_le ((Closure.le_foldl_max _ _).2 _ (List.mem_map.mpr ⟨edge, hmem, rfl⟩))

/-! ## Heights and ancestry -/

section

open Vocabulary

variable {w : Vocabulary env}

theorem isClass_above (hc : w.isClass c) (h : d ∈ env.rawSupertypes c) : w.isClass d := by
  obtain ⟨edge, hedge, rfl⟩ := List.mem_map.mp h
  exact erase_writes (w.edges c hc edge hedge)

/-- Along a path the height goes down with every edge. -/
theorem height_of_rawPath (hseen : ∀ c, seen c = true) {n : Nat} (hc : w.isClass c)
    (hd : w.isClass d) (hlow : env.Low Limits.closureDepth c) (hpath : env.RawPath n c d) :
    env.height seen d + n ≤ env.height seen c := by
  induction n generalizing c with
  | zero => rw [class_unique hc hd hpath, Nat.add_zero]
  | succ n ih =>
      obtain ⟨above, habove, hrest⟩ := hpath
      have hdown := height_lt_of_edge hlow (hseen c) habove
      have hup := ih (isClass_above hc habove) (hlow.step habove) hrest
      omega

/-- Below a class are only classes of a greater height. -/
def Falling (w : Vocabulary env) (seen : ClassRef → Bool) : Prop :=
  ∀ c d, w.isClass c → w.isClass d → c.isPlain = true → d.isPlain = true →
    env.Low Limits.closureDepth c → seen c = true → seen d = true → c ≠ d →
    env.isSubclass c d = true → env.height seen d < env.height seen c

theorem height_object_le (hroot : env.classes.directSupertypes .object = []) :
    env.height seen .object ≤ 1 := by
  cases hseen : seen .object with
  | false => rw [height_of_hidden hseen]; omega
  | true =>
      have hlow : env.Low 1 .object := by
        rintro d ⟨above, habove, -⟩
        rw [rawSupertypes, hroot] at habove
        cases habove
      have hedges : env.classes.interfaces .object ++
          (env.classes.superclass? .object).toList = [] := by
        obtain ⟨hsuper, hinterfaces⟩ := List.append_eq_nil_iff.mp hroot
        rw [hsuper, hinterfaces]
        rfl
      rw [height_eq (hlow.mono (by decide)) hseen, hedges]
      exact le_refl 1

/-- An interface and a class with a supertype that is seen are higher than the
root class. -/
theorem height_object_lt (hroot : env.classes.directSupertypes .object = [])
    (hlow : env.Low Limits.closureDepth c) (hseen : seen c = true)
    (hc : c.isInterface = true ∨ ∃ above ∈ env.rawSupertypes c, seen above = true) :
    env.height seen .object < env.height seen c := by
  refine lt_of_le_of_lt (height_object_le hroot) ?_
  rcases hc with hinterface | ⟨above, habove, haboveSeen⟩
  · have hbase := baseLevel_lt_height hlow hseen
    rw [Token.baseLevel, if_pos hinterface] at hbase
    exact hbase
  · have hbase := baseLevel_lt_height (hlow.step habove) haboveSeen
    have hdown := height_lt_of_edge hlow hseen habove
    omega

/-- Where all classes are seen and each has a superclass that should have one,
heights follow ancestry. -/
theorem falling_of_seen (hplain : env.classes.PlainEdges)
    (hroot : env.classes.directSupertypes .object = [])
    (hrooted : ∀ c, w.isClass c → c.isPlain = true → c.isInterface = false →
      c.isObject = false → (env.classes.superclass? c).isSome = true)
    (hseen : ∀ c, seen c = true) : Falling w seen := by
  intro c d hc hd hcplain hdplain hlow hcseen _ hne hsub
  cases hdobject : d.isObject with
  | true =>
      obtain rfl := eq_object_of_isObject hd hdobject
      refine height_object_lt hroot hlow hcseen ?_
      cases hinterface : c.isInterface with
      | true => exact Or.inl rfl
      | false =>
          right
          have hcobject : c.isObject = false := by
            rw [← Bool.not_eq_true]
            exact fun h => hne (eq_object_of_isObject hc h)
          obtain ⟨edge, hedge⟩ :=
            Option.isSome_iff_exists.mp (hrooted c hc hcplain hinterface hcobject)
          refine ⟨env.erase edge, mem_rawSupertypes ?_, hseen _⟩
          rw [hedge]
          exact List.mem_append_right _ List.mem_cons_self
  | false =>
      obtain ⟨n, hpath⟩ := (isSubclass_iff_rawPath hplain hcplain hdplain hdobject).mp hsub
      have hdown := height_of_rawPath hseen hc hd hlow hpath
      cases n with
      | zero => exact absurd (class_unique hc hd hpath) hne
      | succ n => omega

/-- If one of the two array interfaces is below the other, it declares so itself. -/
structure DirectTops (env : Env) : Prop where
  cloneable : env.isSubclass .cloneable .serializable = true →
    .serializable ∈ env.rawSupertypes .cloneable
  serializable : env.isSubclass .serializable .cloneable = true →
    .cloneable ∈ env.rawSupertypes .serializable

/-- Nothing is declared above the classes that are above all arrays but these classes. -/
def TopsClosed (env : Env) : Prop :=
  ∀ top ∈ arrayTops, ∀ above ∈ env.rawSupertypes top, above ∈ arrayTops

/-- Where only the classes above all arrays are seen, heights follow ancestry
that is declared directly. -/
theorem falling_of_tops (hplain : env.classes.PlainEdges)
    (hroot : env.classes.directSupertypes .object = []) (hdirect : env.DirectTops)
    (hseen : ∀ c, w.isClass c → c.isPlain = true → seen c = true → c ∈ arrayTops) :
    Falling w seen := by
  intro c d hc hd hcplain hdplain hlow hcseen hdseen hne hsub
  have hctop := hseen c hc hcplain hcseen
  have hdtop := hseen d hd hdplain hdseen
  have hobject : ∀ top : ClassRef, top.isPlain = true → top.isObject = false →
      env.isSubclass .object top = false := by
    intro top htop htopObject
    rw [← Bool.not_eq_true, isSubclass_iff_rawPath hplain rfl htop htopObject]
    rintro ⟨n, hpath⟩
    cases n with
    | zero =>
        have hname : (top.name == ClassRef.rootName) = true := beq_iff_eq.mpr hpath.symm
        rw [ClassRef.isObject, hname] at htopObject
        cases htopObject
    | succ n =>
        obtain ⟨above, habove, -⟩ := hpath
        rw [rawSupertypes, hroot] at habove
        cases habove
  simp only [List.mem_cons, List.not_mem_nil, or_false] at hctop hdtop
  rcases hctop with rfl | rfl | rfl <;> rcases hdtop with rfl | rfl | rfl
  · exact absurd rfl hne
  · rw [hobject _ rfl rfl] at hsub
    cases hsub
  · rw [hobject _ rfl rfl] at hsub
    cases hsub
  · exact height_object_lt hroot hlow hcseen (Or.inl rfl)
  · exact absurd rfl hne
  · exact height_lt_of_edge hlow hcseen (hdirect.cloneable hsub)
  · exact height_object_lt hroot hlow hcseen (Or.inl rfl)
  · exact height_lt_of_edge hlow hcseen (hdirect.serializable hsub)
  · exact absurd rfl hne

end

end Env

end Generics
