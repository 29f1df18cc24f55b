import Generics.Proofs.Climb
import Generics.Proofs.RawTypes
import Generics.Proofs.Session

/-!
The raw classes of a type whose bounds lead back to it. The visit passes a type
over while the same type is being visited, so it follows the chains of bounds
that meet no type twice. Every class that a chain leads to is met by one of
these: what comes between two equal types can be left out, since equal
variables have equal bounds. The visits under an array start anew, so the arrays
must not lead back to themselves; then there are no more of them, one under the
other, than there are nodes.
-/

namespace Generics

open Ty (Same)

namespace Env

/-- The chains of bounds and components from a type pass another one. -/
inductive Passes (env : Env) (t : Ty) : Ty → Prop where
  | self : Passes env t t
  | bound {y bounds b} (h : Passes env t y) (hopen : env.upperBounds? y = some bounds)
      (hb : b ∈ bounds) : Passes env t b
  | component {y} (h : Passes env t (.array y)) : Passes env t y

/-- Equal variables on the chains from a type have equal bounds, and no chain leads from an
array back to it. -/
structure Circular (env : Env) (t : Ty) : Prop where
  shared : ∀ v w, env.Passes t (.var v) → env.Passes t (.var w) → (v == w) = true →
    List.Forall₂ Same (env.bounds.declared v) (env.bounds.declared w)
  arrays : ∀ c, env.Passes t (.array c) → ¬env.Passes c (.array c)

variable {env : Env} {t x y y' z : Ty} {c d : ClassRef} {bounds : List Ty} {n m : Nat}

theorem Passes.trans (h : env.Passes t y) (h' : env.Passes y z) : env.Passes t z := by
  induction h' with
  | self => exact h
  | bound _ hopen hb ih => exact ih.bound hopen hb
  | component _ ih => exact ih.component

/-- What contains a type and goes along the chains contains all that they pass. -/
theorem Passes.mem_of_closed {nodes : List Ty} (h : env.Passes t y) (ht : t ∈ nodes)
    (hbound : ∀ y ∈ nodes, ∀ bounds, env.upperBounds? y = some bounds → bounds ⊆ nodes)
    (hcomponent : ∀ component, .array component ∈ nodes → component ∈ nodes) : y ∈ nodes := by
  induction h with
  | self => exact ht
  | bound _ hopen hb ih => exact hbound _ ih _ hopen hb
  | component _ ih => exact hcomponent _ ih

/-! ## Equal types on the chains -/

theorem effective_same {v w : TyVar}
    (h : List.Forall₂ Same (env.bounds.declared v) (env.bounds.declared w)) :
    List.Forall₂ Same (env.bounds.effective v) (env.bounds.effective w) := by
  rw [BoundTable.effective, BoundTable.effective]
  generalize env.bounds.declared v = bounds, env.bounds.declared w = bounds' at h
  cases h with
  | nil => exact .cons (Ty.same_refl _) .nil
  | cons hfirst hrest => exact .cons hfirst hrest

/-- Equal types on the chains have equal bounds. -/
theorem Circular.bound_of_same (h : env.Circular t) (hy : env.Passes t y)
    (hy' : env.Passes t y') (hsame : Same y y') (hopen : env.upperBounds? y = some bounds)
    (hz : z ∈ bounds) :
    ∃ bounds', env.upperBounds? y' = some bounds' ∧ ∃ z' ∈ bounds', Same z z' := by
  cases y with
  | wild upper lower =>
      obtain ⟨upper', lower', rfl, ⟨-, hupper⟩, -⟩ := Ty.same_wild.mp hsame
      cases hopen
      exact ⟨upper', rfl, hupper z hz⟩
  | var v =>
      obtain ⟨w, rfl, hvw⟩ := Ty.same_var.mp hsame
      cases hopen
      refine ⟨_, rfl, forall₂_mem_left ?_ hz⟩
      exact effective_same (h.shared v w hy hy' hvw)
  | _ => cases hopen

theorem upperBounds?_of_same (hsame : Same y y') (hclosed : env.upperBounds? y = none) :
    env.upperBounds? y' = none := by
  cases y with
  | cls _ =>
      obtain ⟨_, rfl, -⟩ := Ty.same_cls.mp hsame
      rfl
  | param _ _ _ =>
      obtain ⟨_, _, _, rfl, -⟩ := Ty.same_param.mp hsame
      rfl
  | array _ =>
      obtain ⟨_, rfl, -⟩ := Ty.same_array.mp hsame
      rfl
  | _ => cases hclosed

/-- Equal types have equal raw classes. -/
theorem Circular.rawOf_of_same (h : env.Circular t) (hc : env.RawOf y c) (hy : env.Passes t y)
    (hy' : env.Passes t y') (hsame : Same y y') : ∃ d, env.RawOf y' d ∧ c.name = d.name := by
  induction hc generalizing y' with
  | raw hraw =>
      obtain ⟨d, hd, hname⟩ := raw?_of_same hsame hraw
      exact ⟨d, .raw hd, hname⟩
  | array _ ih =>
      obtain ⟨component', rfl, hcomponent⟩ := Ty.same_array.mp hsame
      obtain ⟨d, hd, hname⟩ := ih hy.component hy'.component hcomponent
      exact ⟨d.arrayOf, .array hd, by simp [hname]⟩
  | bound hopen hz _ ih =>
      obtain ⟨bounds', hopen', z', hz', hzz'⟩ := h.bound_of_same hy hy' hsame hopen hz
      obtain ⟨d, hd, hname⟩ := ih (hy.bound hopen hz) (hy'.bound hopen' hz') hzz'
      exact ⟨d, .bound hopen' hz' hd, hname⟩

/-! ## Chains without repetition -/

/-- A chain of bounds that passes none of some held types, and ends at a type with a given raw
class, after a number of hops. -/
inductive Avoids (env : Env) (held : List Ty) : Nat → Ty → ClassRef → Prop where
  | ends {y : Ty} {c : ClassRef} (hfree : held.contains y = false)
      (hclosed : env.upperBounds? y = none) (hc : env.RawOf y c) : Avoids env held 0 y c
  | bound {n : Nat} {y z : Ty} {bounds : List Ty} {c : ClassRef}
      (hfree : held.contains y = false) (hopen : env.upperBounds? y = some bounds)
      (hz : z ∈ bounds) (h : Avoids env held n z c) : Avoids env held (n + 1) y c

variable {held : List Ty}

theorem exists_avoids (hc : env.RawOf y c) : ∃ n, env.Avoids [] n y c := by
  induction hc with
  | @raw y c hraw =>
      exact ⟨0, .ends rfl (upperBounds?_of_raw? hraw) (.raw hraw)⟩
  | array h _ => exact ⟨0, .ends rfl rfl (.array h)⟩
  | bound hopen hz _ ih =>
      obtain ⟨n, hn⟩ := ih
      exact ⟨n + 1, .bound rfl hopen hz hn⟩

/-- What an equal type avoids, a type avoids. -/
theorem contains_of_same (hsame : Same y y') (hfree : held.contains y = false) :
    held.contains y' = false := by
  rw [← Bool.not_eq_true, List.contains_iff_exists_mem_beq] at hfree ⊢
  rintro ⟨z, hz, hsame'⟩
  exact hfree ⟨z, hz, Ty.same_trans hsame hsame'⟩

theorem Circular.avoids_of_same (h : env.Circular t) (hchain : env.Avoids held n y c)
    (hy : env.Passes t y) (hy' : env.Passes t y') (hsame : Same y y') :
    ∃ d, env.Avoids held n y' d ∧ c.name = d.name := by
  induction hchain generalizing y' with
  | ends hfree hclosed hc =>
      obtain ⟨d, hd, hname⟩ := h.rawOf_of_same hc hy hy' hsame
      exact ⟨d, .ends (contains_of_same hsame hfree) (upperBounds?_of_same hsame hclosed) hd,
        hname⟩
  | bound hfree hopen hz _ ih =>
      obtain ⟨bounds', hopen', z', hz', hzz'⟩ := h.bound_of_same hy hy' hsame hopen hz
      obtain ⟨d, hd, hname⟩ := ih (hy.bound hopen hz) (hy'.bound hopen' hz') hzz'
      exact ⟨d, .bound (contains_of_same hsame hfree) hopen' hz' hd, hname⟩

/-- A chain avoids a type, or passes one that is equal to it. -/
theorem Avoids.split (h : env.Avoids held n y c) (hy : env.Passes t y) (x : Ty) :
    env.Avoids (x :: held) n y c ∨
      ∃ m z, m ≤ n ∧ env.Passes t z ∧ Same z x ∧ env.Avoids held m z c := by
  induction h with
  | @ends y c hfree hclosed hc =>
      cases hyx : y == x with
      | true => exact Or.inr ⟨0, y, le_refl _, hy, hyx, .ends hfree hclosed hc⟩
      | false => exact Or.inl (.ends (by rw [List.contains_cons, hyx, hfree]; rfl) hclosed hc)
  | @bound n y bounds z c hfree hopen hz hrest ih =>
      cases hyx : y == x with
      | true => exact Or.inr ⟨n + 1, y, le_refl _, hy, hyx, .bound hfree hopen hz hrest⟩
      | false =>
          rcases ih (hy.bound hopen hz) with hclear | ⟨m, z', hm, hz', hsame, hlater⟩
          · refine Or.inl (.bound ?_ hopen hz hclear)
            rw [List.contains_cons, hyx, hfree]
            rfl
          · exact Or.inr ⟨m, z', Nat.le_succ_of_le hm, hz', hsame, hlater⟩

/-- The end of a chain is reached by a visit: where the chain comes back to a type
equal to its first one, what lies between is left out. -/
theorem Circular.followed (h : env.Circular t) (n : Nat) {held : List Ty} {y : Ty}
    {c : ClassRef} (hchain : env.Avoids held n y c) (hy : env.Passes t y) :
    ∃ d, env.Followed held y d ∧ c.name = d.name := by
  induction n using Nat.strong_induction_on generalizing held y c with
  | _ n ih =>
      cases hchain with
      | ends hfree hclosed hc => exact ⟨c, .ends hfree hclosed hc, rfl⟩
      | @bound n _ bounds z _ hfree hopen hz hrest =>
          have hzPasses := hy.bound hopen hz
          rcases hrest.split hzPasses y with hclear | ⟨m, y', hm, hy', hsame, hlater⟩
          · obtain ⟨d, hd, hname⟩ := ih n (Nat.lt_succ_self n) hclear hzPasses
            exact ⟨d, .bound hfree hopen hz hd, hname⟩
          · obtain ⟨d, hd, hname⟩ := h.avoids_of_same hlater hy' hy hsame
            obtain ⟨e, he, hname'⟩ := ih m (Nat.lt_succ_of_le hm) hd hy
            exact ⟨e, he, hname.trans hname'⟩

/-! ## Nested arrays -/

/-- No chain from a type passes as many as `n` arrays. -/
def Shallow (env : Env) : Nat → Ty → Prop
  | 0, _ => False
  | n + 1, t => ∀ component, env.Passes t (.array component) → env.Shallow n component

theorem Shallow.passes (h : env.Shallow (n + 1) y) (hz : env.Passes y z) :
    env.Shallow (n + 1) z :=
  fun component hcomponent => h component (hz.trans hcomponent)

end Env

namespace Ty

mutual

/-- The nodes of a type that chains pass inside it. -/
def chainNodes : Ty → List Ty
  | cls c => [cls c]
  | param owner raw args => [param owner raw args]
  | array component => array component :: component.chainNodes
  | wild upper lower => wild upper lower :: chainNodesList upper
  | var v => [var v]
termination_by structural t => t

def chainNodesList : List Ty → List Ty
  | [] => []
  | t :: ts => t.chainNodes ++ chainNodesList ts
termination_by structural ts => ts

end

theorem mem_chainNodesList {ts : List Ty} {y : Ty} :
    y ∈ chainNodesList ts ↔ ∃ t ∈ ts, y ∈ t.chainNodes := by
  induction ts with
  | nil => simp [chainNodesList]
  | cons t ts ih => simp [chainNodesList, ih]

theorem mem_chainNodes_self (t : Ty) : t ∈ t.chainNodes := by
  cases t <;> simp [chainNodes]

/-- The nodes of a node are nodes. -/
theorem chainNodes_subset {t y : Ty} (h : y ∈ t.chainNodes) : y.chainNodes ⊆ t.chainNodes := by
  induction t using parts generalizing y with
  | array component ih =>
      rw [chainNodes, List.mem_cons] at h
      rcases h with rfl | h
      · exact List.Subset.refl _
      · rw [chainNodes]
        exact List.Subset.trans (ih h) (List.subset_cons_self _ _)
  | wild upper lower ih _ =>
      rw [chainNodes, List.mem_cons] at h
      rcases h with rfl | h
      · exact List.Subset.refl _
      · obtain ⟨t, ht, hy⟩ := mem_chainNodesList.mp h
        intro z hz
        rw [chainNodes]
        exact List.mem_cons_of_mem _ (mem_chainNodesList.mpr ⟨t, ht, ih t ht hy hz⟩)
  | _ =>
      rw [chainNodes, List.mem_singleton] at h
      rw [h]
      exact List.Subset.refl _

theorem length_chainNodesList {ts : List Ty} (h : ∀ t ∈ ts, t.chainNodes.length ≤ t.size) :
    (chainNodesList ts).length ≤ sizeList ts := by
  induction ts with
  | nil => exact le_refl _
  | cons t ts ih =>
      obtain ⟨ht, hts⟩ := List.forall_mem_cons.mp h
      rw [chainNodesList, sizeList, List.length_append]
      exact Nat.add_le_add ht (ih hts)

theorem length_chainNodes (t : Ty) : t.chainNodes.length ≤ t.size := by
  induction t using parts with
  | array component ih =>
      rw [chainNodes, size, List.length_cons]
      omega
  | wild upper lower ih _ =>
      have hupper := length_chainNodesList ih
      rw [chainNodes, size, List.length_cons]
      omega
  | param owner raw args =>
      rw [chainNodes, size, List.length_singleton]
      omega
  | _ => exact le_refl _

end Ty

namespace Env

variable {env : Env} {t y : Ty}

/-- The nodes of a type and of all bounds that chains pass. -/
def chainNodes (env : Env) (t : Ty) : List Ty :=
  t.chainNodes ++ env.bounds.cells.toList.flatMap fun cell => Ty.chainNodesList (cell.getD [])

theorem length_chainNodes_le (env : Env) (t : Ty) : (env.chainNodes t).length ≤ env.reach t := by
  have hcells : ∀ (cells : List (Option (List Ty))) (n : Nat),
      n + (cells.flatMap fun cell => Ty.chainNodesList (cell.getD [])).length ≤
        cells.foldl (fun n bounds => n + Ty.sizeList (bounds.getD [])) n := by
    intro cells
    induction cells with
    | nil => exact fun n => le_refl n
    | cons cell cells ih =>
        intro n
        have hfirst := Ty.length_chainNodesList fun t (_ : t ∈ cell.getD []) => t.length_chainNodes
        refine le_trans ?_ (ih _)
        rw [List.flatMap_cons, List.length_append, ← Nat.add_assoc]
        exact Nat.add_le_add_right (Nat.add_le_add_left hfirst n) _
  have htable := hcells env.bounds.cells.toList 0
  have htype := t.length_chainNodes
  rw [chainNodes, List.length_append, reach, BoundTable.size, ← Array.foldl_toList]
  omega

theorem mem_effective {v : TyVar} {b : Ty} (hb : b ∈ env.bounds.effective v) :
    b = .object ∨ ∃ cell ∈ env.bounds.cells.toList, b ∈ cell.getD [] := by
  cases hdeclared : env.bounds.declared v with
  | nil =>
      rw [BoundTable.effective, hdeclared] at hb
      exact Or.inl (List.mem_singleton.mp hb)
  | cons first rest =>
      right
      have hmem : b ∈ env.bounds.declared v := by
        rw [BoundTable.effective, hdeclared] at hb
        rwa [hdeclared]
      cases hcell : env.bounds.cells[v.cell]? with
      | none =>
          rw [BoundTable.declared, hcell] at hmem
          cases hmem
      | some cell =>
          rw [BoundTable.declared, hcell] at hmem
          exact ⟨cell, Array.mem_toList_iff.mpr (Array.mem_of_getElem? hcell), hmem⟩

/-- Chains pass nodes only, and the root class, which bounds the variables without bounds. -/
theorem Passes.mem_chainNodes (h : env.Passes t y) : y ∈ .object :: env.chainNodes t := by
  have hpart : ∀ {y z : Ty}, y ∈ .object :: env.chainNodes t → z ∈ y.chainNodes →
      z ∈ .object :: env.chainNodes t := by
    intro y z hy hz
    rcases List.mem_cons.mp hy with rfl | hy
    · rw [List.mem_singleton.mp hz]
      exact List.mem_cons_self
    · refine List.mem_cons_of_mem _ ?_
      rcases List.mem_append.mp hy with hy | hy
      · exact List.mem_append_left _ (Ty.chainNodes_subset hy hz)
      · obtain ⟨cell, hcell, hy⟩ := List.mem_flatMap.mp hy
        obtain ⟨b, hb, hy⟩ := Ty.mem_chainNodesList.mp hy
        exact List.mem_append_right _ (List.mem_flatMap.mpr ⟨cell, hcell,
          Ty.mem_chainNodesList.mpr ⟨b, hb, Ty.chainNodes_subset hy hz⟩⟩)
  refine h.mem_of_closed
    (List.mem_cons_of_mem _ (List.mem_append_left _ t.mem_chainNodes_self)) ?_
    fun component hmem => hpart hmem (List.mem_cons_of_mem _ component.mem_chainNodes_self)
  intro y hy bounds hopen b hb
  cases y with
  | wild upper lower =>
      cases hopen
      refine hpart hy (List.mem_cons_of_mem _ ?_)
      exact Ty.mem_chainNodesList.mpr ⟨b, hb, b.mem_chainNodes_self⟩
  | var v =>
      cases hopen
      rcases mem_effective hb with rfl | ⟨cell, hcell, hb⟩
      · exact List.mem_cons_self
      · exact List.mem_cons_of_mem _ (List.mem_append_right _ (List.mem_flatMap.mpr ⟨cell, hcell,
          Ty.mem_chainNodesList.mpr ⟨b, hb, b.mem_chainNodes_self⟩⟩))
  | _ => cases hopen

/-- Where no chain leads from an array back to it, the arrays that a chain passes are different
nodes. -/
theorem Circular.shallow_of_passed (h : env.Circular t) (n : Nat) (hy : env.Passes t y)
    {passed : List Ty} (hnodup : passed.Nodup)
    (hpassed : ∀ x ∈ passed, ∃ component, x = .array component ∧ env.Passes t x ∧
      env.Passes component y)
    (hroom : env.reach t < n + passed.length) : env.Shallow n y := by
  induction n generalizing y passed with
  | zero =>
      have hsub : passed ⊆ env.chainNodes t := by
        intro x hx
        obtain ⟨component, rfl, hpasses, -⟩ := hpassed x hx
        exact (List.mem_cons.mp hpasses.mem_chainNodes).resolve_left nofun
      have hlength := (hnodup.subperm hsub).length_le
      have hbound := env.length_chainNodes_le t
      omega
  | succ n ih =>
      intro component hcomponent
      have harray := hy.trans hcomponent
      have hnew : .array component ∉ passed := by
        -- an array passed before would lead back to itself
        intro hmem
        obtain ⟨component', heq, -, hback⟩ := hpassed _ hmem
        cases heq
        exact h.arrays component harray (hback.trans hcomponent)
      refine ih harray.component (List.nodup_cons.mpr ⟨hnew, hnodup⟩)
        (List.forall_mem_cons.mpr ⟨⟨component, rfl, harray, .self⟩, fun x hx => ?_⟩)
        (by rw [List.length_cons]; omega)
      obtain ⟨component', rfl, hpasses, hleads⟩ := hpassed x hx
      exact ⟨component', rfl, hpasses, (hleads.trans hcomponent).component⟩

theorem Circular.shallow_reach (h : env.Circular t) : env.Shallow (env.reach t + 1) t :=
  h.shallow_of_passed _ .self List.nodup_nil nofun (by simp)

/-! ## No class is missing -/

variable {c : ClassRef}

theorem Circular.byArrays (h : env.Circular t) :
    env.ByArrays fun n y => env.Passes t y ∧ env.Shallow n y where
  none _ hy := hy.2
  bound _ _ _ _ hy hopen hz :=
    ⟨hy.1.bound hopen hz, hy.2.passes (.bound .self hopen hz)⟩
  component _ component hy := ⟨hy.1.component, hy.2 component .self⟩
  followed _ y c hy hc := by
    obtain ⟨n, hchain⟩ := exists_avoids hc
    exact h.followed n hchain hy.1

/-- The raw classes that are collected are, up to equality, those of the type. -/
theorem Circular.contains_rawTypes_iff (h : env.Circular t) (hhits : env.rawTypeHits t = 0) :
    (env.rawTypes t).contains c = true ↔ ∃ d, env.RawOf t d ∧ c.name = d.name := by
  constructor
  · intro hc
    obtain ⟨d, hd, hname⟩ := contains_iff_name.mp hc
    exact ⟨d, rawOf_of_mem _ hd, hname.symm⟩
  · rintro ⟨d, hd, hname⟩
    have hmem := h.byArrays.rawTypes_complete ⟨.self, h.shallow_reach⟩ hhits hd
    obtain ⟨e, he, hname'⟩ := contains_iff_name.mp hmem
    exact contains_iff_name.mpr ⟨e, he, hname'.trans hname.symm⟩

/-! ## No class twice -/

theorem distinct_addRaw {raws : List ClassRef} (h : raws.Pairwise fun c d => (c == d) = false)
    (c : ClassRef) : (addRaw raws c).Pairwise fun c d => (c == d) = false := by
  unfold addRaw
  split
  · exact h
  · rename_i hnew
    refine List.pairwise_append.mpr ⟨h, List.pairwise_singleton _ _, fun d hd e he => ?_⟩
    rw [List.mem_singleton.mp he, ← Bool.not_eq_true]
    exact fun heq => hnew (contains_iff_name.mpr ⟨d, hd, ClassRef.beq_iff_name.mp heq⟩)

theorem distinct_addRaws {raws : List ClassRef} (cs : List ClassRef)
    (h : raws.Pairwise fun c d => (c == d) = false) :
    (cs.foldl addRaw raws).Pairwise fun c d => (c == d) = false := by
  induction cs generalizing raws with
  | nil => exact h
  | cons c cs ih => exact ih (distinct_addRaw h c)

theorem rawTypes_distinct (env : Env) (t : Ty) :
    (env.rawTypes t).Pairwise fun c d => (c == d) = false := by
  refine Visit.within_preserves (P := fun raws => raws.Pairwise fun c d => (c == d) = false)
    (Q := fun _ => True) (s := .start .visit []) subset_growth (rawTypeHandler_adds _) ?_ _
    trivial List.Pairwise.nil
  intro visit _ hvisit y s _ hs
  have hbounds : ∀ bounds : List Ty,
      (Visit.all visit bounds s).acc.Pairwise fun c d => (c == d) = false := fun bounds =>
    Visit.all_preserves (P := fun raws => raws.Pairwise fun c d => (c == d) = false)
      (fun b _ s => hvisit b s trivial) hs
  cases y with
  | cls c => exact distinct_addRaw hs c
  | param _ c _ => exact distinct_addRaw hs c
  | array component => exact distinct_addRaws _ hs
  | wild upper _ => exact hbounds upper
  | var v => exact hbounds (env.bounds.effective v)

/-! ## The first class -/

/-- First bounds and components, followed from a type, end in a class or in a parameterized
type after a number of hops. The class is the one found there, with an array for every
component on the way. -/
inductive FirstRaw (env : Env) : Nat → Ty → ClassRef → Prop where
  | raw {t : Ty} {c : ClassRef} (h : t.raw? = some c) : FirstRaw env 0 t c
  | array {n : Nat} {component : Ty} {c : ClassRef} (h : FirstRaw env n component c) :
      FirstRaw env (n + 1) (.array component) c.arrayOf
  | bound {n : Nat} {t first : Ty} {rest : List Ty} {c : ClassRef}
      (hopen : env.upperBounds? t = some (first :: rest)) (h : FirstRaw env n first c) :
      FirstRaw env (n + 1) t c

/-- Every wildcard on the chains from a type has one upper bound. -/
def OneUpper (env : Env) (t : Ty) : Prop :=
  ∀ upper lower, env.Passes t (.wild upper lower) → upper.length = 1

/-- In types and bounds of the one form, chains pass types of this form. -/
theorem Passes.formed {isClass : ClassRef → Prop} (henv : env.Formed isClass)
    (hfamily : ClassRef.Family isClass) (ht : t.Formed isClass) (h : env.Passes t y) :
    y.Formed isClass := by
  induction h with
  | self => exact ht
  | bound _ hopen hb ih => exact formed_upperBounds henv hfamily ih hopen _ hb
  | component _ ih => exact ih.component hfamily rfl

/-- Nothing that a program obtains is left out: no wildcard gets a second upper bound. -/
theorem oneUpper_of_reachable {admits : ClassRef → Prop} {session : Session}
    (h : Session.Reachable admits session) (henv : session.Sees env) (ht : t ∈ session.types) :
    env.OneUpper t := by
  have hsound := Session.sound_of_reachable ClassRef.family_all (fun _ _ => trivial) h
  intro upper lower hpasses
  cases hpasses.formed (hsound.env henv) ClassRef.family_all (hsound.types t ht) with
  | wildUpper _ => rfl
  | wildLower _ _ => rfl

variable {y' first : Ty} {rest : List Ty} {d : ClassRef} {m n : Nat}

/-- The hops are those of the erasure. -/
theorem FirstRaw.eraseWithin {hops : Nat} (h : env.FirstRaw n y c) (hn : n < hops) :
    env.bounds.eraseWithin hops y = c := by
  induction h generalizing hops with
  | @raw y c hraw =>
      obtain ⟨hops, rfl⟩ := Nat.exists_eq_succ_of_ne_zero (Nat.ne_zero_of_lt hn)
      cases y with
      | cls _ => exact Option.some.inj hraw
      | param _ _ _ => exact Option.some.inj hraw
      | _ => cases hraw
  | @array n component c _ ih =>
      obtain ⟨hops, rfl⟩ := Nat.exists_eq_succ_of_ne_zero (Nat.ne_zero_of_lt hn)
      rw [BoundTable.eraseWithin, ih (Nat.lt_of_succ_lt_succ hn)]
  | @bound n y first rest c hopen h ih =>
      obtain ⟨hops, rfl⟩ := Nat.exists_eq_succ_of_ne_zero (Nat.ne_zero_of_lt hn)
      have hfirst := ih (Nat.lt_of_succ_lt_succ hn)
      cases y with
      | wild upper lower =>
          cases hopen
          exact hfirst
      | var v =>
          have heffective := Option.some.inj hopen
          rw [BoundTable.eraseWithin]
          rw [BoundTable.effective] at heffective
          split at heffective
          · -- without bounds the root class stands for them
            rename_i hdeclared
            cases heffective
            rw [hdeclared]
            cases h with
            | raw hraw => exact Option.some.inj hraw
            | bound hroot _ => cases hroot
          · rename_i hdeclared
            rw [heffective]
            exact hfirst
      | _ => cases hopen

theorem Circular.first_of_same (h : env.Circular t) (hone : env.OneUpper t)
    (hy : env.Passes t y) (hy' : env.Passes t y') (hsame : Same y y')
    (hopen : env.upperBounds? y = some (first :: rest)) :
    ∃ first' rest', env.upperBounds? y' = some (first' :: rest') ∧ Same first first' := by
  cases y with
  | wild upper lower =>
      cases hopen
      obtain ⟨upper', lower', rfl, ⟨hlength, hupper⟩, -⟩ := Ty.same_wild.mp hsame
      obtain ⟨first', rfl⟩ := List.length_eq_one_iff.mp (hone _ _ hy')
      obtain ⟨b, hb, hfirst⟩ := hupper first List.mem_cons_self
      obtain rfl := List.mem_singleton.mp hb
      exact ⟨b, [], rfl, hfirst⟩
  | var v =>
      obtain ⟨w, rfl, hvw⟩ := Ty.same_var.mp hsame
      have hbounds := effective_same (h.shared v w hy hy' hvw)
      rw [Option.some.inj hopen] at hbounds
      obtain ⟨first', rest', hfirst, -, heq⟩ := List.forall₂_cons_left_iff.mp hbounds
      exact ⟨first', rest', congrArg some heq, hfirst⟩
  | _ => cases hopen

/-- From equal types as many hops are made. -/
theorem Circular.hops_unique (h : env.Circular t) (hone : env.OneUpper t)
    (hfirst : env.FirstRaw n y c) (hfirst' : env.FirstRaw m y' d) (hy : env.Passes t y)
    (hy' : env.Passes t y') (hsame : Same y y') : n = m := by
  induction hfirst generalizing m y' d with
  | raw hraw =>
      obtain ⟨c', hraw', -⟩ := raw?_of_same hsame hraw
      cases hfirst' with
      | raw _ => rfl
      | array _ => cases hraw'
      | bound hopen _ =>
          rw [upperBounds?_of_raw? hraw'] at hopen
          cases hopen
  | array _ ih =>
      obtain ⟨component', rfl, hcomponent⟩ := Ty.same_array.mp hsame
      cases hfirst' with
      | raw hraw => cases hraw
      | array hrest => exact congrArg (· + 1) (ih hrest hy.component hy'.component hcomponent)
      | bound hopen _ => cases hopen
  | bound hopen _ ih =>
      obtain ⟨first', rest', hopen', hnext⟩ := h.first_of_same hone hy hy' hsame hopen
      cases hfirst' with
      | raw hraw =>
          rw [upperBounds?_of_raw? hraw] at hopen'
          cases hopen'
      | array _ => cases hopen'
      | bound hopen'' hrest =>
          cases hopen'.symm.trans hopen''
          exact congrArg (· + 1) (ih hrest (hy.bound hopen List.mem_cons_self)
            (hy'.bound hopen' List.mem_cons_self) hnext)

/-! ## The order in which classes are found -/

theorem prefix_addRaw (raws : List ClassRef) (c : ClassRef) : raws <+: addRaw raws c := by
  unfold addRaw
  split
  · exact List.prefix_refl raws
  · exact List.prefix_append raws [c]

theorem prefix_addRaws (cs raws : List ClassRef) : raws <+: cs.foldl addRaw raws := by
  induction cs generalizing raws with
  | nil => exact List.prefix_refl raws
  | cons c cs ih => exact (prefix_addRaw raws c).trans (ih (addRaw raws c))

theorem head?_of_prefix {cs cs' : List ClassRef} (h : cs <+: cs') (hc : cs.head? = some c) :
    cs'.head? = some c := by
  obtain ⟨more, rfl⟩ := h
  rw [List.head?_append, hc, Option.some_or]

theorem head?_arrays {raws found : List ClassRef} (hempty : found = [])
    (h : raws.head? = some c) :
    ((raws.map ClassRef.arrayOf).foldl addRaw found).head? = some c.arrayOf := by
  obtain ⟨rest, rfl⟩ := List.head?_eq_some_iff.mp h
  rw [hempty, List.map_cons, List.foldl_cons]
  exact head?_of_prefix (prefix_addRaws _ _) rfl

/-- Classes are added behind those found before. -/
theorem prefix_growth : Growth fun found found' : CountedRaws => found.raws <+: found'.raws where
  refl := fun found => List.prefix_refl found.raws
  trans := List.IsPrefix.trans

theorem countingHandler_appends (componentRaws : Ty → CountedRaws) :
    (env.countingHandler componentRaws).Adds fun found found' => found.raws <+: found'.raws := by
  intro visit hvisit t s
  cases t with
  | cls c => exact ⟨rfl, rfl, le_refl _, prefix_addRaw s.acc.raws c⟩
  | param _ raw _ => exact ⟨rfl, rfl, le_refl _, prefix_addRaw s.acc.raws raw⟩
  | array component => exact ⟨rfl, rfl, le_refl _, prefix_addRaws _ s.acc.raws⟩
  | wild upper _ => exact Visit.all_grows prefix_growth hvisit upper s
  | var v => exact Visit.all_grows prefix_growth hvisit (env.bounds.effective v) s

/-- Types being visited, each with more hops before it than a given number. -/
def Ahead (env : Env) (t : Ty) (n : Nat) (held : List Ty) : Prop :=
  ∀ z ∈ held, env.Passes t z ∧ ∃ m d, n < m ∧ env.FirstRaw m z d

/-- A type with fewer hops before it is none of them. -/
theorem Ahead.free {held : List Ty} (hahead : env.Ahead t n held) (h : env.Circular t)
    (hone : env.OneUpper t) (hy : env.Passes t y) (hfirst : env.FirstRaw n y c) :
    held.contains y = false := by
  rw [← Bool.not_eq_true, List.contains_iff_exists_mem_beq]
  rintro ⟨z, hz, hsame⟩
  obtain ⟨hzPasses, m, d, hlt, hm⟩ := hahead z hz
  exact hlt.ne (h.hops_unique hone hfirst hm hy hzPasses hsame)

theorem Ahead.bound {held : List Ty} (hahead : env.Ahead t (n + 1) held) (hy : env.Passes t y)
    (hfirst : env.FirstRaw (n + 1) y c) : env.Ahead t n (y :: held) := by
  refine List.forall_mem_cons.mpr ⟨⟨hy, n + 1, c, Nat.lt_succ_self n, hfirst⟩, fun z hz => ?_⟩
  obtain ⟨hzPasses, m, d, hlt, hm⟩ := hahead z hz
  exact ⟨hzPasses, m, d, Nat.lt_of_succ_lt hlt, hm⟩

/-- A visit that begins with nothing collected finds the first raw class first. The types that
are held have more hops before them, so none of them is met again. -/
theorem Circular.within_first (h : env.Circular t) (hone : env.OneUpper t) {arrays : Nat}
    (hcomponents : ∀ n component c, env.Passes t (.array component) →
      env.FirstRaw n component c → env.Shallow arrays component →
        (env.countedRawsWithin arrays component).cuts = 0 →
        (env.countedRawsWithin arrays component).raws.head? = some c)
    (levels : Nat) {s : Visit CountedRaws} (hmax : s.guard.maxDepth = Limits.visitDepth)
    (hlevels : s.guard.held.length + levels = Limits.visitDepth + 1)
    (hheld : s.guard.held.length ≤ Limits.visitDepth)
    (hy : env.Passes t y) (hshallow : env.Shallow (arrays + 1) y)
    (huncut : Quiet s
      (Visit.within (env.countingHandler (env.countedRawsWithin arrays)) levels y s))
    (hempty : s.acc.raws = []) (hfirst : env.FirstRaw n y c)
    (hahead : env.Ahead t n s.guard.held) :
    (Visit.within (env.countingHandler (env.countedRawsWithin arrays)) levels y
      s).acc.raws.head? = some c := by
  induction levels generalizing n y s with
  | zero => omega
  | succ levels ih =>
      obtain ⟨hinner, hacc, hdepth⟩ := huncut.opened (hahead.free h hone hy hfirst)
      rw [hmax] at hdepth
      rw [hacc]
      have hopened : (s.opened y).acc.raws = [] := hempty
      cases hfirst with
      | raw hraw =>
          have hadded : (addRaw (s.opened y).acc.raws c).head? = some c := by rw [hopened]; rfl
          cases y with
          | cls d =>
              obtain rfl := Option.some.inj hraw
              exact hadded
          | param _ d _ =>
              obtain rfl := Option.some.inj hraw
              exact hadded
          | _ => cases hraw
      | @array n component d hd =>
          have hcuts : (env.countedRawsWithin arrays component).cuts = 0 :=
            Nat.add_eq_left.mp hinner.2
          have hhead := hcomponents n component d hy hd (hshallow component .self) hcuts
          exact head?_arrays hopened hhead
      | @bound n _ first rest _ hopen hrest =>
          rw [countingHandler_open _ _ _ hopen] at hinner ⊢
          have hgrows := Visit.within_grows counted_growth
            (@countingHandler_adds env (env.countedRawsWithin arrays)) levels
          have hquietFirst := hinner.between (.refl counted_growth _) (hgrows first _)
            (Visit.all_grows counted_growth hgrows rest _)
          have hlength : (s.opened y).guard.held.length = s.guard.held.length + 1 := rfl
          have hhead := ih (s := s.opened y) hmax (by omega) (by omega)
            (hy.bound hopen List.mem_cons_self)
            (hshallow.passes (.bound .self hopen List.mem_cons_self)) hquietFirst hopened hrest
            (hahead.bound hy (.bound hopen hrest))
          have happends := Visit.all_grows prefix_growth (Visit.within_grows prefix_growth
            (@countingHandler_appends env (env.countedRawsWithin arrays)) levels) rest
            (Visit.within (env.countingHandler (env.countedRawsWithin arrays)) levels first
              (s.opened y))
          exact head?_of_prefix happends.acc_le hhead

theorem Circular.counted_first (h : env.Circular t) (hone : env.OneUpper t) (arrays : Nat)
    (hy : env.Passes t y) (hshallow : env.Shallow arrays y)
    (hcuts : (env.countedRawsWithin arrays y).cuts = 0) (hfirst : env.FirstRaw n y c) :
    (env.countedRawsWithin arrays y).raws.head? = some c := by
  induction arrays generalizing n y c with
  | zero => cases hshallow
  | succ arrays ih =>
      have hsum : (env.countingVisit (env.countedRawsWithin arrays) y).acc.cuts +
          (env.countingVisit (env.countedRawsWithin arrays) y).guard.refusals = 0 := hcuts
      obtain ⟨hacc, hquiet⟩ := Nat.add_eq_zero_iff.mp hsum
      exact h.within_first hone
        (fun _ _ _ harray hfirst' hshallow' hcuts' => ih harray.component hshallow' hcuts' hfirst')
        (s := .start .visit ⟨[], 0⟩) (Profile.visit.maxDepth + 1) rfl rfl (Nat.zero_le _) hy
        hshallow ⟨hquiet, hacc⟩ rfl hfirst nofun

/-- Where no limit is met, the raw classes of a type are listed once each, and they are exactly
the classes of the type. With one upper bound in each wildcard, as in all types that a program
obtains, the erasure is the first of them if its hops end in time. -/
theorem rawTypes_circular (h : env.Circular t) (hhits : env.rawTypeHits t = 0) :
    ((env.rawTypes t).Pairwise fun c d => (c == d) = false) ∧
      (∀ c ∈ env.rawTypes t, env.RawOf t c) ∧
      (∀ c, (env.rawTypes t).contains c = true ↔ ∃ d, env.RawOf t d ∧ (c == d) = true) ∧
      (env.OneUpper t → ∀ n c, env.FirstRaw n t c → n ≤ Limits.erasureHops →
        (env.rawTypes t).head? = some (env.erase t)) := by
  refine ⟨rawTypes_distinct env t, fun c hc => rawOf_of_mem _ hc, fun c => ?_,
    fun hone n c hfirst hn => ?_⟩
  · rw [h.contains_rawTypes_iff hhits]
    simp only [ClassRef.beq_iff_name]
  · have hhead := h.counted_first hone _ .self h.shallow_reach hhits hfirst
    rw [countedRawsWithin_raws] at hhead
    rw [erase, BoundTable.erase, hfirst.eraseWithin (Nat.lt_succ_of_le hn)]
    exact hhead

/-- Two variables that are bounded by each other. The second one is a list first. -/
def loopVar : TyVar := ⟨0, .synthetic "loop", "T"⟩

def backVar : TyVar := ⟨1, .synthetic "loop", "U"⟩

def loopList : Ty := .param none listClass [.var loopVar]

def loopEnv : Env :=
  ⟨.core, ⟨#[some [.var backVar, stringType], some [loopList, .var loopVar]]⟩⟩

def loopNodes : List Ty := [.var loopVar, .var backVar, loopList, stringType]

theorem loopNodes_closed : ∀ y ∈ loopNodes, ∀ bounds, loopEnv.upperBounds? y = some bounds →
    bounds ⊆ loopNodes := by
  simp only [loopNodes, List.forall_mem_cons]
  refine ⟨?_, ?_, nofun, nofun, nofun⟩
  · rintro _ ⟨⟩
    exact (by simp [loopNodes] : [.var backVar, stringType] ⊆ loopNodes)
  · rintro _ ⟨⟩
    exact (by simp [loopNodes] : [loopList, .var loopVar] ⊆ loopNodes)

/-- The arrays over the one, whose bounds go round between the two. -/
theorem rawTypes_circular_loop : loopEnv.Circular (.array (.var loopVar)) ∧
    loopEnv.rawTypeHits (.array (.var loopVar)) = 0 ∧
    loopEnv.FirstRaw 3 (.array (.var loopVar)) listClass.arrayOf ∧
    (loopEnv.rawTypes (.array (.var loopVar))).head? =
      some (loopEnv.erase (.array (.var loopVar))) ∧
    loopEnv.RawOf (.array (.var loopVar)) (.arrayOf (.named "java.lang.String" .ordinary)) := by
  have hloop : ∀ {y}, loopEnv.Passes (.var loopVar) y → y ∈ loopNodes := fun h =>
    h.mem_of_closed List.mem_cons_self loopNodes_closed (by simp [loopNodes, loopList, stringType])
  have hpasses : ∀ {y}, loopEnv.Passes (.array (.var loopVar)) y →
      y ∈ .array (.var loopVar) :: loopNodes := fun h =>
    h.mem_of_closed List.mem_cons_self
      (List.forall_mem_cons.mpr ⟨nofun, fun y hy bounds hopen =>
        List.Subset.trans (loopNodes_closed y hy bounds hopen) (List.subset_cons_self _ _)⟩)
      (by simp [loopNodes, loopList, stringType])
  have hvar : ∀ {v}, loopEnv.Passes (.array (.var loopVar)) (.var v) →
      v = loopVar ∨ v = backVar := fun h => by
    simpa [loopNodes, loopList, stringType] using hpasses h
  have hcircular : loopEnv.Circular (.array (.var loopVar)) := by
    refine ⟨fun v w hv hw hvw => ?_, fun c hc hback => ?_⟩
    · have hsame : ∀ bounds : List Ty, List.Forall₂ Same bounds bounds :=
        fun bounds => List.forall₂_same.mpr fun b _ => Ty.same_refl b
      rcases hvar hv with rfl | rfl <;> rcases hvar hw with rfl | rfl
      · exact hsame _
      · exact absurd hvw (by decide)
      · exact absurd hvw (by decide)
      · exact hsame _
    · obtain rfl : c = .var loopVar := by
        simpa [loopNodes, loopList, stringType] using hpasses hc
      simpa [loopNodes, loopList, stringType] using hloop hback
  have hhits : loopEnv.rawTypeHits (.array (.var loopVar)) = 0 := rfl
  have hfirst : loopEnv.FirstRaw 3 (.array (.var loopVar)) listClass.arrayOf :=
    .array (.bound rfl (.bound rfl (.raw rfl)))
  have hone : loopEnv.OneUpper (.array (.var loopVar)) := by
    intro upper lower h
    simpa [loopNodes, loopList, stringType] using hpasses h
  obtain ⟨-, -, -, hhead⟩ := rawTypes_circular hcircular hhits
  exact ⟨hcircular, hhits, hfirst, hhead hone 3 _ hfirst (by decide),
    .array (.bound (b := stringType) rfl (List.mem_cons_of_mem _ List.mem_cons_self) (.raw rfl))⟩

end Env

end Generics
