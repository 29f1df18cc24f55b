import Generics.Proofs.Descendants
import Generics.Proofs.Regions

/-!
Registration is local. Answers about a type are read from the classes that are reached
from its own and from those of its owners: along the edges, from a class to the class
around it, and from an array class around an inner class to its components, since the
form of the inner class mentions that of the array. A declaration of another class, new
or in place of an earlier one, changes none of the answers.

The form of a class is worked out with as many steps as there are declarations. A class
that is not nested in itself needs no more of them, however many are added.
-/

namespace Generics

namespace Ty

/-- The raw class of a type and those of its owners. -/
def spine : Ty → List ClassRef
  | cls c => [c]
  | param (some owner) raw _ => raw :: owner.spine
  | param none raw _ => [raw]
  | _ => []
termination_by structural t => t

variable {R : ClassRef → Prop} {t : Ty}

/-- A type of classes is written with the classes of its spine. -/
theorem within_of_spine (h : t.Within fun _ => True) (hspine : ∀ c ∈ t.spine, R c) :
    t.Within R := by
  induction h with
  | cls _ => exact .cls (hspine _ List.mem_cons_self)
  | @param owner raw args _ _ ih =>
      cases owner with
      | none => exact .param nofun (hspine raw List.mem_cons_self)
      | some o =>
          rw [spine] at hspine
          obtain ⟨hraw, howner⟩ := List.forall_mem_cons.mp hspine
          refine .param ?_ hraw
          rintro _ ⟨⟩
          exact ih o rfl howner

end Ty

namespace Registry

/-! ## Nesting -/

/-- The form of a class mentions those of `n` classes around it, one around the other. -/
inductive Nested (registry : Registry) : Nat → ClassRef → Prop where
  | array {n name component} (h : Nested registry n component) :
      Nested registry n (.array name component)
  | outermost {name kind}
      (h : registry.isStatic (.named name kind) = false →
        registry.enclosing? (.named name kind) = none) : Nested registry 0 (.named name kind)
  | inner {n name kind outer} (hstatic : registry.isStatic (.named name kind) = false)
      (houter : registry.enclosing? (.named name kind) = some outer)
      (h : Nested registry n outer) : Nested registry (n + 1) (.named name kind)

variable {registry : Registry} {c d : ClassRef} {m n : Nat}

theorem nested_unique (h : registry.Nested n c) (h' : registry.Nested m c) : n = m := by
  induction h generalizing m with
  | array _ ih =>
      cases h' with
      | array h' => exact ih h'
  | outermost h =>
      cases h' with
      | outermost _ => rfl
      | inner hstatic houter _ =>
          rw [h hstatic] at houter
          cases houter
  | inner hstatic houter _ ih =>
      cases h' with
      | outermost h =>
          rw [h hstatic] at houter
          cases houter
      | inner _ houter' h' =>
          obtain rfl := Option.some.inj (houter.symm.trans houter')
          rw [ih h']

/-- A class is known by its name, so that its kind is of no account. -/
theorem nested_named {name : String} {kind kind' : ClassKind}
    (h : registry.Nested n (.named name kind)) : registry.Nested n (.named name kind') := by
  cases h with
  | outermost h => exact .outermost h
  | inner hstatic houter h => exact .inner hstatic houter h

/-- The classes inside the outermost one are declared, and all different. -/
theorem exists_names (h : registry.Nested n c) : ∃ names : List String, names.length = n ∧
    names.Nodup ∧ (∀ x ∈ names, x ∈ registry.decls) ∧
      ∀ x ∈ names, ∃ m kind, m ≤ n ∧ registry.Nested m (.named x kind) := by
  induction h with
  | array _ ih => exact ih
  | outermost _ => exact ⟨[], rfl, .nil, List.forall_mem_nil _, List.forall_mem_nil _⟩
  | @inner n name kind outer hstatic houter hnested ih =>
      obtain ⟨names, hlength, hnodup, hdeclared, hnames⟩ := ih
      have hself : registry.Nested (n + 1) (.named name kind) := .inner hstatic houter hnested
      have hnew : name ∉ names := by
        intro hname
        obtain ⟨m, kind', hm, hnested'⟩ := hnames name hname
        have heq := nested_unique hself (nested_named hnested')
        omega
      refine ⟨name :: names, by rw [List.length_cons, hlength],
        List.nodup_cons.mpr ⟨hnew, hnodup⟩, List.forall_mem_cons.mpr ⟨?_, hdeclared⟩,
        List.forall_mem_cons.mpr ⟨⟨n + 1, kind, le_refl _, hself⟩, fun x hx => ?_⟩⟩
      · obtain ⟨decl, hdecl, -⟩ := Option.bind_eq_some_iff.mp houter
        rw [Std.TreeMap.mem_iff_isSome_getElem?]
        exact Option.isSome_iff_exists.mpr ⟨decl, hdecl⟩
      · obtain ⟨m, kind', hm, hnested'⟩ := hnames x hx
        exact ⟨m, kind', hm.trans (Nat.le_succ n), hnested'⟩

theorem nested_le_size (h : registry.Nested n c) : n ≤ registry.size := by
  obtain ⟨names, rfl, hnodup, hdeclared, -⟩ := exists_names h
  have hsubset : names ⊆ registry.decls.keys :=
    fun x hx => Std.TreeMap.mem_keys.mpr (hdeclared x hx)
  calc
    names.length ≤ registry.decls.keys.length := (hnodup.subperm hsubset).length_le
    _ = registry.size := Std.TreeMap.length_keys

/-- The form of a class needs a step for each class that it mentions. -/
theorem formSteps_of_nested (h : registry.Nested n c) {hops hops' : Nat} (hlt : n < hops)
    (hlt' : n < hops') : registry.formSteps hops c = registry.formSteps hops' c := by
  induction h generalizing hops hops' with
  | @array n name component _ ih =>
      obtain ⟨k, rfl⟩ := Nat.exists_eq_add_of_le' (Nat.one_le_of_lt hlt)
      obtain ⟨k', rfl⟩ := Nat.exists_eq_add_of_le' (Nat.one_le_of_lt hlt')
      have hcomponent : registry.formWithin (registry.formSteps k) component =
          registry.formWithin (registry.formSteps k') component := ih hlt hlt'
      rw [formSteps, formSteps, formWithin, formWithin, hcomponent]
  | @outermost name kind h =>
      obtain ⟨k, rfl⟩ := Nat.exists_eq_add_of_le' hlt
      obtain ⟨k', rfl⟩ := Nat.exists_eq_add_of_le' hlt'
      have howner : registry.ownerForm (registry.formSteps k) (.named name kind) =
          registry.ownerForm (registry.formSteps k') (.named name kind) := by
        refine Option.map_congr fun outer houter => ?_
        split
        · rfl
        · rename_i hstatic
          rw [h (Bool.eq_false_of_not_eq_true hstatic)] at houter
          cases houter
      rw [formSteps, formSteps, formWithin_of_plain _ _ rfl, formWithin_of_plain _ _ rfl, isBare,
        isBare, howner]
  | @inner n name kind outer hstatic houter _ ih =>
      obtain ⟨k, rfl⟩ := Nat.exists_eq_add_of_le' (Nat.one_le_of_lt hlt)
      obtain ⟨k', rfl⟩ := Nat.exists_eq_add_of_le' (Nat.one_le_of_lt hlt')
      have howner : registry.ownerForm (registry.formSteps k) (.named name kind) =
          registry.ownerForm (registry.formSteps k') (.named name kind) := by
        rw [ownerForm, ownerForm, houter, hstatic]
        exact congrArg some (ih (Nat.lt_of_succ_lt_succ hlt) (Nat.lt_of_succ_lt_succ hlt'))
      rw [formSteps, formSteps, formWithin_of_plain _ _ rfl, formWithin_of_plain _ _ rfl, isBare,
        isBare, howner]

end Registry

namespace Env

/-! ## What answers are read from -/

/-- The classes that answers about a type are read from. -/
inductive Reads (env : Env) (t : Ty) : ClassRef → Prop where
  | self {c} (hc : c ∈ t.spine) : Reads env t c
  | edge {c e d} (h : Reads env t c) (he : e ∈ env.classes.directSupertypes c)
      (hd : d ∈ e.spine) : Reads env t d
  | enclosing {c outer} (h : Reads env t c) (houter : env.classes.enclosing? c = some outer) :
      Reads env t outer
  | component {c outer d} (h : Reads env t c) (hstatic : env.classes.isStatic c = false)
      (houter : env.classes.enclosing? c = some outer) (hd : d ∈ outer.components) : Reads env t d

/-- The same with one more declaration. -/
def declaring (env : Env) (d : ClassDecl) : Env := { env with classes := env.classes.register d }

variable {env : Env} {t : Ty} {c target : ClassRef} {d : ClassDecl} {R : ClassRef → Prop}

theorem agrees_declaring (hd : ∀ c, R c → c.name ≠ d.ref.name) :
    env.Agrees (env.declaring d) R where
  bounds := rfl
  decl c hc := by
    have hne : ¬compare d.ref.name c.name = .eq := fun h =>
      hd c hc (Std.LawfulEqCmp.eq_of_compare h).symm
    rw [Registry.decl?, declaring, Registry.register, Std.TreeMap.getElem?_insert, if_neg hne]
    rfl
  edgeBound := Nat.le_add_left _ _
  size := Std.TreeMap.size_le_size_insert

/-- A declaration of a class outside a region leaves the forms in the region as they are. -/
theorem genericForm_declaring (hregion : env.Region R) (hd : ∀ c, R c → c.name ≠ d.ref.name)
    (hc : ∀ x ∈ c.components, R x) {n : Nat} (hnested : env.classes.Nested n c) :
    (env.declaring d).classes.genericForm c = env.classes.genericForm c := by
  have hagree : env.Agrees (env.declaring d) R := agrees_declaring hd
  have hle := Registry.nested_le_size hnested
  have hsize := hagree.size
  rw [Registry.genericForm, Registry.genericForm, formSteps_agree hregion hagree _ hc]
  exact Registry.formSteps_of_nested hnested (by omega) (by omega)

/-- What is read for a type of classes is a region. -/
theorem region_reads (hedges : ∀ entry ∈ env.classes.decls.toList, ∀ e ∈ entry.2.supertypes,
    e.Within fun _ => True) : env.Region (env.Reads t) where
  edge c hc e he := by
    have hwritten : e.Within fun _ => True := by
      cases harray : c.isArray with
      | false => exact Registry.forall_edges hedges harray e he
      | true =>
          obtain ⟨d, -, rfl⟩ := Subtyping.array_edge harray he
          exact .cls trivial
    exact Ty.within_of_spine hwritten fun d hd => .edge hc he hd
  outer c hc hstatic outer houter d hd := .component hc hstatic houter hd

/-- What is read for a type lies in every list that has its classes and is closed. -/
theorem Reads.mem {S : List ClassRef} (hself : ∀ c ∈ t.spine, c ∈ S)
    (hedge : ∀ c ∈ S, ∀ e ∈ env.classes.directSupertypes c, ∀ d ∈ e.spine, d ∈ S)
    (houter : ∀ c ∈ S, ∀ outer ∈ env.classes.enclosing? c, ∀ d ∈ outer.components, d ∈ S)
    (h : env.Reads t c) : c ∈ S := by
  induction h with
  | self hc => exact hself _ hc
  | edge _ he hd ih => exact hedge _ ih _ he _ hd
  | @enclosing _ outer _ henclosing ih =>
      refine houter _ ih outer henclosing outer ?_
      cases outer <;> exact List.mem_cons_self
  | component _ _ henclosing hd ih => exact houter _ ih _ henclosing _ hd

end Env

namespace Token

open Env

variable {env : Env} {token : Token} {d : ClassDecl}

/-- A declaration of a class that is not read for a type changes no answer about the type. -/
theorem answers_declaring (hedges : ∀ entry ∈ env.classes.decls.toList,
      ∀ e ∈ entry.2.supertypes, e.Within fun _ => True)
    (htype : token.type.Within fun _ => True) (hraw : (token.rawType env).isArray = false)
    (hnested : ∀ c ∈ token.type.class?, ∃ n, env.classes.Nested n c)
    (hd : ∀ c, env.Reads token.type c → c.name ≠ d.ref.name) :
    (∀ c, (env.declaring d).isSubclass (token.rawType (env.declaring d)) c =
      env.isSubclass (token.rawType env) c) ∧
      (∀ target, token.supertype (env.declaring d) target = token.supertype env target) ∧
      token.superclass? (env.declaring d) = token.superclass? env ∧
      token.interfaces (env.declaring d) = token.interfaces env ∧
      token.closure (env.declaring d) = token.closure env := by
  have hregion : env.Region (env.Reads token.type) := region_reads hedges
  have hagree : env.Agrees (env.declaring d) (env.Reads token.type) := agrees_declaring hd
  have hwithin : token.type.Within (env.Reads token.type) :=
    Ty.within_of_spine htype fun _ => .self
  have hform : ∀ c ∈ token.type.class?,
      (env.declaring d).classes.genericForm c = env.classes.genericForm c := by
    intro c hc
    obtain ⟨n, hn⟩ := hnested c hc
    refine genericForm_declaring hregion hd ?_ hn
    have hself : token.type = .cls c := by
      cases htoken : token.type with
      | cls d =>
          rw [htoken] at hc
          exact congrArg Ty.cls (Option.some.inj hc)
      | _ =>
          rw [htoken] at hc
          cases hc
    rw [rawType, hself] at hraw
    obtain ⟨name, kind, rfl⟩ := ClassRef.exists_named (show c.isArray = false from hraw)
    refine List.forall_mem_singleton.mpr (.self ?_)
    rw [hself]
    exact List.mem_cons_self
  refine ⟨fun c => ?_, fun target => ?_, superclass?_agree hregion hagree hwithin,
    interfaces_agree hregion hagree hwithin, closure_agree hregion hagree hwithin hraw hform⟩
  · obtain ⟨raw, hself, hreads⟩ := hwithin.raw
    rw [rawType, erase_of_raw? hself] at hraw
    rw [rawType, rawType, hagree.erase, erase_of_raw? hself]
    exact isSubclass_agree hregion hagree hreads (Or.inl hraw)
  · rw [supertype, supertype, supertype_agree hregion hagree hwithin hraw hform]

/-! ## An inner class, and a class that is declared beside it -/

/-- The slot is an inner class, and the class that extends it is declared again. -/
theorem answers_declaring_slot :
    let env := slotEnv outerClass false (slotType outerClass (.var pegVar) (.var pegVar))
    let token := Token.ofType (.cls slotClass)
    token.supertype (env.declaring (.of pegClass)) slotClass =
        .ok (.ofType (slotType outerClass (.var outerVar) (.var slotVar))) ∧
      token.closure (env.declaring (.of pegClass)) = token.closure env := by
  intro env token
  have hedges : ∀ entry ∈ env.classes.decls.toList, ∀ e ∈ entry.2.supertypes,
      e.Within fun _ => True := by
    refine Registry.forall_supertypes (show _ = [Ty.object,
      slotType outerClass (.var pegVar) (.var pegVar), .object] from rfl) ?_
    simp only [List.forall_mem_cons]
    refine ⟨.cls trivial, .param ?_ trivial, .cls trivial, List.forall_mem_nil _⟩
    rintro _ ⟨⟩
    exact .param nofun trivial
  have hnested : ∀ c ∈ token.type.class?, ∃ n, env.classes.Nested n c := by
    rintro _ ⟨⟩
    exact ⟨1, .inner rfl (show _ = some outerClass from rfl) (.outermost fun _ => rfl)⟩
  have hreads : ∀ c, env.Reads token.type c → c ∈ [slotClass, outerClass, .object] := by
    intro c
    have hobject : ∀ e ∈ [Ty.object], ∀ d ∈ e.spine, d ∈ [slotClass, outerClass, .object] := by
      intro e he d hd
      obtain rfl := List.mem_singleton.mp he
      obtain rfl := List.mem_singleton.mp (show d ∈ [ClassRef.object] from hd)
      simp
    refine Reads.mem (List.forall_mem_singleton.mpr List.mem_cons_self) ?_ ?_
    · simp only [List.forall_mem_cons]
      exact ⟨hobject, hobject, nofun, List.forall_mem_nil _⟩
    · simp only [List.forall_mem_cons]
      refine ⟨?_, nofun, nofun, List.forall_mem_nil _⟩
      rintro _ ⟨⟩ d hd
      obtain rfl := List.mem_singleton.mp (show d ∈ [outerClass] from hd)
      simp
  have hd : ∀ c, env.Reads token.type c → c.name ≠ (ClassDecl.of pegClass).ref.name := by
    intro c hc
    have hmem := hreads c hc
    simp only [List.mem_cons, List.not_mem_nil, or_false] at hmem
    rcases hmem with rfl | rfl | rfl <;> decide
  obtain ⟨-, hsupertype, -, -, hclosure⟩ :=
    answers_declaring hedges (.cls trivial) rfl hnested hd
  exact ⟨hsupertype slotClass, hclosure⟩

/-! ## Array classes on the way -/

/-- An inner class of an array class. -/
def cellEnv : Env :=
  ⟨Registry.core.register
    (((ClassDecl.of slotClass).withParameters [slotVar]).nestedIn (.arrayOf fooClass)), .empty⟩

def markClass : ClassRef := .named "Mark" .interface

/-- A class that extends an array class. -/
def rowEnv : Env :=
  ⟨Registry.core.register ((ClassDecl.of pegClass).extending (.cls (.arrayOf fooClass))), .empty⟩

/-- Without the components of an array class around an inner class, or without the three classes
above an array class, not all is said that is read. -/
theorem answers_declaring_lost :
    (¬∀ (env : Env) (t u u' : Ty) (target : ClassRef) (d : ClassDecl) (S : List ClassRef),
      (∀ entry ∈ env.classes.decls.toList, ∀ e ∈ entry.2.supertypes, e.Within fun _ => True) →
      t.Within (· ∈ S) → (∀ c ∈ S, ∀ e ∈ env.classes.directSupertypes c, e.Within (· ∈ S)) →
      (∀ c ∈ S, ∀ outer ∈ env.classes.enclosing? c, outer ∈ S) →
      (∀ c ∈ S, c.name ≠ d.ref.name) → env.supertype t target = .ok u →
      (env.declaring d).supertype t target = .ok u' → (u' == u) = true) ∧
    ¬∀ (env : Env) (t : Ty) (target : ClassRef) (d : ClassDecl) (S : List ClassRef),
      (∀ entry ∈ env.classes.decls.toList, ∀ e ∈ entry.2.supertypes, e.Within fun _ => True) →
      t.Within (· ∈ S) →
      (∀ c ∈ S, ∀ decl ∈ env.classes.decl? c, ∀ e ∈ decl.supertypes, e.Within (· ∈ S)) →
      (∀ c ∈ S, ∀ outer ∈ env.classes.enclosing? c, ∀ x ∈ outer.components, x ∈ S) →
      (∀ c ∈ S, c.name ≠ d.ref.name) →
      (env.declaring d).isSubclass (env.erase t) target = env.isSubclass (env.erase t) target := by
  constructor
  · intro hclaim
    let S : List ClassRef := [slotClass, .arrayOf fooClass, .object, .cloneable, .serializable]
    have hsame := hclaim cellEnv (.cls slotClass)
      (.param (some (.cls (.arrayOf fooClass))) slotClass [.var slotVar])
      (.param (some (.array (.param none fooClass [.var fooVar]))) slotClass [.var slotVar])
      slotClass ((ClassDecl.of fooClass).withParameters [fooVar]) S ?_ ?_ ?_ ?_ ?_ rfl rfl
    · exact absurd hsame (by decide)
    · exact Registry.forall_supertypes (show _ = [Ty.object] from rfl)
        (List.forall_mem_singleton.mpr (.cls trivial))
    · exact .cls List.mem_cons_self
    · have hobject : ∀ e ∈ [Ty.object], e.Within (· ∈ S) :=
        List.forall_mem_singleton.mpr (.cls (by simp [S, ClassRef.object]))
      have htops : ∀ e ∈ [Ty.object, .cls .cloneable, .cls .serializable], e.Within (· ∈ S) := by
        simp only [List.forall_mem_cons]
        exact ⟨hobject _ List.mem_cons_self, .cls (by simp [S]), .cls (by simp [S]),
          List.forall_mem_nil _⟩
      simp only [S, List.forall_mem_cons]
      exact ⟨hobject, htops, nofun, nofun, nofun, List.forall_mem_nil _⟩
    · simp only [S, List.forall_mem_cons]
      refine ⟨?_, nofun, nofun, nofun, nofun, List.forall_mem_nil _⟩
      rintro _ ⟨⟩
      simp
    · simp only [S, List.forall_mem_cons]
      exact ⟨by decide, by decide, by decide, by decide, by decide, List.forall_mem_nil _⟩
  · intro hclaim
    let S : List ClassRef := [pegClass, .arrayOf fooClass]
    have hbelow := hclaim rowEnv (.cls pegClass) markClass
      ((ClassDecl.of .cloneable).implementing (.cls markClass)) S ?_ ?_ ?_ ?_ ?_
    · exact absurd hbelow (by decide)
    · exact Registry.forall_supertypes (show _ = [Ty.cls (.arrayOf fooClass)] from rfl)
        (List.forall_mem_singleton.mpr (.cls trivial))
    · exact .cls List.mem_cons_self
    · simp only [S, List.forall_mem_cons]
      refine ⟨?_, nofun, List.forall_mem_nil _⟩
      rintro _ ⟨⟩
      exact List.forall_mem_singleton.mpr (.cls (by simp))
    · simp only [S, List.forall_mem_cons]
      exact ⟨nofun, nofun, List.forall_mem_nil _⟩
    · simp only [S, List.forall_mem_cons]
      exact ⟨by decide, by decide, List.forall_mem_nil _⟩

end Token

end Generics
