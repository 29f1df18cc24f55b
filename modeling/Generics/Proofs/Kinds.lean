import Generics.Proofs.Ancestry
import Generics.Proofs.Vocabulary

/-!
Vocabularies that are computed from a registry and a list of variables: the
class handles have the kind that is registered for their names, or are array
classes named after their components, and the variables keep their bounds in
the cells of those in the list.
-/

namespace Generics

/-- The handle that is registered for a name; an ordinary class if there is none. -/
def Registry.handle (registry : Registry) (name : String) : ClassRef :=
  (registry.get? name).getD (.named name .ordinary)

/-- The handle of a declared class; for another name no handle of a class is regular. -/
def Registry.declaredHandle (registry : Registry) (name : String) : ClassRef :=
  (registry.get? name).getD (.array name .object)

/-- Whether a handle has the kind of the one that stands for its name, or is an
array class with the name of one. Only these end with a bracket. -/
def ClassRef.isRegular (handle : String → ClassRef) : ClassRef → Bool
  | named name kind =>
    name.toList.getLast? != some ']' && (named name kind).sameKind (handle name)
  | array name component =>
    component.isRegular handle && (name == component.name ++ "[]" ||
      name.toList.getLast? != some ']' && (array name component).sameKind (handle name))

/-- Whether a variable keeps its bounds where the first equal one of a list does. -/
def TyVar.isListed (vars : List TyVar) (v : TyVar) : Bool :=
  (vars.find? (· == v)).any (·.cell == v.cell)

namespace Ty

mutual

/-- Whether a type is written with given classes and variables. -/
def isWritten (isClass : ClassRef → Bool) (isVar : TyVar → Bool) : Ty → Bool
  | cls c => isClass c
  | param owner raw args =>
    isWrittenOwner isClass isVar owner && isClass raw && isWrittenList isClass isVar args
  | array component => isWritten isClass isVar component
  | wild upper lower =>
    upper.length == 1 && lower.length ≤ 1 && isWrittenList isClass isVar upper &&
      isWrittenList isClass isVar lower
  | var v => isVar v
termination_by structural t => t

def isWrittenOwner (isClass : ClassRef → Bool) (isVar : TyVar → Bool) : Option Ty → Bool
  | none => true
  | some owner => isWritten isClass isVar owner
termination_by structural owner => owner

def isWrittenList (isClass : ClassRef → Bool) (isVar : TyVar → Bool) : List Ty → Bool
  | [] => true
  | t :: ts => isWritten isClass isVar t && isWrittenList isClass isVar ts
termination_by structural ts => ts

end

variable {isClass : ClassRef → Bool} {isVar : TyVar → Bool}

theorem isWrittenList_iff {ts : List Ty} :
    isWrittenList isClass isVar ts = true ↔ ∀ t ∈ ts, t.isWritten isClass isVar = true := by
  induction ts with
  | nil => simp [isWrittenList]
  | cons t ts ih => simp [isWrittenList, ih]

theorem written_of_isWritten {t : Ty} (h : t.isWritten isClass isVar = true) :
    t.Written (isClass · = true) (isVar · = true) := by
  induction t using parts with
  | cls c => exact .cls h
  | param owner raw args howner hargs =>
      simp only [isWritten, Bool.and_eq_true, isWrittenList_iff] at h
      obtain ⟨⟨ho, hraw⟩, ha⟩ := h
      refine .param ?_ hraw fun a ha' => hargs a ha' (ha a ha')
      cases owner with
      | none => simp
      | some o => simpa using howner o rfl ho
  | array component ih => exact .array (ih h)
  | wild upper lower hupper hlower =>
      simp only [isWritten, Bool.and_eq_true, isWrittenList_iff, beq_iff_eq,
        decide_eq_true_eq] at h
      obtain ⟨⟨⟨hulen, hllen⟩, hu⟩, hl⟩ := h
      obtain ⟨u, rfl⟩ := List.length_eq_one_iff.mp hulen
      have hu' := hupper u List.mem_cons_self (hu u List.mem_cons_self)
      match lower, hllen with
      | [], _ => exact .wildUpper hu'
      | [l], _ =>
          exact .wildLower hu' (hlower l List.mem_cons_self (hl l List.mem_cons_self))
  | var v => exact .var h

end Ty

namespace ClassRef

variable {handle : String → ClassRef}

theorem sameKind_symm {c d : ClassRef} (h : c.sameKind d = true) : d.sameKind c = true := by
  cases c <;> cases d <;> simp_all [sameKind]

theorem sameKind_trans {c d e : ClassRef} (h : c.sameKind d = true) (h' : d.sameKind e = true) :
    c.sameKind e = true := by
  cases c <;> cases d <;> cases e <;> simp_all [sameKind]

/-- A regular handle is registered by its name or named after its component. -/
theorem regular_cases {c : ClassRef} (hc : c.isRegular handle = true) :
    (c.name.toList.getLast? ≠ some ']' ∧ c.sameKind (handle c.name) = true) ∨
      ∃ component, c = arrayOf component := by
  cases c with
  | named name kind =>
      simp only [isRegular, Bool.and_eq_true, bne_iff_ne] at hc
      exact Or.inl hc
  | array name component =>
      simp only [isRegular, Bool.and_eq_true, Bool.or_eq_true, beq_iff_eq, bne_iff_ne] at hc
      rcases hc.2 with hname | hregistered
      · exact Or.inr ⟨component, by rw [arrayOf, hname]⟩
      · exact Or.inl hregistered

theorem name_of_arrayOf {c d : ClassRef} (h : (arrayOf c).name = (arrayOf d).name) :
    c.name = d.name := by
  have hnames : (c.name ++ "[]").toList = (d.name ++ "[]").toList := congrArg String.toList h
  rw [String.toList_append, String.toList_append, List.append_cancel_right_eq] at hnames
  exact String.toList_inj.mp hnames

theorem getLast?_arrayOf (c : ClassRef) : (arrayOf c).name.toList.getLast? = some ']' := by
  simp

theorem sameKind_of_regular {c d : ClassRef} (hc : c.isRegular handle = true)
    (hd : d.isRegular handle = true) (h : (c == d) = true) : c.sameKind d = true := by
  rw [beq_iff_name] at h
  rcases regular_cases hc with ⟨hlast, hkind⟩ | ⟨e, rfl⟩
  · rcases regular_cases hd with ⟨-, hkind'⟩ | ⟨e, rfl⟩
    · rw [← h] at hkind'
      exact sameKind_trans hkind (sameKind_symm hkind')
    · rw [h] at hlast
      exact absurd (getLast?_arrayOf e) hlast
  · rcases regular_cases hd with ⟨hlast, -⟩ | ⟨e', rfl⟩
    · rw [← h] at hlast
      exact absurd (getLast?_arrayOf e) hlast
    · exact beq_iff_name.mpr (name_of_arrayOf h)

end ClassRef

theorem TyVar.listed_cell {vars : List TyVar} {v : TyVar} (h : v.isListed vars = true) :
    ∃ x ∈ vars, vars.find? (· == v) = some x ∧ x.cell = v.cell := by
  obtain ⟨x, hfind, hcell⟩ := (Option.any_eq_true _ _).mp h
  exact ⟨x, List.mem_of_find?_eq_some hfind, hfind, by simpa using hcell⟩

theorem TyVar.cell_of_listed {vars : List TyVar} {v w : TyVar} (hv : v.isListed vars = true)
    (hw : w.isListed vars = true) (h : (v == w) = true) : v.cell = w.cell := by
  obtain ⟨x, -, hx, hxv⟩ := listed_cell hv
  obtain ⟨y, -, hy, hyw⟩ := listed_cell hw
  have heq : (fun u : TyVar => u == v) = fun u => u == w := by
    funext u
    exact Bool.eq_iff_iff.mpr ⟨fun hu => BEq.trans hu h, fun hu => BEq.trans hu (BEq.symm h)⟩
  rw [heq, hy] at hx
  cases hx
  exact hxv.symm.trans hyw

namespace Env

/-- Whether the declarations and the bounds are written with regular classes
and listed variables. -/
def isRegular (env : Env) (handle : String → ClassRef) (vars : List TyVar) : Bool :=
  [ClassRef.object, .cloneable, .serializable].all (ClassRef.isRegular handle) &&
    vars.all (fun v => (env.bounds.declared v).all
      (Ty.isWritten (ClassRef.isRegular handle) (TyVar.isListed vars))) &&
    env.classes.decls.toList.all fun entry =>
      entry.2.supertypes.all (Ty.isWritten (ClassRef.isRegular handle) (TyVar.isListed vars)) &&
        entry.2.parameters.all (TyVar.isListed vars) &&
        entry.2.enclosing?.all (ClassRef.isRegular handle)

/-- The parts of the check, by class and variable. -/
structure Regular (env : Env) (handle : String → ClassRef) (vars : List TyVar) : Prop where
  builtin : ∀ c ∈ [ClassRef.object, .cloneable, .serializable], c.isRegular handle = true
  bounds : ∀ v ∈ vars, ∀ t ∈ env.bounds.declared v,
    t.Written (ClassRef.isRegular handle · = true) (TyVar.isListed vars · = true)
  declared : ∀ entry ∈ env.classes.decls.toList,
    (∀ t ∈ entry.2.supertypes,
      t.Written (ClassRef.isRegular handle · = true) (TyVar.isListed vars · = true)) ∧
    (∀ v ∈ entry.2.parameters, v.isListed vars = true) ∧
    ∀ d ∈ entry.2.enclosing?, d.isRegular handle = true

variable {env : Env} {handle : String → ClassRef} {vars : List TyVar}

theorem regular_of_isRegular (h : env.isRegular handle vars = true) : env.Regular handle vars := by
  simp only [isRegular, Bool.and_eq_true] at h
  obtain ⟨⟨hbuiltin, hbounds⟩, hdecls⟩ := h
  refine ⟨List.all_eq_true.mp hbuiltin, ?_, ?_⟩
  · intro v hv t ht
    exact Ty.written_of_isWritten (List.all_eq_true.mp (List.all_eq_true.mp hbounds v hv) t ht)
  · intro entry hentry
    have hentry' := List.all_eq_true.mp hdecls entry hentry
    simp only [Bool.and_eq_true] at hentry'
    obtain ⟨⟨hedges, hparameters⟩, henclosing⟩ := hentry'
    refine ⟨?_, List.all_eq_true.mp hparameters, ?_⟩
    · intro t ht
      exact Ty.written_of_isWritten (List.all_eq_true.mp hedges t ht)
    · intro d hd
      rw [Option.mem_def.mp hd] at henclosing
      exact henclosing

theorem Regular.decl (h : env.Regular handle vars) {name : String} {d : ClassDecl}
    (hd : env.classes.decls[name]? = some d) :
    (∀ t ∈ d.supertypes,
      t.Written (ClassRef.isRegular handle · = true) (TyVar.isListed vars · = true)) ∧
    (∀ v ∈ d.parameters, v.isListed vars = true) ∧
    ∀ c ∈ d.enclosing?, c.isRegular handle = true :=
  h.declared (name, d) (Std.TreeMap.mem_toList_iff_getElem?_eq_some.mpr hd)

theorem Regular.edges (h : env.Regular handle vars) (c : ClassRef) :
    ∀ t ∈ env.classes.directSupertypes c,
      t.Written (ClassRef.isRegular handle · = true) (TyVar.isListed vars · = true) := by
  cases c with
  | named name k =>
      intro t ht
      rw [Registry.directSupertypes_named] at ht
      cases hd : env.classes.decls[name]? with
      | none => simp [hd] at ht
      | some d => exact (h.decl hd).1 t (by simpa [hd] using ht)
  | array name component =>
      intro t ht
      have hbuiltin : ∀ c ∈ [ClassRef.object, .cloneable, .serializable],
          (Ty.cls c).Written (ClassRef.isRegular handle · = true) (TyVar.isListed vars · = true) :=
        fun c hc => .cls (h.builtin c hc)
      obtain ⟨c, hc, rfl⟩ : ∃ c ∈ [ClassRef.object, .cloneable, .serializable], Ty.cls c = t :=
        List.mem_map.mp ht
      exact hbuiltin c hc

end Env

/-- The vocabulary of a table of kinds and a list of variables. -/
def Vocabulary.ofRegular {env : Env} {handle : String → ClassRef} {vars : List TyVar}
    (h : env.Regular handle vars) : Vocabulary env where
  isClass c := c.isRegular handle = true
  isVar v := v.isListed vars = true
  object := h.builtin _ (by simp)
  cloneable := h.builtin _ (by simp)
  serializable := h.builtin _ (by simp)
  arrayOf := by
    intro c hc
    simp [ClassRef.arrayOf, ClassRef.isRegular, hc]
  component := by
    intro c hc d hd
    cases c with
    | named _ _ => cases hd
    | array _ _ =>
        obtain rfl := Option.some.inj hd
        simp only [ClassRef.isRegular, Bool.and_eq_true] at hc
        exact hc.1
  sameKind := fun _ _ => ClassRef.sameKind_of_regular
  sameBounds := by
    intro v v' hv hv' heq
    have hcell := TyVar.cell_of_listed hv hv' heq
    have hdeclared : env.bounds.declared v = env.bounds.declared v' := by
      simp only [BoundTable.declared, hcell]
    rw [hdeclared]
    exact List.forall₂_same.mpr fun t _ => Ty.same_refl t
  bounds := by
    intro v hv t ht
    obtain ⟨x, hx, -, hcell⟩ := TyVar.listed_cell hv
    apply h.bounds x hx t
    simpa only [BoundTable.declared, hcell] using ht
  edges := fun c _ => h.edges c
  parameters := by
    intro c _ v hv
    cases hd : env.classes.decls[c.name]? with
    | none => simp [Registry.parameters, Registry.decl?, hd] at hv
    | some d =>
        apply (h.decl hd).2.1 v
        simpa [Registry.parameters, Registry.decl?, hd] using hv
  enclosing := by
    intro c _ d' hd'
    cases hd : env.classes.decls[c.name]? with
    | none => simp [Registry.enclosing?, Registry.decl?, hd] at hd'
    | some d =>
        apply (h.decl hd).2.2 d'
        simpa [Registry.enclosing?, Registry.decl?, hd] using hd'

/-- Whether a class has a superclass is checked by its declaration. -/
theorem Env.rooted_of_declared {env : Env} {vars : List TyVar}
    (hregular : env.Regular env.classes.declaredHandle vars)
    (h : ∀ entry ∈ env.classes.decls.toList, entry.2.ref.isInterface = true ∨
      entry.2.ref.isPrimitive = true ∨ entry.1 = ClassRef.rootName ∨
      entry.2.superclass?.isSome = true) (c : ClassRef)
    (hc : (Vocabulary.ofRegular hregular).isClass c) (hplain : c.isPlain = true)
    (hinterface : c.isInterface = false) (hobject : c.isObject = false) :
    (env.classes.superclass? c).isSome = true := by
  obtain ⟨harray, hprimitive⟩ := ClassRef.isPlain_iff.mp hplain
  obtain ⟨name, kind, rfl⟩ := ClassRef.exists_named harray
  have hkind : (ClassRef.named name kind).sameKind (env.classes.declaredHandle name) = true :=
    (Bool.and_eq_true_iff.mp hc).2
  cases hd : env.classes.decls[name]? with
  | none => simp [Registry.declaredHandle, Registry.get?, hd, ClassRef.sameKind] at hkind
  | some decl =>
      have hhandle : env.classes.declaredHandle name = decl.ref := by
        simp [Registry.declaredHandle, Registry.get?, hd]
      rw [hhandle] at hkind
      obtain ⟨refName, hrefEq⟩ : ∃ refName, decl.ref = .named refName kind := by
        cases hdecl : decl.ref with
        | named refName refKind =>
            rw [hdecl] at hkind
            obtain rfl : kind = refKind := beq_iff_eq.mp hkind
            exact ⟨refName, rfl⟩
        | array _ _ =>
            rw [hdecl] at hkind
            cases hkind
      have hentry := h (name, decl) (Std.TreeMap.mem_toList_iff_getElem?_eq_some.mpr hd)
      rw [hrefEq] at hentry
      rcases hentry with hflag | hflag | hname | hsome
      · exact absurd (hflag.symm.trans hinterface) (by decide)
      · exact absurd (hflag.symm.trans hprimitive) (by decide)
      · rw [ClassRef.isObject, ClassRef.name, beq_eq_false_iff_ne] at hobject
        exact absurd hname hobject
      · rw [Registry.superclass?, hd]
        exact hsome

end Generics
