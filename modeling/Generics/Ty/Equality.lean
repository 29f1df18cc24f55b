import Generics.Ty.Basic

/-!
Equality of types. Classes are compared by name, variables by declaration and name, arguments
in order, and the bound lists of wildcards as sets: as many bounds, and each bound of the one
among the bounds of the other. A wildcard keeps no two equal bounds, so this is equality of
sets.
-/

namespace Generics.Ty

mutual

def beq : Ty → Ty → Bool
  | cls c, cls d => c == d
  | param owner raw args, param owner' raw' args' =>
      raw == raw' && beqOwner owner owner' && beqList args args'
  | array component, array component' => beq component component'
  | wild upper lower, wild upper' lower' =>
      upper.length == upper'.length && beqSubset upper upper' &&
        (lower.length == lower'.length && beqSubset lower lower')
  | var v, var w => v == w
  | _, _ => false
termination_by structural t => t

def beqOwner : Option Ty → Option Ty → Bool
  | none, none => true
  | some owner, some owner' => beq owner owner'
  | _, _ => false
termination_by structural owner => owner

/-- Equal lists: of one length, and equal place by place. -/
def beqList : List Ty → List Ty → Bool
  | [], [] => true
  | t :: ts, u :: us => beq t u && beqList ts us
  | _, _ => false
termination_by structural ts => ts

/-- Whether each type of the first list equals one of the second. -/
def beqSubset : List Ty → List Ty → Bool
  | [], _ => true
  | t :: ts, us => us.any (fun u => beq t u) && beqSubset ts us
termination_by structural ts => ts

end

instance : BEq Ty := ⟨beq⟩

theorem beqSubset_eq_all (ts us : List Ty) :
    beqSubset ts us = ts.all fun t => us.any fun u => beq t u := by
  induction ts with
  | nil => rfl
  | cons t ts ih => simp [beqSubset, ih]

end Generics.Ty
