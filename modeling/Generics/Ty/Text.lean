import Generics.Ty.Basic

/-!
How a type is written: `Map<K, V>`, `Outer<T>.Inner<U>`, `T[]`, `?`, `? extends A & B`,
`? super L`. An owner is written only when it is itself parameterized; then the class follows
by its simple name.
-/

namespace Generics.Ty

mutual

def text : Ty → String
  | cls c => c.name
  | param owner raw args =>
      let head := textOwner owner raw
      if args.isEmpty then head else head ++ "<" ++ ", ".intercalate (textList args) ++ ">"
  | array component => component.text ++ "[]"
  | wild upper lower =>
      if !lower.isEmpty then "? super " ++ " & ".intercalate (textList lower)
      else if upper.all isObject then "?"
      else "? extends " ++ " & ".intercalate (textList upper)
  | var v => v.name
termination_by structural t => t

/-- The raw class of a parameterized type, behind its owner. -/
def textOwner : Option Ty → ClassRef → String
  | some (param owner outer args), raw => (param owner outer args).text ++ "." ++ raw.simpleName
  | _, raw => raw.name
termination_by structural owner => owner

def textList : List Ty → List String
  | [] => []
  | t :: ts => t.text :: textList ts
termination_by structural ts => ts

end

@[simp] theorem textList_eq_map (ts : List Ty) : textList ts = ts.map text := by
  induction ts with
  | nil => rfl
  | cons t ts ih => simp [textList, ih]

instance : ToString Ty := ⟨text⟩

end Generics.Ty
