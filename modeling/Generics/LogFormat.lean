import Generics.Text.Blank

/-!
The form in which a log of type resolution is written, and how a setting names it.
-/

namespace Generics

inductive LogFormat where
  /-- Flat lines. -/
  | text
  /-- Indented by nesting. -/
  | tree
  /-- One JSON object a line. -/
  | json
  deriving DecidableEq

/-- The format with a given name: blanks around the name and the case of its letters do not
matter, and a name that is not known stands for flat lines. Only ASCII letters have a lower
case among the letters of the known names, so the ASCII case map is enough. -/
def LogFormat.ofName (name : String) : LogFormat :=
  let letters := (Text.trimBlanks name.toList).map Char.toLower
  if letters = "tree".toList then .tree
  else if letters = "json".toList then .json
  else .text

end Generics
