/-
  Decoded JSON.

  An object is the dictionary of its fields.  Integers are apart from other numbers, as
  decoders give them different types.
-/
import Mathlib.Data.Rat.Defs
import RulesMkosi.Lib.Dict

namespace RulesMkosi

inductive Json where
  | null
  | bool (value : Bool)
  | int (value : ℤ)
  | float (value : ℚ)
  | string (value : String)
  | list (items : List Json)
  | object (fields : List (String × Json))

namespace Json

def text? : Json → Option String
  | .string value => some value
  | _ => none

/-- The members of a list of strings. -/
def texts? : Json → Option (List String)
  | .list items => items.mapM text?
  | _ => none

@[simp] theorem text?_string (value : String) : (string value).text? = some value := rfl

@[simp] theorem texts?_list (values : List String) :
    (list (values.map string)).texts? = some values := by
  unfold texts?
  induction values with
  | nil => rfl
  | cons value values ih => simp [List.mapM_cons, ih]

end Json

end RulesMkosi
