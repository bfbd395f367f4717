import ShaderFront.Text.Binary64
import ShaderFront.Text.Integer

/-!
# Tags

An annotation is a list of tags. A tag gives a value, or a list of values, to a name, as in `@min = 0.0`.
-/

namespace ShaderFront

/-- A value of a tag. -/
inductive TagValue where
  | bool (value : Bool)
  | int (value : Int64)
  | float (value : Binary64)
  /-- A string without its quotes. -/
  | string (text : String)
  /-- A character literal without its quotes. -/
  | char (text : String)
deriving DecidableEq, Repr

/-- A name and its values. -/
structure Tag where
  name : String
  values : List TagValue
deriving DecidableEq, Repr

/-- A value as it is written. -/
def TagValue.text : TagValue → String
  | .bool b => if b then "true" else "false"
  | .int i => Integer.text i
  | .float x => x.text
  | .string s => "\"" ++ s ++ "\""
  | .char c => "'" ++ c ++ "'"

/-- A tag as it is written: one value stands alone, any other number of them in brackets. -/
def Tag.text (t : Tag) : String :=
  match t.values with
  | [value] => "@" ++ t.name ++ " = " ++ value.text
  | values => "@" ++ t.name ++ " = [" ++ ", ".intercalate (values.map TagValue.text) ++ "]"

end ShaderFront
