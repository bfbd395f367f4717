import ShaderFront.Tag.Basic
import ShaderFront.Variable.Type

/-!
# Variables

The global variables of a shader, and the table they are kept in. A table holds at most one variable of a name,
in the order in which the names were declared first.

Main content:

* `Variable`, `Variable.text`;
* `VariableTable.insert`, `VariableTable.get?`, `VariableTable.select`.
-/

namespace ShaderFront

open Shader (Storage Interpolation Precision TypeName)

/-- A global variable. -/
structure Variable where
  name : String
  /-- The type as written, such as `vec4` or the name of a structure. -/
  typeName : String
  elementType : ElementType
  elements : Nat
  isArray : Bool
  /-- The number of elements of the array, if all its sizes are integer literals. -/
  arraySize : Option Int64
  storage : Option Storage
  interpolation : Option Interpolation
  precision : Option Precision
  invariant : Bool
  tags : List Tag
deriving DecidableEq, Repr

namespace Variable

/-- The first tag with a name. -/
def tag? (v : Variable) (name : String) : Option Tag := v.tags.find? (·.name = name)

/-- The brackets after the name of an array. -/
def arrayText (v : Variable) : String :=
  if v.isArray then "[" ++ (v.arraySize.map Integer.text).getD "" ++ "]" else ""

/-- The variable as a line of a listing. -/
def text (v : Variable) : String :=
  let storage := (v.storage.map fun s => s.text ++ " ").getD ""
  let tags := if v.tags.isEmpty then "" else " " ++ " ".intercalate (v.tags.map Tag.text)
  storage ++ v.typeName ++ " " ++ v.name ++ v.arrayText ++ s!" ({v.elementType.text} x{v.elements})" ++ tags

end Variable

/-- The name of a type as written. -/
def typeNameText : TypeName → String
  | .void => "void"
  | .native name => name
  | .named name => name
  | .struct name _ => name.getD "struct"

/-- One scope of variables, in the order of their declaration. -/
structure VariableTable where
  entries : List Variable := []
deriving DecidableEq, Repr

namespace VariableTable

/-- Puts a variable in the place of the first one of its name, or at the end. -/
def place (v : Variable) : List Variable → Option Variable × List Variable
  | [] => (none, [v])
  | w :: rest =>
    if w.name = v.name then (some w, v :: rest)
    else
      let (replaced, rest) := place v rest
      (replaced, w :: rest)

/-- Inserts a variable; one of the same name is replaced in its place and returned. -/
def insert (t : VariableTable) (v : Variable) : Option Variable × VariableTable :=
  let (replaced, entries) := place v t.entries
  (replaced, ⟨entries⟩)

/-- The variable with a name. -/
def get? (t : VariableTable) (name : String) : Option Variable := t.entries.find? (·.name = name)

/-- The names in order. -/
def names (t : VariableTable) : List String := t.entries.map (·.name)

/-- The variables that satisfy a test. Unless `keep`, they leave the table. -/
def select (t : VariableTable) (keep : Bool) (p : Variable → Bool) : List Variable × VariableTable :=
  (t.entries.filter p, if keep then t else ⟨t.entries.filter fun v => !p v⟩)

/-- The variables declared `uniform`. -/
def uniforms (t : VariableTable) (keep : Bool) : List Variable × VariableTable :=
  t.select keep fun v => v.storage = some .uniform

/-- The variables declared `out` or `centroid out`. -/
def outs (t : VariableTable) (keep : Bool) : List Variable × VariableTable :=
  t.select keep fun v => v.storage = some .out || v.storage = some .centroidOut

end VariableTable

end ShaderFront
