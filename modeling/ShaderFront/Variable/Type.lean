import ShaderFront.Shader.Declaration
import ShaderFront.Text.Split

/-!
# Element types

The scalar type a variable is made of, and how many elements of it one variable has: a `vec3` is three floats, a
`mat2x3` six, a `sampler2D` has two dimensions and a `samplerCube` six faces.
-/

namespace ShaderFront

open Shader (TypeName)

/-- The scalar type of a variable. -/
inductive ElementType where
  | void
  | bool
  | int
  | uint
  | float
  | sampler
  | struct
deriving DecidableEq, Repr

namespace ElementType

/-- The name of a scalar type in listings. -/
def text : ElementType → String
  | .void => "VOID"
  | .bool => "BOOL"
  | .int => "INT"
  | .uint => "UINT"
  | .float => "FLOAT"
  | .sampler => "SAMPLER"
  | .struct => "STRUCT"

/-- The elements of a sampler, from what follows the word in its name. -/
def samplerElements (dimension : List Char) : Nat :=
  if "1D".toList.isPrefixOf dimension then 1
  else if "2D".toList.isPrefixOf dimension then 2
  else if "3D".toList.isPrefixOf dimension then 3
  else if "Cube".toList.isPrefixOf dimension then 6
  else 0

/-- The product of two numbers of elements, in 32 bits. -/
def product (n m : Nat) : Nat := (UInt32.ofNat n * UInt32.ofNat m).toNat

/-- The elements of a matrix, from the dimensions in its name. -/
def matrixElements (dimensions : List Char) : Nat :=
  match (Text.splitAt (· = 'x') dimensions).filterMap Integer.readUnsigned? with
  | n :: m :: _ => product n m
  | [n] => product n n
  | [] => 0

/-- The scalar type of a vector or scalar, from what precedes `vec` in its name or from the name. -/
def ofFront (front : List Char) : ElementType :=
  if front = "b".toList || front = "bool".toList then .bool
  else if front = "i".toList || front = "int".toList then .int
  else if front = "u".toList || front = "uint".toList then .uint
  else .float

/-- The scalar type and the number of elements of a built-in type. -/
def ofNative (name : String) : ElementType × Nat :=
  let cs := name.toList
  match Text.splitOnce? "sampler".toList cs with
  | some (_, dimension) => (.sampler, samplerElements dimension)
  | none =>
    match Text.after? "mat".toList cs with
    | some dimensions => (.float, matrixElements dimensions)
    | none =>
      match Text.splitOnce? "vec".toList cs with
      | some (front, n) => (ofFront front, (Integer.readUnsigned? n).getD 0)
      | none => (ofFront cs, 1)

/-- The scalar type and the number of elements of a type. Structures have no elements. -/
def ofTypeName : TypeName → ElementType × Nat
  | .void => (.void, 1)
  | .native name => ofNative name
  | .named _ => (.struct, 0)
  | .struct _ _ => (.struct, 0)

end ElementType

end ShaderFront
