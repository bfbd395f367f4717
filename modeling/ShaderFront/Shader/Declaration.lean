import ShaderFront.Shader.Token
import ShaderFront.Text.Integer

/-!
# Declarations of a shader

The syntax tree of a shader at the level of its declarations. Function bodies, initializers and array sizes are
not looked into; they are kept as lists of tokens.

Main content:

* `TypeName` and the parts of a declaration around it;
* `Declaration`, `External`, `CompilationUnit`;
* `TagComment.content`, `TypeQualifier.storage`, `ArraySpecifier.size`.
-/

namespace ShaderFront.Shader

/-! ## Comments and token lists -/

/-- A comment that holds annotations, with its delimiters. -/
structure TagComment where
  text : String
  span : Span
deriving DecidableEq, Repr

/-- The characters without `*/` at their end. -/
def withoutClose (cs : List Char) : List Char :=
  match cs.reverse with
  | '/' :: '*' :: rest => rest.reverse
  | _ => cs

/-- The text of a comment without its delimiters. -/
def TagComment.content (c : TagComment) : String :=
  match c.text.toList with
  | '/' :: '/' :: '$' :: rest => String.ofList rest
  | '/' :: '*' :: '$' :: rest => String.ofList (withoutClose rest)
  | _ => c.text

/-- Where the content of a comment begins in the source. -/
def TagComment.contentOffset (c : TagComment) : Nat := c.span.start + 3

/-- Tokens that are kept as they are. -/
structure TokenList where
  tokens : List Token
deriving DecidableEq, Repr

namespace TokenList

/-- The tokens with a blank between them. -/
def text (l : TokenList) : String := " ".intercalate (l.tokens.map (·.text))

/-- The value of a list of exactly one integer literal. -/
def integer? (l : TokenList) : Option Int64 :=
  match l.tokens with
  | [token] => if token.symbol = TokenKind.intConstant.id then Integer.read? token.text else none
  | _ => none

end TokenList

/-- The dimensions of an array, one or more; an empty one has no size. -/
structure ArraySpecifier where
  dimensions : List TokenList
deriving DecidableEq, Repr

/-- The number of elements, if every dimension is an integer literal. -/
def ArraySpecifier.size (a : ArraySpecifier) : Option Int64 :=
  a.dimensions.foldlM (fun acc dimension => dimension.integer?.map (acc * ·)) 1

/-! ## Qualifiers -/

/-- The storage of a variable. -/
inductive Storage where
  | const
  | attribute
  | varying
  | centroidVarying
  | in_
  | centroidIn
  | out
  | centroidOut
  | uniform
deriving DecidableEq, Repr

/-- A storage as it is written. -/
def Storage.text : Storage → String
  | .const => "const"
  | .attribute => "attribute"
  | .varying => "varying"
  | .centroidVarying => "centroid varying"
  | .in_ => "in"
  | .centroidIn => "centroid in"
  | .out => "out"
  | .centroidOut => "centroid out"
  | .uniform => "uniform"

/-- How a value is interpolated between vertices. -/
inductive Interpolation where
  | smooth
  | flat
  | noPerspective
deriving DecidableEq, Repr

/-- The precision of a number. -/
inductive Precision where
  | high
  | medium
  | low
deriving DecidableEq, Repr

/-- An entry of a layout. -/
structure LayoutId where
  name : String
  value : Option Int64
deriving DecidableEq, Repr

/-- One qualifier of a type. -/
inductive Qualifier where
  | storage (storage : Storage)
  | layout (ids : List LayoutId)
  | interpolation (interpolation : Interpolation)
  | invariant
  | precision (precision : Precision)
deriving DecidableEq, Repr

/-- The qualifiers of a type, in order. -/
structure TypeQualifier where
  qualifiers : List Qualifier
deriving DecidableEq, Repr

namespace TypeQualifier

/-- The first storage qualifier. -/
def storage (q : TypeQualifier) : Option Storage :=
  q.qualifiers.findSome? fun
    | .storage s => some s
    | _ => none

/-- The first interpolation qualifier. -/
def interpolation (q : TypeQualifier) : Option Interpolation :=
  q.qualifiers.findSome? fun
    | .interpolation i => some i
    | _ => none

/-- The first precision qualifier. -/
def precision (q : TypeQualifier) : Option Precision :=
  q.qualifiers.findSome? fun
    | .precision p => some p
    | _ => none

/-- Whether one of the qualifiers is `invariant`. -/
def isInvariant (q : TypeQualifier) : Bool := q.qualifiers.contains .invariant

/-- The entries of all layouts. -/
def layout (q : TypeQualifier) : List LayoutId :=
  q.qualifiers.flatMap fun
    | .layout ids => ids
    | _ => []

end TypeQualifier

/-- A qualifier of a parameter. -/
inductive ParameterQualifier where
  | const
  | in_
  | out
  | inOut
  | precision (precision : Precision)
deriving DecidableEq, Repr

/-! ## Types

The names of types nest: a structure has members, and members have types. The parts between are stated over any
type `T` of names. -/

/-- A type name and the dimensions after it. -/
structure TypeSpecifierOf (T : Type) where
  name : T
  array : Option ArraySpecifier
deriving Repr

/-- A type with its qualifiers. -/
structure FullTypeOf (T : Type) where
  qualifier : Option TypeQualifier
  specifier : TypeSpecifierOf T
deriving Repr

/-- The name of a member and the dimensions after it. -/
structure MemberDeclarator where
  name : String
  array : Option ArraySpecifier
deriving Repr

/-- A line of a structure or block. -/
structure MemberOf (T : Type) where
  leading : List TagComment
  type : FullTypeOf T
  declarators : List MemberDeclarator
  trailing : List TagComment
deriving Repr

/-- The name of a type. -/
inductive TypeName where
  | void
  /-- A built-in type such as `float`, `ivec3` or `sampler2D`. -/
  | native (name : String)
  /-- A type the shader defines elsewhere. -/
  | named (name : String)
  | struct (name : Option String) (members : List (MemberOf TypeName))
deriving Repr

abbrev TypeSpecifier := TypeSpecifierOf TypeName
abbrev FullType := FullTypeOf TypeName
abbrev Member := MemberOf TypeName

/-! ## Declarations -/

/-- A parameter of a function. -/
structure Parameter where
  qualifiers : List ParameterQualifier
  type : TypeSpecifier
  name : Option String
  array : Option ArraySpecifier
deriving Repr

/-- The head of a function. -/
structure Prototype where
  returnType : FullType
  name : String
  parameters : List Parameter
deriving Repr

/-- A variable of a declaration. -/
structure Declarator where
  name : String
  span : Span
  array : Option ArraySpecifier
  initializer : Option TokenList
deriving Repr

/-- Variables of one type. -/
structure VariableList where
  type : FullType
  declarators : List Declarator
deriving Repr

/-- An interface block. -/
structure Block where
  qualifier : TypeQualifier
  name : String
  members : List Member
  inst : Option String
  array : Option ArraySpecifier
deriving Repr

/-- A declaration. -/
inductive Declaration where
  | prototype (prototype : Prototype)
  | variableList (list : VariableList)
  | precision (precision : Precision) (type : TypeSpecifier)
  | block (block : Block)
  /-- A qualifier alone, such as `layout(std140) uniform;`. -/
  | qualifier (qualifier : TypeQualifier)
deriving Repr

/-- A declaration with the comments before and after it, or a function with its body. -/
inductive External where
  | declaration (leading : List TagComment) (declaration : Declaration) (trailing : List TagComment)
  | function (leading : List TagComment) (prototype : Prototype) (body : TokenList)
deriving Repr

/-- The declarations of a shader, in order. -/
structure CompilationUnit where
  declarations : List External
deriving Repr

end ShaderFront.Shader
