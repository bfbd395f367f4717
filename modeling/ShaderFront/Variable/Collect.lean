import ShaderFront.Tag.Language
import ShaderFront.Text.Blank
import ShaderFront.Variable.Basic

/-!
# Collecting variables

Walks over the declarations of a shader and records its global variables, each with the tags of the annotations
around its declaration. Annotations that cannot be read and variables that are declared twice are noted in a
log.

Main content: `Collector`, `Collector.visit`.
-/

namespace ShaderFront

open Shader (TagComment TypeQualifier ArraySpecifier FullType Block Declaration External CompilationUnit)

/-- The variables found so far, and the notes on the way. -/
structure Collector where
  table : VariableTable := {}
  log : List String := []

namespace Collector

/-- Adds a note. -/
def note (c : Collector) (message : String) : Collector := { c with log := c.log ++ [message] }

/-- The tags of a comment from the parse of its content; a comment that cannot be read has none and is noted. -/
def keepTags (c : Collector) (comment : TagComment) : Except LanguageError (List Tag) → List Tag × Collector
  | .ok tags => (tags, c)
  | .error e =>
    let text := String.ofList (Text.trim comment.text.toList)
    ([], c.note s!"invalid annotation `{text}`: {e.message}")

/-- The tags of one comment. -/
def readComment (c : Collector) (comment : TagComment) : List Tag × Collector :=
  c.keepTags comment (Tag.parse comment.content comment.contentOffset)

/-- The tags of some comments. -/
def readComments (c : Collector) : List TagComment → List Tag × Collector
  | [] => ([], c)
  | comment :: rest =>
    let first := c.readComment comment
    let others := first.2.readComments rest
    (first.1 ++ others.1, others.2)

/-- Records a variable. -/
def insert (c : Collector) (v : Variable) : Collector :=
  match c.table.insert v with
  | (none, table) => { c with table }
  | (some replaced, table) => { c with table }.note s!"redeclaration of `{replaced.name}`"

/-- A property of a type's qualifiers, or else of those around it. -/
def ownOr {α : Type} (type : FullType) (outer : Option TypeQualifier) (f : TypeQualifier → Option α) : Option α :=
  (type.qualifier.bind f).orElse fun _ => outer.bind f

/-- The variable a declarator declares. `outer` holds the qualifiers of the block it is a member of. -/
def variableOf (type : FullType) (outer : Option TypeQualifier) (name : String) (array : Option ArraySpecifier)
    (tags : List Tag) : Variable :=
  let dimensions := (type.specifier.array.toList ++ array.toList).flatMap (·.dimensions)
  let (elementType, elements) := ElementType.ofTypeName type.specifier.name
  { name, elementType, elements, tags
    typeName := typeNameText type.specifier.name
    isArray := !dimensions.isEmpty
    arraySize := if dimensions.isEmpty then none else ArraySpecifier.size ⟨dimensions⟩
    storage := ownOr type outer TypeQualifier.storage
    interpolation := ownOr type outer TypeQualifier.interpolation
    precision := ownOr type outer TypeQualifier.precision
    invariant := type.qualifier.any TypeQualifier.isInvariant || outer.any TypeQualifier.isInvariant }

/-- Records the variables of a block. With an instance name it is one variable; otherwise its members are variables with
the qualifiers of the block. -/
def visitBlock (c : Collector) (block : Block) (tags : List Tag) : Collector :=
  match block.inst with
  | some inst =>
    c.insert (variableOf ⟨some block.qualifier, ⟨.named block.name, none⟩⟩ none inst block.array tags)
  | none =>
    block.members.foldl
      (fun c member =>
        let (own, c) := c.readComments (member.leading ++ member.trailing)
        member.declarators.foldl
          (fun c d => c.insert (variableOf member.type (some block.qualifier) d.name d.array (tags ++ own))) c)
      c

/-- Records the variables of a declaration. -/
def visitDeclaration (c : Collector) (declaration : Declaration) (tags : List Tag) : Collector :=
  match declaration with
  | .variableList vs =>
    vs.declarators.foldl (fun c d => c.insert (variableOf vs.type none d.name d.array tags)) c
  | .block block => c.visitBlock block tags
  | .prototype _ => c
  | .precision _ _ => c
  | .qualifier _ => c

/-- Records the variables of a declaration with comments. Functions declare none. -/
def visitExternal (c : Collector) : External → Collector
  | .declaration leading declaration trailing =>
    let (tags, c) := c.readComments (leading ++ trailing)
    c.visitDeclaration declaration tags
  | .function _ _ _ => c

/-- Records the variables of a shader. -/
def visit (c : Collector) (unit : CompilationUnit) : Collector := unit.declarations.foldl visitExternal c

/-- The uniforms; unless `keep`, they leave the table. -/
def uniforms (c : Collector) (keep : Bool) : List Variable × Collector :=
  let (selected, table) := c.table.uniforms keep
  (selected, { c with table })

/-- The outputs; unless `keep`, they leave the table. -/
def outs (c : Collector) (keep : Bool) : List Variable × Collector :=
  let (selected, table) := c.table.outs keep
  (selected, { c with table })

end Collector

end ShaderFront
