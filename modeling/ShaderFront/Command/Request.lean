import ShaderFront.Automaton.States
import ShaderFront.Text.Split

/-!
# Command lines

What a command line asks for. A command line that asks for nothing the program can do is bad usage.

Main content: `Request`, `Request.parse?`.
-/

namespace ShaderFront.Command

/-- The arguments of the commands that work on a source. -/
structure SourceArguments where
  input : String
  /-- The include directory, if it is not that of the source. -/
  includeDirectory : Option String := none
  /-- Predefined macros, each a name or a name and a value. -/
  defines : List String := []
deriving DecidableEq, Repr

/-- The languages whose tables can be looked at. -/
inductive LanguageName where
  | shader
  | directives
  | tags
deriving DecidableEq, Repr

/-- What to do with a source. -/
inductive SourceCommand where
  | preprocess
  | check
  | dump
  | uniforms
  | outs
deriving DecidableEq, Repr

/-- What a command line asks for. -/
inductive Request where
  | source (command : SourceCommand) (arguments : SourceArguments)
  | table (language : LanguageName) (construction : Construction) (dump : Bool)
deriving DecidableEq, Repr

/-! ## Words of a command line -/

/-- An option that takes a value. -/
inductive ValueOption where
  | includeDirectory
  | define
  | construction
deriving DecidableEq, Repr

/-- A word of a command line. -/
inductive Word where
  /-- An option, with its value if it is part of the word. -/
  | option (option : ValueOption) (value : Option String)
  | dump
  /-- The mark after which all words are operands. -/
  | operandsOnly
  | operand (text : String)
  | unknown

/-- The long names of options. -/
def longOption? : List Char → Option ValueOption
  | cs =>
    if cs = "include".toList then some .includeDirectory
    else if cs = "define".toList then some .define
    else if cs = "construction".toList then some .construction
    else none

/-- The short names of options. -/
def shortOption? : Char → Option ValueOption
  | 'I' => some .includeDirectory
  | 'D' => some .define
  | _ => none

/-- The value of a short option in the same word; a `=` in front of it is dropped. -/
def attachedValue : List Char → Option String
  | [] => none
  | '=' :: value => some (String.ofList value)
  | value => some (String.ofList value)

/-- Reads a word. -/
def Word.ofString (text : String) : Word :=
  match text.toList with
  | ['-'] => .operand text
  | ['-', '-'] => .operandsOnly
  | '-' :: '-' :: long =>
    let (name, value) :=
      match Text.splitOnce? ['='] long with
      | some (name, value) => (name, some (String.ofList value))
      | none => (long, none)
    match longOption? name with
    | some o => .option o value
    | none => if text = "--dump" then .dump else .unknown
  | '-' :: short :: rest =>
    match shortOption? short with
    | some o => .option o (attachedValue rest)
    | none => .unknown
  | _ => .operand text

/-- The words of a command line taken apart. -/
structure Parts where
  operands : List String := []
  values : List (ValueOption × String) := []
  dumps : Nat := 0

/-- Takes apart the words of a command line. `pending` is an option whose value is the next word, which must not
look like an option. -/
def Parts.collect (pending : Option ValueOption) (parts : Parts) : List String → Option Parts
  | [] => if pending.isSome then none else some parts
  | text :: rest =>
    match pending, Word.ofString text with
    | some option, .operand value => collect none { parts with values := parts.values ++ [(option, value)] } rest
    | some _, _ => none
    | none, .option option (some value) =>
      collect none { parts with values := parts.values ++ [(option, value)] } rest
    | none, .option option none => collect (some option) parts rest
    | none, .dump => collect none { parts with dumps := parts.dumps + 1 } rest
    | none, .operandsOnly => some { parts with operands := parts.operands ++ rest }
    | none, .operand value => collect none { parts with operands := parts.operands ++ [value] } rest
    | none, .unknown => none

/-- All values of an option. -/
def Parts.valuesOf (p : Parts) (option : ValueOption) : List String :=
  p.values.filterMap fun (o, v) => if o = option then some v else none

/-- The value of an option that may be given once; none inside if it is not given. -/
def Parts.single? (p : Parts) (option : ValueOption) : Option (Option String) :=
  match p.valuesOf option with
  | [] => some none
  | [value] => some (some value)
  | _ => none

/-! ## Requests -/

/-- The arguments of a command that works on a source. Paths are not empty. -/
def sourceArguments? (words : List String) : Option SourceArguments := do
  let parts ← Parts.collect none {} words
  let includeDirectory ← parts.single? .includeDirectory
  match parts.operands with
  | [input] =>
    if input.isEmpty || includeDirectory = some "" then none
    else if parts.dumps ≠ 0 || !(parts.valuesOf .construction).isEmpty then none
    else some { input, includeDirectory, defines := parts.valuesOf .define }
  | _ => none

/-- The language with a name. -/
def LanguageName.ofString? : String → Option LanguageName
  | "glsl" => some .shader
  | "preprocessor" => some .directives
  | "annotation" => some .tags
  | _ => none

/-- The construction with a name. -/
def constructionOfString? : String → Option Construction
  | "canonical" => some .canonical
  | "merged" => some .merged
  | "unioned" => some .unioned
  | _ => none

/-- The arguments of the command for tables. -/
def tableRequest? (words : List String) : Option Request := do
  let parts ← Parts.collect none {} words
  let name ← parts.single? .construction
  let construction ← constructionOfString? (name.getD "unioned")
  match parts.operands with
  | [language] =>
    let language ← LanguageName.ofString? language
    if parts.dumps ≤ 1 && (parts.valuesOf .includeDirectory).isEmpty && (parts.valuesOf .define).isEmpty then
      some (.table language construction (parts.dumps = 1))
    else none
  | _ => none

/-- What a command line asks for, or none if it is bad usage. -/
def Request.parse? : List String → Option Request
  | "preprocess" :: rest => (sourceArguments? rest).map (.source .preprocess)
  | "check" :: rest => (sourceArguments? rest).map (.source .check)
  | "dump" :: rest => (sourceArguments? rest).map (.source .dump)
  | "uniforms" :: rest => (sourceArguments? rest).map (.source .uniforms)
  | "outs" :: rest => (sourceArguments? rest).map (.source .outs)
  | "table" :: rest => tableRequest? rest
  | _ => none

end ShaderFront.Command
