import ShaderFront.Command.Request
import ShaderFront.Program

/-!
# Running commands

What a command line prints and the status it ends with, given the files it can read: 0 for success, 1 for a
failure, 2 for bad usage.

Main content: `Result`, `run`.
-/

namespace ShaderFront.Command

/-- The outcome of a command. -/
structure Result where
  status : Nat := 0
  stdout : String := ""
  stderr : String := ""
  /-- The paths at which no file was found. -/
  missing : List String := []

/-- Texts, one to a line. -/
def linesOf (texts : List String) : String := String.join (texts.map (· ++ "\n"))

/-- The parts of a path, last one first, from its last name on: after the first part, an empty one and `.` are no
names. -/
def fromLastName : List String → List String
  | [] => []
  | [first] => [first]
  | part :: rest => if part = "" || part = "." then fromLastName rest else part :: rest

/-- The directory part of a path: what stands before its last name. -/
def parentOf (path : String) : String :=
  match fromLastName (fromLastName (Resource.parts (· = '/') path).reverse).tail with
  | [""] => "/"
  | parts => "/".intercalate parts.reverse

/-- A predefined macro: a name and a value, or a name with the value 1. -/
def definition (text : String) : String × String :=
  match Text.splitOnce? ['='] text.toList with
  | some (name, value) => (String.ofList name, String.ofList value)
  | none => (text, "1")

/-- The include directory of a command. -/
def libraryOf (read? : String → Option String) (a : SourceArguments) : Library :=
  .directory { base := a.includeDirectory.getD (parentOf a.input), read? }

/-- The settings of a command. -/
def optionsOf (a : SourceArguments) : Preprocess.Options := { predefined := a.defines.map definition }

/-- Runs the preprocessor on a source. -/
def preprocess (read? : String → Option String) (a : SourceArguments) (source : String) : Result :=
  let p := (Preprocessor.ofLibrary (libraryOf read? a)).setOptions (optionsOf a)
  let (result, p) := p.process source
  let log := linesOf (p.state.log.map Message.line)
  let missing := p.state.library.missing
  match result with
  | .ok out => { stdout := out, stderr := log, missing }
  | .error d => { status := 1, stderr := log ++ d.text ++ "\n", missing }

/-- Processes a source as a program; `report` is what is printed for a program without faults. -/
def onProgram (read? : String → Option String) (a : SourceArguments) (source : String) (front : String)
    (report : Program → String) : Result :=
  let p := Program.ofLibrary (libraryOf read? a)
  let p := { p with preprocessor := p.preprocessor.setOptions (optionsOf a) }
  let (result, p) := p.process source
  let log := linesOf (p.log.map Message.line)
  let missing := p.preprocessor.state.library.missing
  match result with
  | .ok () => { stdout := front ++ report p, stderr := log, missing }
  | .error d => { status := 1, stdout := front, stderr := log ++ d.text ++ "\n", missing }

/-- What is printed before a source is looked at. -/
def frontOf (command : SourceCommand) (a : SourceArguments) : String :=
  if command = .check then a.input ++ " -- " else ""

/-- Runs a command on a source. -/
def runSource (read? : String → Option String) (command : SourceCommand) (a : SourceArguments) : Result :=
  let front := frontOf command a
  match read? a.input with
  | none => { status := 1, stdout := front, stderr := s!"could not read `{a.input}`\n", missing := [a.input] }
  | some source =>
    match command with
    | .preprocess => preprocess read? a source
    | .check => onProgram read? a source front fun _ => "OK\n"
    | .dump => onProgram read? a source front fun p => (p.unit.map fun u => toString (repr u) ++ "\n").getD ""
    | .uniforms => onProgram read? a source front fun p => linesOf ((p.uniforms true).1.map Variable.text)
    | .outs => onProgram read? a source front fun p => linesOf ((p.outs true).1.map Variable.text)

/-- The grammar of a language. -/
def grammarOf : LanguageName → Except GrammarError Grammar
  | .shader => Shader.grammar
  | .directives => Directive.grammar
  | .tags => Tag.grammar

/-- Reports on a table. -/
def runTable (language : LanguageName) (construction : Construction) (dump : Bool) : Result :=
  match grammarOf language with
  | .error e => { status := 1, stderr := e.message ++ "\n" }
  | .ok g =>
    let t := g.table construction
    let head := s!"{t.stateCount} states, {t.conflicts.length} conflicts\n"
    { stdout := head ++ linesOf (t.conflicts.map Conflict.text) ++ (if dump then t.text ++ "\n" else "") }

/-- Runs a command line. -/
def run (read? : String → Option String) (arguments : List String) : Result :=
  match Request.parse? arguments with
  | none => { status := 2, stderr := "bad usage\n" }
  | some (.source command a) => runSource read? command a
  | some (.table language construction dump) => runTable language construction dump

end ShaderFront.Command
