import ShaderFront.Diagnostic.Basic
import ShaderFront.Directive.Evaluate
import ShaderFront.Include.Library

/-!
# The preprocessor

Carries out the directives of a source: macros, conditional parts and includes. Every directive becomes an empty
line, and so do the lines of branches that are not taken, so that lines keep their numbers; an included file is
put in whole. Only directives that cannot be read stop the processing; every other problem is noted in a log.

Main content:

* `Options`, `State`, `Preprocessor`;
* `visitAll`, the output of a list of particles;
* `includeFile`, the output of an `#include`;
* `Preprocessor.process`.
-/

namespace ShaderFront

namespace Preprocess

open Directive (Particle Condition BranchOf lineCount)

/-- The settings of a preprocessor. -/
structure Options where
  /-- The greatest number of nested macros, in text and in conditions. -/
  maxExpansionDepth : Nat := 64
  maxIncludeDepth : Nat := 16
  /-- Macros that are defined before the source. -/
  predefined : List (String × String) := []

/-- A number and the text after it, as in `#version` and `#line`. -/
structure Mark where
  number : Int64
  text : Option String
deriving DecidableEq, Repr

/-- What the directives of a source leave behind. -/
structure State where
  macros : MacroTable
  version : Option Mark := none
  line : Option Mark := none
  log : List Message := []
  library : Library

namespace State

/-- Adds messages. -/
def note (s : State) (messages : List Message) : State := { s with log := s.log ++ messages }

/-- The state before a source. -/
def initial (options : Options) (library : Library) : State :=
  { macros := MacroTable.predefined.defineAll options.predefined, library }

/-- Carries out a `#define`. Names that begin with `GL_` are reserved. -/
def define (s : State) (d : MacroDefinition) : State :=
  if d.name.startsWith "GL_" then s.note [.error s!"macro name `{d.name}` is reserved"]
  else
    let (old, macros) := s.macros.define (.ofDefinition d)
    let s := { s with macros }
    match old with
    | none => s
    | some old =>
      if old.body ≠ d.body || old.parameters ≠ d.parameters then s.note [.warn s!"macro `{d.name}` redefined"] else s

/-- Carries out an `#undef`. -/
def undefine (s : State) (name : String) : State :=
  match s.macros.undefine name with
  | (true, macros) => { s with macros }
  | (false, _) => s.note [.info s!"`#undef` of macro `{name}` which is not defined"]

/-- Carries out a `#version`. -/
def setVersion (s : State) (mark : Mark) : State :=
  let s := if s.version.isSome then s.note [.warn "`#version` appears more than once"] else s
  { s with version := some mark }

/-- Decides the condition of a branch. -/
def decide (options : Options) (s : State) : Condition → Bool × State
  | .holds e =>
    let r := Directive.evaluate s.macros options.maxExpansionDepth e
    (r.value ≠ 0, s.note r.log)
  | .ifdef name => (s.macros.isDefined name, s)
  | .ifndef name => (!s.macros.isDefined name, s)

end State

/-- Empty lines. -/
def blankLines (n : Nat) : String := "".pushn '\n' n

/-- How an `#include` of a path is carried out: its output and the state after it. -/
abbrev Includer := String → State → String × State

mutual

/-- The output of a particle and the state after it. -/
def visit (options : Options) (includer : Includer) : Particle → State → String × State
  | .text text, s =>
    let (out, log) := Macro.expand s.macros options.maxExpansionDepth text
    (out, s.note log)
  | .define d, s => ("\n", s.define d)
  | .undef name, s => ("\n", s.undefine name)
  | .error text, s => ("\n", s.note [.error ("#error " ++ text)])
  | .extension _, s => ("\n", s)
  | .include path _, s => includer path s
  | .line line source, s => ("\n", { s with line := some ⟨line, source⟩ })
  | .null, s => ("\n", s)
  | .pragma _, s => ("\n", s)
  | .version version profile, s => ("\n", s.setVersion ⟨version, profile⟩)
  | .conditional branches none, s =>
    let (out, _, s) := visitBranches options includer false branches s
    (out ++ "\n", s)
  | .conditional branches (some body), s =>
    let (out, taken, s) := visitBranches options includer false branches s
    if taken then (out ++ "\n" ++ blankLines (lineCount body) ++ "\n", s)
    else
      let (rest, s) := visitAll options includer body s
      (out ++ "\n" ++ rest ++ "\n", s)

/-- The output of some particles and the state after them. -/
def visitAll (options : Options) (includer : Includer) : List Particle → State → String × State
  | [], s => ("", s)
  | p :: rest, s =>
    let (out, s) := visit options includer p s
    let (others, s) := visitAll options includer rest s
    (out ++ others, s)

/-- The output of some branches, whether one of them was taken, and the state after them. The conditions after a
branch that was taken are not looked at. -/
def visitBranches (options : Options) (includer : Includer) :
    Bool → List (BranchOf Particle) → State → String × Bool × State
  | taken, [], s => ("", taken, s)
  | true, ⟨_, body⟩ :: rest, s =>
    let (others, taken, s) := visitBranches options includer true rest s
    ("\n" ++ blankLines (lineCount body) ++ others, taken, s)
  | false, ⟨condition, body⟩ :: rest, s =>
    let (holds, s) := s.decide options condition
    if holds then
      let (out, s) := visitAll options includer body s
      let (others, taken, s) := visitBranches options includer true rest s
      ("\n" ++ out ++ others, taken, s)
    else
      let (others, taken, s) := visitBranches options includer false rest s
      ("\n" ++ blankLines (lineCount body) ++ others, taken, s)

end

/-- A text that ends in a line break. -/
def endLine (text : String) : String := if text.endsWith "\n" then text else text ++ "\n"

/-- The output of what the text of a resource reads as, ended by a line break; its includes are carried out by `inner`. A text
whose directives cannot be read is an empty line and a message. -/
def includeParticles (options : Options) (inner : Includer) (resource : Resource) (s : State) :
    Except LanguageError (List Particle) → String × State
  | .error e => ("\n", s.note [.error s!"failed to preprocess `{resource.text}`: {(Fault.directives e).message}"])
  | .ok particles =>
    let (out, s) := visitAll options inner particles s
    (endLine out, s)

/-- The output of the text of a resource. -/
def includeText (options : Options) (inner : Includer) (resource : Resource) (source : String) (s : State) : String × State :=
  includeParticles options inner resource s (Directive.parse source)

/-- The output of an `#include` of a path; the includes in its text are carried out by `inner`. A path without a text is an
empty line and a message. -/
def includeWith (options : Options) (inner : Includer) : Includer := fun path s =>
  match Resource.ofPath path with
  | .error e => ("\n", s.note [.error s!"cannot include `{path}`: {e.message}"])
  | .ok resource =>
    match s.library.resolve resource with
    | (.error e, library) => ("\n", { s with library }.note [.error s!"cannot include `{path}`: {e.message}"])
    | (.ok source, library) => includeText options inner resource source { s with library }

/-- The output of an `#include` with `levels` more levels of includes to go. -/
def includeFile (options : Options) : Nat → Includer
  | 0, path, s =>
    ("\n", s.note [.error s!"cannot include `{path}`: {(Fault.includeDepth options.maxIncludeDepth).message}"])
  | levels + 1, path, s => includeWith options (includeFile options levels) path s

/-- The output of what a source reads as, and the state after it. A source whose directives cannot be read changes nothing. -/
def processParticles (options : Options) (source : String) (s : State) :
    Except LanguageError (List Particle) → Except Diagnostic String × State
  | .error e => (.error { fault := .directives e, source := some source }, s)
  | .ok particles =>
    let (out, s) := visitAll options (includeFile options options.maxIncludeDepth) particles s
    (.ok out, s)

/-- The output of a source and the state after it. -/
def processSource (options : Options) (source : String) (s : State) : Except Diagnostic String × State :=
  processParticles options source s (Directive.parse source)

/-- The output of a header, ended by a line break. An empty header has none. -/
def processHeader (options : Options) (header : String) (s : State) : Except Diagnostic String × State :=
  if header.isEmpty then (.ok "", s) else (processSource options header s).map (Except.map endLine) id

/-- The output of a source after that of a header, and the state after it. -/
def processAfter (options : Options) (source : String) : Except Diagnostic String × State → Except Diagnostic String × State
  | (.error e, s) => (.error e, s)
  | (.ok front, s) => (processSource options source s).map (Except.map (front ++ ·)) id

end Preprocess

/-- A preprocessor: its settings and the state after the last source. -/
structure Preprocessor where
  options : Preprocess.Options := {}
  /-- A text that is processed before every source. -/
  header : String := ""
  state : Preprocess.State

namespace Preprocessor

open Preprocess

/-- A preprocessor with the standard settings. -/
def ofLibrary (library : Library) : Preprocessor := { state := .initial {} library }

/-- A preprocessor with other settings; the state of the last source is dropped. -/
def setOptions (p : Preprocessor) (options : Options) : Preprocessor :=
  { p with options, state := .initial options p.state.library }

/-- A preprocessor with another header. -/
def setHeader (p : Preprocessor) (header : String) : Preprocessor := { p with header }

/-- Processes a source. The macros of the header are defined in the source, and its output stands in front. -/
def process (p : Preprocessor) (source : String) : Except Diagnostic String × Preprocessor :=
  let outcome := processAfter p.options source (processHeader p.options p.header (.initial p.options p.state.library))
  (outcome.1, { p with state := outcome.2 })

end Preprocessor

end ShaderFront
