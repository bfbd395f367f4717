import ShaderFront.Preprocess.Basic
import ShaderFront.Shader.Language
import ShaderFront.Variable.Collect

/-!
# Shader programs

A program takes the source of a shader through the preprocessor, reads its declarations and collects its variables.

Main content: `Program`, `Program.process`.
-/

namespace ShaderFront

open Shader (CompilationUnit)

/-- A program: its preprocessor and what the last source gave. -/
structure Program where
  preprocessor : Preprocessor
  /-- The preprocessed text. -/
  output : String := ""
  unit : Option CompilationUnit := none
  collector : Collector := {}
  /-- The messages of the preprocessor and about the variables, and the fault that stopped the last source. -/
  log : List Message := []

namespace Program

/-- A program without a source. -/
def ofLibrary (library : Library) : Program := { preprocessor := .ofLibrary library }

/-- Processes a source; what the source before it gave is dropped. -/
def process (p : Program) (source : String) : Except Diagnostic Unit × Program :=
  let (result, preprocessor) := p.preprocessor.process source
  let start : Program := { preprocessor, log := preprocessor.state.log }
  match result with
  | .error d => (.error d, { start with log := start.log ++ [.error d.text] })
  | .ok output =>
    match Shader.parse output with
    | .error e =>
      let d : Diagnostic := { fault := .declarations e, source := some output }
      (.error d, { start with output, log := start.log ++ [.error d.text] })
    | .ok unit =>
      let collector := Collector.visit {} unit
      (.ok (), { start with output, unit := some unit, collector, log := start.log ++ collector.log.map .warn })

/-- The uniforms; unless `keep`, they leave the table. -/
def uniforms (p : Program) (keep : Bool) : List Variable × Program :=
  let (selected, collector) := p.collector.uniforms keep
  (selected, { p with collector })

/-- The outputs; unless `keep`, they leave the table. -/
def outs (p : Program) (keep : Bool) : List Variable × Program :=
  let (selected, collector) := p.collector.outs keep
  (selected, { p with collector })

end Program

end ShaderFront
