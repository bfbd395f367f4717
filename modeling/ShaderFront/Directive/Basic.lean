import ShaderFront.Directive.Expression
import ShaderFront.Macro.Basic
import ShaderFront.Text.Span
import ShaderFront.Text.Split

/-!
# Directives

The syntax tree of a source with directives: runs of text and directives, in order. A conditional holds its branches, so
particles nest.

Main content: `Particle`, `Condition`, `lineCount`.
-/

namespace ShaderFront.Directive

/-- The condition of a branch. -/
inductive Condition where
  /-- The condition of `#if` and `#elif`. -/
  | holds (expression : Expression)
  | ifdef (name : String)
  | ifndef (name : String)
deriving Repr

/-- A branch of a conditional over any type `P` of particles. -/
structure BranchOf (P : Type) where
  condition : Condition
  body : List P
deriving Repr

/-- A run of text or a directive. -/
inductive Particle where
  | text (text : String)
  | define (definition : MacroDefinition)
  | undef (name : String)
  | error (text : String)
  | extension (text : String)
  | include (path : String) (span : Span)
  | line (line : Int64) (source : Option String)
  | null
  | pragma (text : String)
  | version (version : Int64) (profile : Option String)
  /-- The branches of `#if` and its `#elif`s, and the body of `#else`. -/
  | conditional (branches : List (BranchOf Particle)) (otherwise : Option (List Particle))
deriving Repr

abbrev Branch := BranchOf Particle

mutual

/-- The number of lines a particle occupies in the output. -/
def Particle.lines : Particle → Nat
  | .text text => Text.newlineCount text.toList
  | .conditional branches none => branchLines branches + 1
  | .conditional branches (some body) => branchLines branches + (1 + lineCount body) + 1
  | _ => 1

/-- The number of lines some particles occupy in the output. -/
def lineCount : List Particle → Nat
  | [] => 0
  | p :: rest => p.lines + lineCount rest

/-- The number of lines some branches occupy, each with the line of its condition. -/
def branchLines : List (BranchOf Particle) → Nat
  | [] => 0
  | ⟨_, body⟩ :: rest => (1 + lineCount body) + branchLines rest

end

end ShaderFront.Directive
