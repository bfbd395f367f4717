import ShaderFront.Ordered.Map

/-!
# Macros

A macro stands for a text. It may have parameters. A table holds the macros by name; undefining a macro keeps
its entry but marks it, so that a macro that was never defined can be told from one that is no more.

Main content: `Macro`, `Macro.text`, `MacroTable` with `define`, `undefine`, `get?`, `isDefined`.
-/

namespace ShaderFront

/-- What a `#define` says. -/
structure MacroDefinition where
  name : String
  /-- None for a macro that takes no argument list. -/
  parameters : Option (List String)
  body : String
deriving DecidableEq, Repr

/-- A macro of a table. -/
structure Macro where
  name : String
  parameters : Option (List String) := none
  body : String
  defined : Bool := true
deriving DecidableEq, Repr

namespace Macro

/-- The macro of a definition. -/
def ofDefinition (d : MacroDefinition) : Macro := { name := d.name, parameters := d.parameters, body := d.body }

/-- The macro as a directive. -/
def text (m : Macro) : String :=
  let parameters :=
    match m.parameters with
    | some ps => "(" ++ ", ".intercalate ps ++ ")"
    | none => ""
  let body := if m.body.isEmpty then "" else " " ++ m.body
  "#define " ++ m.name ++ parameters ++ body

end Macro

/-- The macros by name, defined ones and undefined ones. -/
structure MacroTable where
  entries : OrderedMap String Macro := ∅
deriving DecidableEq

namespace MacroTable

/-- The defined macro with a name. -/
def get? (t : MacroTable) (name : String) : Option Macro := (t.entries.get? name).filter (·.defined)

/-- Whether a macro is defined. -/
def isDefined (t : MacroTable) (name : String) : Bool := (t.get? name).isSome

/-- Whether a macro was defined once and then undefined. -/
def isUndefined (t : MacroTable) (name : String) : Bool := (t.entries.get? name).any (!·.defined)

/-- Adds or replaces a macro. Also gives the definition it replaces. -/
def define (t : MacroTable) (m : Macro) : Option Macro × MacroTable :=
  (t.get? m.name, ⟨t.entries.insert m.name m⟩)

/-- Undefines a macro; says whether it was defined. -/
def undefine (t : MacroTable) (name : String) : Bool × MacroTable :=
  match t.get? name with
  | some m => (true, ⟨t.entries.insert name { m with defined := false }⟩)
  | none => (false, t)

/-- The defined macros, in the order of their names. -/
def toList (t : MacroTable) : List Macro := (t.entries.toList.map (·.2)).filter (·.defined)

/-- Defines macros one after the other. -/
def defineAll (t : MacroTable) (macros : List (String × String)) : MacroTable :=
  macros.foldl (fun t (name, body) => (t.define { name, body }).2) t

/-- The table every source starts from. -/
def predefined : MacroTable :=
  defineAll {} [("__FILE__", "0"), ("__LINE__", "0"), ("__VERSION__", "150")]

end MacroTable

end ShaderFront
