import ShaderFront.Diagnostic.Message
import ShaderFront.Lex.Scan
import ShaderFront.Macro.Basic
import ShaderFront.Text.Blank
import ShaderFront.Text.Split

/-!
# Macro expansion

Replaces the macros of a text by their bodies. What a macro is replaced by is expanded again, except for the
macros whose expansion is under way, and down to a given depth. Comments and numbers are left alone.

Main content:

* `substitute`, arguments for parameters in the body of a macro;
* `readCall?`, the arguments of a call;
* `expand`, the expansion of a text together with the messages about it.
-/

namespace ShaderFront.Macro

/-! ## Words and numbers -/

/-- The length of a number such as `1e10`, `0x1F` or `2.5f` after its first character `last`. A sign belongs to
it after an `e`, unless the number is hexadecimal. -/
def numberTail (hex : Bool) (last : Char) : List Char → Nat
  | [] => 0
  | c :: rest =>
    let exponentSign := (c = '+' || c = '-') && (last = 'e' || last = 'E') && !hex
    if isWordChar c || c = '.' || exponentSign then numberTail hex c rest + 1 else 0

/-- Whether a number is hexadecimal. -/
def isHexNumber (c : Char) (rest : List Char) : Bool :=
  c = '0' &&
    match rest with
    | x :: _ => x = 'x' || x = 'X'
    | [] => false

/-- The length of a number after its first character. -/
def numberMore (c : Char) (rest : List Char) : Nat := numberTail (isHexNumber c rest) c rest

/-- Whether a text begins with a number. -/
def isNumber (c : Char) (rest : List Char) : Bool :=
  c.isDigit || (c = '.' && (rest.head?.map Char.isDigit).getD false)

/-! ## Substitution -/

/-- The argument for a word, if it is a parameter. -/
def argument? (parameters : List String) (arguments : List (List Char)) (word : List Char) : Option (List Char) :=
  (parameters.findIdx? (·.toList = word)).bind fun i => arguments[i]?

/-- Replaces the parameters of a macro in its body by arguments. -/
def substitute (parameters : List String) (arguments : List (List Char)) : List Char → List Char
  | [] => []
  | c :: rest =>
    if isWordStart c then
      let more := runLength isWordChar rest
      let word := c :: rest.take more
      (argument? parameters arguments word).getD word ++ substitute parameters arguments (rest.drop more)
    else if c.isDigit then
      let more := numberMore c rest
      c :: rest.take more ++ substitute parameters arguments (rest.drop more)
    else c :: substitute parameters arguments rest
termination_by body => body.length
decreasing_by all_goals (simp only [List.length_cons, List.length_drop]; omega)

/-! ## Calls -/

/-- The arguments of a call as written, and what follows its closing parenthesis. -/
structure Call where
  arguments : List (List Char)
  length : Nat

/-- Reads the rest of a call. `depth` counts the open parentheses, `current` holds the argument under way, last
character first, and `length` the characters read so far. -/
def readArguments (depth : Nat) (current : List Char) (length : Nat) : List Char → Option Call
  | [] => none
  | c :: rest =>
    match commentLength? (c :: rest) with
    | some n =>
      readArguments depth ((c :: rest.take (n - 1)).reverse ++ current) (length + (rest.take (n - 1)).length + 1)
        (rest.drop (n - 1))
    | none =>
      if c = '(' then readArguments (depth + 1) (c :: current) (length + 1) rest
      else if c = ')' then
        if depth = 0 then some ⟨[current.reverse], length + 1⟩
        else readArguments (depth - 1) (c :: current) (length + 1) rest
      else if c = ',' && depth = 0 then
        (readArguments depth [] (length + 1) rest).map fun call =>
          { call with arguments := current.reverse :: call.arguments }
      else readArguments depth (c :: current) (length + 1) rest
termination_by cs => cs.length
decreasing_by all_goals (simp only [List.length_cons, List.length_drop]; omega)

/-- Reads the arguments of a call whose text begins with its opening parenthesis. -/
def readCall? : List Char → Option Call
  | '(' :: rest => readArguments 0 [] 1 rest
  | _ => none

/-- An argument with one blank for each run of white space, and none at its ends. -/
def normalize (argument : List Char) : List Char :=
  (" ".intercalate (Text.words (String.ofList argument))).toList

/-- The arguments of a call for a macro with some number of parameters. No parameters take one empty argument. -/
def callArguments (parameterCount : Nat) (call : Call) : List (List Char) :=
  let arguments := call.arguments.map normalize
  if parameterCount = 0 && arguments = [[]] then [] else arguments

/-! ## Expansion -/

/-- A text and the messages about it. -/
structure Expansion where
  text : List Char
  log : List Message

/-- Puts characters in front. -/
def Expansion.after (e : Expansion) (front : List Char) : Expansion := { e with text := front ++ e.text }

/-- Puts messages in front. -/
def Expansion.noting (e : Expansion) (log : List Message) : Expansion := { e with log := log ++ e.log }

/-- How a word at the front of a text is expanded: what it is replaced by, how many characters after the word
belong to the call, and the messages. -/
structure Replacement where
  text : List Char
  consumed : Nat
  log : List Message

/-- What a text is expanded with: the macros, the greatest depth, and the macros whose expansion is under way. -/
structure Scope where
  macros : MacroTable
  maxDepth : Nat
  active : List String

/-- Leaves a word and some characters after it as they are. -/
def keep (word after : List Char) (consumed : Nat) (log : List Message) : Replacement :=
  ⟨word ++ after.take consumed, consumed, log⟩

/-- Replaces a macro with parameters. Without an argument list it is left as it is. The line breaks inside the
call follow its expansion, so that lines keep their numbers. -/
def replaceCall (inner : String → List Char → Expansion) (m : Macro) (parameters : List String)
    (word after : List Char) : Replacement :=
  let name := String.ofList word
  let blanks := runLength Text.isBlank after
  match after.drop blanks with
  | '(' :: rest =>
    match readCall? ('(' :: rest) with
    | none => keep word after 0 [.error s!"unterminated call to macro `{name}`"]
    | some call =>
      let arguments := callArguments parameters.length call
      let consumed := blanks + call.length
      if arguments.length ≠ parameters.length then
        keep word after consumed
          [.error s!"macro `{name}` expects {parameters.length} arguments, found {arguments.length}"]
      else
        let expansion := inner name (substitute parameters arguments m.body.toList)
        let newlines := Text.newlineCount (after.take consumed)
        ⟨expansion.text ++ List.replicate newlines '\n', consumed, expansion.log⟩
  | _ => keep word after 0 []

/-- Replaces a word. `inner` expands the replacement of a macro. -/
def replaceWord (inner : String → List Char → Expansion) (scope : Scope) (word after : List Char) : Replacement :=
  let name := String.ofList word
  match scope.macros.get? name with
  | none => keep word after 0 []
  | some m =>
    if name ∈ scope.active then keep word after 0 [.warn s!"recursive macro `{name}` is not expanded"]
    else if scope.maxDepth ≤ scope.active.length then
      keep word after 0 [.error s!"expansion of macro `{name}` exceeds {scope.maxDepth} nested levels"]
    else
      match m.parameters with
      | none =>
        let expansion := inner name m.body.toList
        ⟨expansion.text, 0, expansion.log⟩
      | some parameters => replaceCall inner m parameters word after

/-- Expands a text. `inner` expands the replacement of a macro. -/
def expandWith (inner : String → List Char → Expansion) (scope : Scope) : List Char → Expansion
  | [] => ⟨[], []⟩
  | c :: rest =>
    match commentLength? (c :: rest) with
    | some n => (expandWith inner scope (rest.drop (n - 1))).after (c :: rest.take (n - 1))
    | none =>
      if isNumber c rest then
        let more := numberMore c rest
        (expandWith inner scope (rest.drop more)).after (c :: rest.take more)
      else if isWordStart c then
        let more := runLength isWordChar rest
        let after := rest.drop more
        let r := replaceWord inner scope (c :: rest.take more) after
        ((expandWith inner scope (after.drop r.consumed)).after r.text).noting r.log
      else (expandWith inner scope rest).after [c]
termination_by cs => cs.length
decreasing_by all_goals (simp only [List.length_cons, List.length_drop]; omega)

/-- Expands a text with `levels` more levels of macros to go. -/
def expandLevels (macros : MacroTable) (maxDepth : Nat) : Nat → List String → List Char → Expansion
  | 0, active, text => expandWith (fun _ replacement => ⟨replacement, []⟩) ⟨macros, maxDepth, active⟩ text
  | levels + 1, active, text =>
    expandWith (fun name replacement => expandLevels macros maxDepth levels (active ++ [name]) replacement)
      ⟨macros, maxDepth, active⟩ text

/-- Expands the macros of a text. -/
def expand (macros : MacroTable) (maxDepth : Nat) (text : String) : String × List Message :=
  let e := expandLevels macros maxDepth maxDepth [] text.toList
  (String.ofList e.text, e.log)

end ShaderFront.Macro
