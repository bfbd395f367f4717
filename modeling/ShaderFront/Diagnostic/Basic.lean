import ShaderFront.Diagnostic.Snippet
import ShaderFront.Include.Resource
import ShaderFront.Parse.Language

/-!
# Diagnostics

What stops the processing of a source, with the source, the file and the place it is about.

Main content: `Fault`, `Diagnostic`, `Diagnostic.report`, `LanguageError.report`.
-/

namespace ShaderFront

/-- A fault that stops the processing of a source or of an included file. -/
inductive Fault where
  | resolve (error : ResolveError)
  /-- The directives of a source cannot be read. -/
  | directives (error : LanguageError)
  /-- The declarations of a source cannot be read. -/
  | declarations (error : LanguageError)
  | includeDepth (limit : Nat)
deriving DecidableEq, Repr

namespace Fault

/-- The text of a fault. -/
def message : Fault → String
  | .resolve e => e.message
  | .directives (.grammar e) => "the preprocessor table is invalid: " ++ e.message
  | .directives (.parse e) => e.message
  | .declarations e => e.message
  | .includeDepth limit => s!"includes are nested more than {limit} levels deep"

/-- Where the source is wrong. -/
def span? : Fault → Option Span
  | .directives e => e.span?
  | .declarations e => e.span?
  | _ => none

end Fault

/-- A fault with the place it is about. -/
structure Diagnostic where
  fault : Fault
  source : Option String := none
  file : Option Resource := none
  span : Option Span := fault.span?

namespace Diagnostic

/-- The report of a diagnostic. A place needs a source that reaches so far. -/
def report (d : Diagnostic) : Report :=
  let title := d.fault.message
  match d.span, d.source with
  | none, _ => .plain title
  | some _, none => .note title "cannot display snippet: missing source file"
  | some span, some source =>
    if span.stop ≤ source.utf8ByteSize then
      .snippet title { source, span, label := title, file := d.file.map Resource.text }
    else .note title "cannot display snippet: invalid source location"

/-- The text of a diagnostic. -/
def text (d : Diagnostic) : String := d.report.text

end Diagnostic

/-- The report of an error in a source; what was expected is the label of the snippet. -/
def LanguageError.report (e : LanguageError) (source : String) : Report :=
  match e with
  | .parse (.unexpectedToken found expected span) =>
    .snippet s!"unexpected token `{found}`" { source, span, label := "expected " ++ ", ".intercalate expected }
  | .parse (.unexpectedEnd expected span) =>
    .snippet "unexpected end of file" { source, span, label := "expected " ++ ", ".intercalate expected }
  | e => .plain e.message

end ShaderFront
