import ShaderFront.Text.Span
import ShaderFront.Text.Split

/-!
# Snippets

A report on a source: a title, and below it the line the report is about with a marked part and a label.

Main content: `Snippet`, `Report`, `Report.text`.
-/

namespace ShaderFront

/-- A marked part of a source. -/
structure Snippet where
  source : String
  span : Span
  label : String
  /-- The name of the file the source comes from. -/
  file : Option String := none

/-- A report: a title, and a snippet or a note below it. -/
inductive Report where
  | plain (title : String)
  | snippet (title : String) (snippet : Snippet)
  | note (title : String) (note : String)

namespace Snippet

/-- A line of a text, with its number, counted from 1, and the offset at which it begins. -/
structure Line where
  number : Nat
  start : Nat
  chars : List Char

/-- The line an offset lies in, given the number and the start of the first of the lines. The last line also holds every
later offset. -/
def lineAt (offset number start : Nat) : List (List Char) → Line
  | [] => ⟨number, start, []⟩
  | line :: rest =>
    let stop := start + byteLength line
    if rest.isEmpty || offset < stop then ⟨number, start, line.filter (· ≠ '\n')⟩
    else lineAt offset (number + 1) stop rest

/-- The lines of the snippet. The margin is as wide as the line number. -/
def lines (s : Snippet) : List String :=
  let line := lineAt s.span.start 1 0 (Text.lines s.source.toList)
  let number := toString line.number
  let margin := "".pushn ' ' number.length
  let column := s.span.start - line.start
  let origin := s.file.toList.map fun file => s!"{margin}--> {file}:{number}:{column + 1}"
  origin ++
    [ s!"{margin} |",
      s!"{number} | {String.ofList line.chars}",
      margin ++ " | " ++ "".pushn ' ' column ++ "".pushn '^' (max 1 s.span.length) ++ " " ++ s.label,
      s!"{margin} |" ]

end Snippet

/-- The text of a report. -/
def Report.text : Report → String
  | .plain title => "error: " ++ title
  | .snippet title s => "\n".intercalate (("error: " ++ title) :: s.lines)
  | .note title text => "error: " ++ title ++ "\n = note: " ++ text

end ShaderFront
