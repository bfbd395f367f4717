/-!
# Splitting texts

Cutting a list of characters at a pattern or at separators.
-/

namespace ShaderFront.Text

/-- What stands before and after the first occurrence of a pattern. -/
def splitOnce? (pattern : List Char) : List Char → Option (List Char × List Char)
  | [] => if pattern.isEmpty then some ([], []) else none
  | c :: rest =>
    if pattern.isPrefixOf (c :: rest) then some ([], (c :: rest).drop pattern.length)
    else (splitOnce? pattern rest).map fun (before, after) => (c :: before, after)

/-- The parts between the characters that satisfy a test; there is one more part than there are such characters. -/
def splitAt (p : Char → Bool) : List Char → List (List Char)
  | [] => [[]]
  | c :: rest =>
    if p c then [] :: splitAt p rest
    else
      match splitAt p rest with
      | part :: parts => (c :: part) :: parts
      | [] => [[c]]

/-- What follows a text at the front. -/
def after? (front : List Char) (cs : List Char) : Option (List Char) :=
  if front.isPrefixOf cs then some (cs.drop front.length) else none

/-- The lines of a text, each with the line break that ends it. -/
def lines : List Char → List (List Char)
  | [] => []
  | c :: rest =>
    if c = '\n' then [c] :: lines rest
    else
      match lines rest with
      | line :: others => (c :: line) :: others
      | [] => [[c]]

/-- The number of line breaks. -/
def newlineCount (cs : List Char) : Nat := cs.count '\n'

end ShaderFront.Text
