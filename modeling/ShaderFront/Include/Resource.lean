import ShaderFront.Text.Split

/-!
# Include paths

A resource names a file below the include directory by the names on the way to it. Both `/` and `\` separate
names in the path of an `#include`, and `.` and `..` are resolved; a path that is empty or leaves the directory
is refused.

Main content: `Resource`, `Resource.ofPath`, `Resource.text`, `ResolveError`.
-/

namespace ShaderFront

/-- The names on the way to a file below the include directory. -/
structure Resource where
  components : List String
deriving DecidableEq, Repr

/-- Why a file cannot be included. -/
inductive ResolveError where
  | fileNotFound (file : String)
  | invalidResource (path : String)
deriving DecidableEq, Repr

/-- The text of the error. -/
def ResolveError.message : ResolveError → String
  | .fileNotFound file => s!"failed to read file `{file}`"
  | .invalidResource path => s!"invalid include path `{path}`"

namespace Resource

/-- Follows the parts of a path from the names so far, last one first; none if it leaves the directory. -/
def follow (names : List String) : List String → Option (List String)
  | [] => some names
  | part :: rest =>
    if part = "" || part = "." then follow names rest
    else if part = ".." then
      match names with
      | [] => none
      | _ :: names => follow names rest
    else follow (part :: names) rest

/-- The parts of a text between separators. -/
def parts (isSeparator : Char → Bool) (path : String) : List String :=
  (Text.splitAt isSeparator path.toList).map String.ofList

/-- The resource of the path of an `#include`. -/
def ofPath (path : String) : Except ResolveError Resource :=
  match follow [] (parts (fun c => c = '/' || c = '\\') path) with
  | none => .error (.invalidResource path)
  | some [] => .error (.invalidResource path)
  | some names => .ok ⟨names.reverse⟩

/-- The resource of a path of the file system: its ordinary names. -/
def ofNames (path : String) : Resource :=
  ⟨(parts (· = '/') path).filter fun part => part ≠ "" && part ≠ "." && part ≠ ".."⟩

/-- The names with `/` between them. -/
def text (r : Resource) : String := "/".intercalate r.components

end Resource

end ShaderFront
