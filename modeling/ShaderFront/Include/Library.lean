import ShaderFront.Include.Resource

/-!
# Libraries of includable files

A library provides the text of included files. It may have no files, files in memory, or those of a directory. A directory
remembers what it has read, so a file that changes later keeps its first text. Any other source of files is given by its
answers: each of them may be a text or an error of any kind, and may depend on what was asked before.

Main content: `Library`, `Library.resolve`, `Library.ofAnswers`, `Directory`.
-/

namespace ShaderFront

/-- An include directory. -/
structure Directory where
  /-- The path of the directory. -/
  base : String
  /-- The text of the file at a path, if there is one. -/
  read? : String → Option String
  /-- The files read so far. -/
  cache : List (Resource × String) := []
  /-- The paths at which no file was found. -/
  missing : List String := []

/-- A source of includable files. -/
inductive Library where
  | none
  | inMemory (files : List (Resource × String))
  | directory (directory : Directory)
  /-- Any other source of files, by its answer to a request after the requests so far, first one first. -/
  | other (answer : List Resource → Resource → Except ResolveError String) (asked : List Resource)

namespace Directory

/-- A path below another one. -/
def join (base path : String) : String :=
  if base.isEmpty || base.endsWith "/" then base ++ path else base ++ "/" ++ path

/-- The text of a file, and the directory after it was read. -/
def resolve (d : Directory) (r : Resource) : Except ResolveError String × Directory :=
  match d.cache.lookup r with
  | some source => (.ok source, d)
  | none =>
    let path := join d.base r.text
    match d.read? path with
    | some source => (.ok source, { d with cache := (r, source) :: d.cache })
    | none => (.error (.fileNotFound (path ++ " (physical file)")), { d with missing := path :: d.missing })

end Directory

namespace Library

/-- The library of files given by their include paths. Of two files with the same resource the later one counts. -/
def ofFiles (files : List (String × String)) : Library :=
  .inMemory <| files.reverse.filterMap fun (path, text) =>
    match Resource.ofPath path with
    | .ok r => some (r, text)
    | .error _ => Option.none

/-- The library that answers a request by a function, whatever it was asked before. -/
def ofAnswers (answer : Resource → Except ResolveError String) : Library := .other (fun _ => answer) []

/-- The text of a file, and the library after it was asked for it. -/
def resolve (l : Library) (r : Resource) : Except ResolveError String × Library :=
  match l with
  | .none => (.error (.fileNotFound (r.text ++ " (no include directory)")), l)
  | .inMemory files =>
    match files.lookup r with
    | some source => (.ok source, l)
    | Option.none => (.error (.fileNotFound (r.text ++ " (virtual file)")), l)
  | .directory d =>
    let (result, d) := d.resolve r
    (result, .directory d)
  | .other answer asked => (answer asked r, .other answer (asked ++ [r]))

/-- The paths at which a directory found no file. -/
def missing : Library → List String
  | .directory d => d.missing
  | _ => []

end Library

end ShaderFront
