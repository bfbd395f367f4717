import ShaderFront.Include.Resource

/-!
# Trees of files

The files and directories below a working directory, each by the names on the way to it. A path is followed name
by name: `..` goes back only from a directory that is there. Writing a file makes the directories on its path,
also those that the path goes into and leaves again, and removing a file leaves them.

Main content: `FileTree`, `FileTree.read?`, `FileTree.write`, `FileTree.remove`.
-/

namespace ShaderFront

/-- The files and directories below a working directory, which is itself always a directory. -/
structure FileTree where
  files : List (List String × String) := []
  directories : List (List String) := []

namespace FileTree

/-- Whether names lead to a directory. -/
def isDirectory (t : FileTree) (names : List String) : Bool :=
  names.isEmpty || t.directories.contains names

/-- Whether names lead to a file. -/
def isFile (t : FileTree) (names : List String) : Bool :=
  (t.files.lookup names).isSome

/-- Follows the parts of a path; every part is left from a directory. -/
def follow (t : FileTree) (names : List String) : List String → Option (List String)
  | [] => some names
  | part :: rest =>
    if !t.isDirectory names then none
    else if part = "" || part = "." then follow t names rest
    else if part = ".." then if names.isEmpty then none else follow t names.dropLast rest
    else follow t (names ++ [part]) rest

/-- Where a path relative to the working directory leads. -/
def locate? (t : FileTree) (path : String) : Option (List String) :=
  if path.startsWith "/" then none else t.follow [] (Resource.parts (· = '/') path)

/-- The text of the file at a path. -/
def read? (t : FileTree) (path : String) : Option String :=
  (t.locate? path).bind fun names => t.files.lookup names

/-- Follows the parts of a path and makes the directories on the way; none where a file is in the way. -/
def makeDirectories (t : FileTree) (names : List String) : List String → Option (List String × FileTree)
  | [] => some (names, t)
  | part :: rest =>
    if part = "" || part = "." then makeDirectories t names rest
    else if part = ".." then if names.isEmpty then none else makeDirectories t names.dropLast rest
    else
      let inner := names ++ [part]
      if t.isFile inner then none
      else makeDirectories { t with directories := t.directories.insert inner } inner rest

/-- The tree without the file at the end of names, if there is one. -/
def erase (t : FileTree) (names : List String) : FileTree :=
  { t with files := t.files.filter fun file => file.1 ≠ names }

/-- The tree with a file at a path in place of an earlier one; unchanged if no file can be there. -/
def write (t : FileTree) (path text : String) : FileTree :=
  let parts := Resource.parts (· = '/') path
  let name := parts.getLastD ""
  if path.startsWith "/" || name = "" || name = "." || name = ".." then t
  else
    match t.makeDirectories [] parts.dropLast with
    | none => t
    | some (names, made) =>
      let file := names ++ [name]
      if made.isDirectory file then t
      else
        let others := made.erase file
        { others with files := (file, text) :: others.files }

/-- Whether there is a file at a path, and the tree without it. -/
def remove (t : FileTree) (path : String) : Bool × FileTree :=
  match t.locate? path with
  | none => (false, t)
  | some names => (t.isFile names, t.erase names)

/-- The tree of files given by their paths. Of two files at the same place the later one counts. -/
def ofFiles (files : List (String × String)) : FileTree :=
  files.foldl (fun t (path, text) => t.write path text) {}

end FileTree

end ShaderFront
