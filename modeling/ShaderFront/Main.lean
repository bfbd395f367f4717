import ShaderFront.Command.Run

/-!
# The command line

Reads the files a command asks for and prints its outcome.
-/

namespace ShaderFront.Main

/-- The text of a file, if it can be read. -/
def readFile? (path : String) : IO (Option String) := do
  try
    return some (← IO.FS.readFile path)
  catch _ =>
    return none

/-- Runs a command with the files read so far. If it asks for files that are there, it is run again with them. -/
partial def settle (known : List (String × String)) (arguments : List String) : IO Command.Result := do
  let result := Command.run (fun path => known.lookup path) arguments
  let mut found := known
  for path in result.missing do
    if (found.lookup path).isNone then
      if let some text ← readFile? path then
        found := (path, text) :: found
  if found.length = known.length then return result
  settle found arguments

end ShaderFront.Main

/-- Runs a command line. -/
def main (arguments : List String) : IO UInt32 := do
  let result ← ShaderFront.Main.settle [] arguments
  (← IO.getStdout).putStr result.stdout
  (← IO.getStdout).flush
  (← IO.getStderr).putStr result.stderr
  return result.status.toUInt32
