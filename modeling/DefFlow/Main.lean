import DefFlow.Command.Run
import DefFlow.Elapsed

/-!
# The command line

Reads the files that a command line names, runs it, and writes its output and the
files that it has changed.
-/

set_option autoImplicit false

namespace DefFlow.Command

/-- The files at some paths, as far as they can be read. -/
def readable (paths : List String) : IO Files := do
  let mut entries := []
  for path in paths do
    let text? ← (some <$> IO.FS.readFile path) <|> pure none
    if let some text := text? then
      unless entries.any fun e => e.1 = path do entries := entries ++ [(path, text)]
  return ⟨entries⟩

end DefFlow.Command

open DefFlow

def main (args : List String) : IO UInt32 := do
  let start ← IO.monoNanosNow
  let files ← Command.readable (Command.inputs args)
  let (failure, console) := match (Command.run args).run (.new files true) with
    | .ok _ c => (none, c)
    | .error e c => (some e.message, c)
  for (path, text) in files.changed console.files do
    IO.FS.writeFile path text
  IO.eprint console.err
  IO.print (Command.render (Elapsed.text ((← IO.monoNanosNow) - start)) console.out)
  match failure with
  | none => return 0
  | some message =>
    IO.eprintln (paint console.colors [.red] "error" ++ ": " ++ message)
    return 1
