import DuckInfer.Cli.Session

/-!
The program: runs a command line on the files of this machine.
-/

namespace DuckInfer

/-- The files of this machine. A text in a file has to be UTF-8. -/
def machineDisk : IO (Files.Disk IO) := do
  let workingDir ← IO.currentDir
  return {
    workingDir := toString workingDir
    read? := fun path => try some <$> IO.FS.readFile path catch _ => pure none
    isFile := fun path => try
        let _ ← IO.FS.readBinFile path
        pure true
      catch _ => pure false }

end DuckInfer

/-- Prints an answer, or says why there is none. -/
def main (arguments : List String) : IO UInt32 := do
  let disk ← DuckInfer.machineDisk
  let outcome ← DuckInfer.Cli.run disk arguments
  IO.print (DuckInfer.Cli.output outcome)
  if let .error e := outcome then
    IO.eprintln e.message
  return DuckInfer.Cli.exitCode outcome
