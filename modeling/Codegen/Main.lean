import Codegen.CommandLine

/-!
The program: carries out its command line, prints what it gives, and fails with its error.
-/

def main (args : List String) : IO UInt32 := do
  let outcome := Codegen.CommandLine.run args
  IO.print outcome.stdout
  match outcome.error with
  | some e =>
    IO.eprintln e.message
    return 1
  | none => return 0
