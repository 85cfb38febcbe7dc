import AlgebraEngine.Number.Machine
import AlgebraEngine.Session.Run

/-!
The command line. Input is the file named by the first argument, or else the standard input. Answers
go to the standard output and reports to the standard error, and the exit code tells whether every
line was answered.
-/
namespace AlgebraEngine

/-- Prints answers and reports in order. The result is whether there were answers only. -/
def printAll (answers : List (Except (Report Binary64) String)) : IO Bool := do
  let mut ok := true
  for answer in answers do
    match answer with
    | .ok text => IO.println text
    | .error report =>
      IO.eprintln report.text
      ok := false
  return ok

end AlgebraEngine

open AlgebraEngine

/-- Runs the input that the arguments name. -/
def main (args : List String) : IO UInt32 := do
  try
    let input ←
      match args with
      | file :: _ => IO.FS.readFile file
      | [] => (← IO.getStdin).readToEnd
    return if ← printAll (runInput input) then 0 else 1
  catch error =>
    IO.eprintln (toString error)
    return 1
