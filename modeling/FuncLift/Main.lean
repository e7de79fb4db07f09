import FuncLift.Command
import FuncLift.Lift

/-!
# The program

Reads a file, lifts the selected code into a function and writes the result. The exit code is 0, or
1 when the code cannot be lifted, or 2 when the arguments or the files are at fault.
-/
namespace FuncLift

def complain (message : String) : IO Unit := IO.eprintln ("funclift: " ++ message)

def Command.write (c : Command) (text : String) : IO Unit :=
  match c.output with
  | some path => IO.FS.writeFile path text
  | none => do
    let out ← IO.getStdout
    out.putStr text
    out.flush

def Command.run (c : Command) : IO UInt32 := do
  let source ← IO.FS.readFile c.input
  match liftText source c.selection c.function with
  | .error fault =>
    complain fault.message
    return 1
  | .ok (text, done) =>
    for w in done.plan.warnings do
      complain ("warning: " ++ w.message)
    c.write text
    return 0

end FuncLift

def main (args : List String) : IO UInt32 := do
  match FuncLift.Command.parse args with
  | .error misuse =>
    FuncLift.complain misuse.message
    return 2
  | .ok command =>
    try command.run
    catch e =>
      FuncLift.complain (toString e)
      return 2
