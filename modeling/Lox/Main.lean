import Lox.CommandLine

namespace Lox

/-- Fuel for a run that nothing waits for to end. -/
def unboundedFuel : Nat := 1 <<< 62

/-- What is under a file name on this system. -/
def readFile (name : String) : IO CommandLine.FileContents := do
  try
    return .bytes (← IO.FS.readBinFile name)
  catch
    | .noFileOrDirectory .. => return .missing
    | _ => return .directory

/-- Microseconds since the system was started. -/
def microseconds : IO Nat := do
  return (← IO.monoNanosNow) / 1000

/-- Answers the lines of the standard input as they come. -/
partial def converse (session : Session) : IO Unit := do
  IO.print CommandLine.prompt
  (← IO.getStdout).flush
  let line ← (← IO.getStdin).getLine
  match CommandLine.linesOf line with
  | [] => IO.println ""
  | text :: _ =>
    let (output, errors, session) := CommandLine.answer unboundedFuel session text
    IO.print output
    IO.eprint errors
    converse session

/-- Prints what a command leaves behind. -/
def finish (result : CommandLine.Result) : IO UInt32 := do
  IO.print result.stdout
  IO.eprint result.stderr
  return UInt32.ofNat result.exit

end Lox

/-- The program: it takes its arguments, the files and the standard input from the system. -/
def main (arguments : List String) : IO UInt32 := do
  let clock ← Lox.microseconds
  match Lox.CommandLine.Command.ofArguments? arguments with
  | none => Lox.finish ⟨Lox.CommandLine.exitUsage, "", Lox.CommandLine.usage⟩
  | some .repl =>
    Lox.converse (.start .unlimited clock)
    return 0
  | some (.tokenize file json) =>
    let contents ← Lox.readFile file
    Lox.finish ((Lox.CommandLine.Command.tokenize file json).result 0 clock (fun _ => contents) "")
  | some (.parse file) =>
    let contents ← Lox.readFile file
    Lox.finish ((Lox.CommandLine.Command.parse file).result 0 clock (fun _ => contents) "")
  | some (.run file) =>
    let contents ← Lox.readFile file
    Lox.finish
      ((Lox.CommandLine.Command.run file).result Lox.unboundedFuel clock (fun _ => contents) "")
