import Lox.Evaluation.Basic
import Lox.Grammar.Source

namespace Lox

/-- Runs the statements of a program. How one of them ends makes no difference to the next, unless
    it is an error. -/
def runEach (exec : Stmt → Run Completion) : List Stmt → Run Unit
  | [] => return ()
  | s :: rest => do
    let _ ← exec s
    runEach exec rest

/-- Runs statements, and prints the value of those that are an expression. -/
def runShowing (eval : Expr → Run Value) (exec : Stmt → Run Completion) : List Stmt → Run Unit
  | [] => return ()
  | .expression e :: rest => do
    let value ← eval e
    Run.print value e.line
    runShowing eval exec rest
  | s :: rest => do
    let _ ← exec s
    runShowing eval exec rest

/-- Runs a program. -/
def runProgram (fuel : Nat) : List Stmt → Run Unit :=
  runEach (exec fuel)

/-- Runs the statements of a line, which shows the values of expressions. -/
def runLine (fuel : Nat) : List Stmt → Run Unit :=
  runShowing (eval fuel) (exec fuel)

/-- What is said about a source while it is read and run. -/
inductive Report where
  | error (d : Diagnostic)
  | warning (w : Warning)
deriving DecidableEq, Repr

namespace Report

/-- The error that is reported, if it is one. -/
def error? : Report → Option Diagnostic
  | error d => some d
  | warning _ => none

/-- The warning that is reported, if it is one. -/
def warning? : Report → Option Warning
  | error _ => none
  | warning w => some w

/-- What static binding has found, as a report. -/
def ofFinding : Finding → Report
  | .error e => error (.scoping e)
  | .warning w => warning w

end Report

/-- How a source fared as a whole. Running out of fuel is a matter of the machine, not of the
    source. -/
inductive Status where
  | ok
  | staticError
  | runtimeError
  | outOfFuel
deriving DecidableEq, Repr

/-- How a source fared: the reports in the order in which they were made, and the text printed. -/
structure Outcome where
  status : Status
  reports : List Report
  output : String
deriving DecidableEq, Repr

namespace Outcome

/-- The errors among the reports, in their order. -/
def errors (o : Outcome) : List Diagnostic :=
  o.reports.filterMap Report.error?

/-- The warnings among the reports, in their order. -/
def warnings (o : Outcome) : List Warning :=
  o.reports.filterMap Report.warning?

end Outcome

/-- What one source leaves behind for the next: the machine, and the number of the next name. Global
    names and functions are in the machine, so they carry over. -/
structure Session where
  machine : Machine
  nextId : Nat

namespace Session

/-- A new session, without a host. -/
def start (sink : Sink) (clock : Clock) : Session :=
  ⟨.start defaultMaxCalls sink clock, 0⟩

/-- Runs a program whose names are bound. -/
def execute (s : Session) (run : Run Unit) : Outcome × Session :=
  let earlier := s.machine.sink.pieces.length
  match run s.machine with
  | .ok _ machine => (⟨.ok, [], machine.sink.textSince earlier⟩, { s with machine })
  | .error .outOfFuel machine =>
    (⟨.outOfFuel, [], machine.sink.textSince earlier⟩, { s with machine })
  | .error (.error e) machine =>
    (⟨.runtimeError, [.error (.runtime e)], machine.sink.textSince earlier⟩, { s with machine })

/-- Binds the names of a program, and runs it unless that finds an error. -/
def bindAndExecute (s : Session) (run : List Stmt → Run Unit) (program : List Stmt) :
    Outcome × Session :=
  let resolved := resolve program
  let reports := resolved.findings.map Report.ofFinding
  let s := { s with machine := s.machine.note resolved.resolutions }
  if resolved.errors.isEmpty then
    let (outcome, s) := s.execute (run program)
    ({ outcome with reports := reports ++ outcome.reports }, s)
  else
    (⟨.staticError, reports, ""⟩, s)

/-- Reads, binds and runs a source. The numbering of names goes on even after an error. -/
def submit (s : Session) (run : List Stmt → Run Unit) (source : String) : Outcome × Session :=
  let tree := Grammar.readSource source s.nextId
  let s := { s with nextId := tree.parsed.nextId }
  match tree.errors, tree.parsed.complete? with
  | [], some program => s.bindAndExecute run program
  | errors, _ => (⟨.staticError, errors.map .error, ""⟩, s)

/-- Runs a whole program. -/
def run (s : Session) (fuel : Nat) (source : String) : Outcome × Session :=
  s.submit (runProgram fuel) source

/-- Runs one line of a dialogue, which shows the values of expressions. -/
def runLine (s : Session) (fuel : Nat) (source : String) : Outcome × Session :=
  s.submit (Lox.runLine fuel) source

end Session

end Lox
