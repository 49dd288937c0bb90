import Lox.Session

namespace Lox

/-- Two functions that show a host what its calls hand over: the number of arguments as a value, and as
    part of an error. -/
def Native.count : Native := .hosted "count" 2

def Native.fail : Native := .hosted "fail" 1

/-- The host answers the two functions, the second one with an error that tells how many arguments
    it got. -/
def hostAnswers : Answers := fun name arguments =>
  if name = Native.count.name then some (.ok (.number (Float.ofNat arguments.length)))
  else if name = Native.fail.name then
    some (.error ("native failure with " ++ toString arguments.length ++ " arguments"))
  else none

namespace Run

/-- Runs, and makes the way it ends the result. -/
def attempt {α : Type} (run : Run α) : Run (Except Halt α) := fun m =>
  match run m with
  | .ok a after => .ok (.ok a) after
  | .error e after => .ok (.error e) after

end Run

/-- Runs every statement by itself, also after one that fails. -/
def executeEach (fuel : Nat) : List Stmt → Run (List (Except Halt Completion))
  | [] => return []
  | s :: rest => do
    let result ← (exec fuel s).attempt
    return result :: (← executeEach fuel rest)

/-- Evaluates every statement that is an expression, and skips the others. -/
def evaluateEach (fuel : Nat) : List Stmt → Run (List (Except Halt Value))
  | [] => return []
  | .expression e :: rest => do
    let result ← (eval fuel e).attempt
    return result :: (← evaluateEach fuel rest)
  | _ :: rest => evaluateEach fuel rest

/-- A program as a host has loaded it, with everything there is to say about it. -/
structure Loaded where
  program : List Stmt
  errors : List Diagnostic
  warnings : List Warning

/-- How a call by a host went. -/
inductive HostCall where
  | noCallee (e : Halt)
  | noArgument (e : Halt)
  | notCallable (callee : Value)
  | called (callee : Value) (result : Except Halt Value)

/-- The machine of a host, and the number of the next name. -/
structure Host where
  machine : Machine
  nextId : Nat

namespace Host

/-- A host with its two functions on a machine with this limit on calls, this sink and this clock.
    -/
def start (maxCalls : Nat) (sink : Sink) (clock : Clock) : Host :=
  ⟨{ Machine.start maxCalls sink clock with answers := hostAnswers }, 0⟩

/-- Lets the numbering of names start over, so that what has been decided about earlier names of
    the same numbers is still there. -/
def renumber (h : Host) : Host :=
  { h with nextId := 0 }

/-- Runs on the machine; the output is what the run prints. -/
def run {α : Type} (h : Host) (run : Run α) : Except Halt α × String × Host :=
  let earlier := h.machine.sink.pieces.length
  match run h.machine with
  | .ok a machine => (.ok a, machine.sink.textSince earlier, { h with machine })
  | .error e machine => (.error e, machine.sink.textSince earlier, { h with machine })

/-- Binds the names of a program so many times over. -/
def bind (h : Host) (program : List Stmt) : (times : Nat) → List Finding × Host
  | 0 => ([], h)
  | times + 1 =>
    let resolved := resolve program
    let h := { h with machine := h.machine.note resolved.resolutions }
    let (findings, h) := h.bind program times
    (resolved.findings ++ findings, h)

/-- Reads a source, drops what cannot be read, and binds the rest so many times over. -/
def load (h : Host) (source : String) (times : Nat) : Loaded × Host :=
  let tree := Grammar.readSource source h.nextId
  let program := tree.parsed.program
  let (findings, h) := ({ h with nextId := tree.parsed.nextId }).bind program times
  let errors := findings.filterMap Finding.error?
  (⟨program, tree.errors ++ errors.map .scoping, findings.filterMap Finding.warning?⟩, h)

/-- The value of the expression that a source starts with; nil if it starts with something else. -/
def evaluate (h : Host) (fuel : Nat) (source : String) : Except Halt Value × Host :=
  let (loaded, h) := h.load (source ++ ";") 1
  match loaded.program with
  | .expression e :: _ =>
    let (result, _, h) := h.run (eval fuel e)
    (result, h)
  | _ => (.ok .nil, h)

/-- The values of expressions in order, up to the first that fails. -/
def evaluateAll (h : Host) (fuel : Nat) : List String → Except Halt (List Value) × Host
  | [] => (.ok [], h)
  | source :: rest =>
    match h.evaluate fuel source with
    | (.error e, h) => (.error e, h)
    | (.ok value, h) =>
      let (values, h) := h.evaluateAll fuel rest
      (values.map (value :: ·), h)

/-- Calls a value from line `line` with the values of the expressions. -/
def callValue (h : Host) (fuel : Nat) (callee : Value) (arguments : List String) (line : Nat) :
    HostCall × Host :=
  match h.evaluateAll fuel arguments with
  | (.error e, h) => (.noArgument e, h)
  | (.ok values, h) =>
    match h.machine.store.arity? callee with
    | none => (.notCallable callee, h)
    | some _ =>
      let (result, _, h) := h.run (Run.call (Run.callClosure (exec fuel)) callee values line)
      (.called callee result, h)

/-- Calls the value of an expression. -/
def call (h : Host) (fuel : Nat) (callee : String) (arguments : List String) (line : Nat) :
    HostCall × Host :=
  match h.evaluate fuel callee with
  | (.error e, h) => (.noCallee e, h)
  | (.ok value, h) => h.callValue fuel value arguments line

end Host

end Lox
