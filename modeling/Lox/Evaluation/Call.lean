import Lox.Machine

namespace Lox

/-- How a statement ends: it goes on with the next one, or it leaves the loop or the function
    around it. -/
inductive Completion where
  | normal
  | broken
  | returned (value : Value)
deriving DecidableEq, Repr

/-- The result of a call whose body ends like this. -/
def Completion.result : Completion → Value
  | returned value => value
  | _ => .nil

namespace Run

/-- Runs statements in order, up to the first that does not end normally. -/
def sequence (exec : Stmt → Run Completion) : List Stmt → Run Completion
  | [] => return .normal
  | s :: rest => do
    match ← exec s with
    | .normal => sequence exec rest
    | left => return left

/-- Runs statements in a new block. -/
def block (exec : Stmt → Run Completion) (body : List Stmt) : Run Completion := do
  let outer ← chain
  let frame ← allocate (·.newFrame .block (some ⟨.block body, outer⟩))
  inChain (frame :: outer) (sequence exec body)

/-- Repeats the body while the condition holds; a break ends the loop normally. -/
def loop (condition : Run Value) (body : Run Completion) : (fuel : Nat) → Run Completion
  | 0 => outOfFuel
  | fuel + 1 => do
    if (← condition).isTrue then
      match ← body with
      | .normal => loop condition body fuel
      | .broken => return .normal
      | .returned value => return .returned value
    else
      return .normal

/-- Evaluates expressions in order. -/
def all (eval : Expr → Run Value) : List Expr → Run (List Value)
  | [] => return []
  | e :: rest => do
    let value ← eval e
    return value :: (← all eval rest)

/-- Asks the host for the value of a function that it has brought along. -/
def callHost (name : String) (arguments : List Value) (line : Nat) : Run Value := fun m =>
  orFault line (m.answer name arguments) m

/-- Calls a native function. -/
def callNative (f : Native) (arguments : List Value) (line : Nat) : Run Value :=
  match f with
  | .clock => readClock
  | .hosted name _ => callHost name arguments line

/-- Gives the parameters their arguments in the frame in view. A parameter without an argument stays
    undefined, and an argument without a parameter is dropped. -/
def defineParams : List Mark → List Value → Run Unit
  | param :: params, argument :: arguments => do
    define param.lexeme argument
    defineParams params arguments
  | _, _ => return ()

/-- Runs the body of a closure in a new frame inside the frames it was made in, whatever the caller
    can see. -/
def runBody (exec : Stmt → Run Completion) (c : Closure) (arguments : List Value) :
    Run Completion := do
  let frame ← allocate (·.newFrame .function (some ⟨.call c.code, c.chain⟩))
  inChain (frame :: c.chain) do
    defineParams c.code.params arguments
    sequence exec c.code.body

/-- Calls a closure. An initializer returns its instance. -/
def callClosure (exec : Stmt → Run Completion) (c : Closure) (arguments : List Value) (line : Nat) :
    Run Value := do
  let completion ← runBody exec c arguments
  if c.initializer then
    match ← query (·.getAt? c.chain 0 "this") with
    | some value => return value
    | none => fault (.undefinedVariable "this") line
  else
    return completion.result

section Calls

variable (enter : Closure → List Value → Nat → Run Value)

/-- Makes an instance of a class, runs its initializer, if it has one, and returns the instance. -/
def construct (classId : Nat) (arguments : List Value) (line : Nat) : Run Value := do
  let instanceId ← allocate (·.newInstance classId)
  match ← query (·.initializer? classId) with
  | none => return .instance instanceId
  | some method =>
    let closure ← allocate (·.bind method instanceId)
    let _ ← enter closure arguments line
    return .instance instanceId

/-- Calls a value with whatever arguments there are. -/
def call (callee : Value) (arguments : List Value) (line : Nat) : Run Value := do
  match callee with
  | .native f => callNative f arguments line
  | .function id =>
    match ← query (·.functions[id]?) with
    | some c => enter c arguments line
    | none => fault .notCallable line
  | .class id => construct enter id arguments line
  | _ => fault .notCallable line

/-- Whether as many calls are active as may be. -/
def exhausted : Run Bool := fun m =>
  .ok (m.maxCalls ≤ m.calls) m

/-- Calls a value from a program: the number of arguments has to be right, and there is a limit to
    how many calls are active at once. -/
def callChecked (callee : Value) (arguments : List Value) (line : Nat) : Run Value := do
  match ← query (·.arity? callee) with
  | none => fault .notCallable line
  | some arity =>
    if arguments.length ≠ arity then
      fault (.arity arity arguments.length) line
    else if ← exhausted then
      fault .stackOverflow line
    else
      counted (call enter callee arguments line)

/-- The value of a call expression. A callee that cannot be called is found out before the arguments
    are evaluated. -/
def callExpression (eval : Expr → Run Value) (callee : Expr) (paren : Mark)
    (arguments : List Expr) : Run Value := do
  let f ← eval callee
  if f.isCallable then
    let values ← all eval arguments
    callChecked enter f values paren.line
  else
    fault .notCallable paren.line

end Calls

end Run

end Lox
