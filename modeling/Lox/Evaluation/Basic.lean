import Lox.Evaluation.Call
import Lox.Evaluation.Operator

namespace Lox

/-- The class and the instance that `super` stands for at a depth: the instance is in the frame one
    step inside the frame of the class. -/
def Machine.superTarget (m : Machine) (ref : Ref) : Except Fault (Nat × Nat) :=
  match m.depths[ref.id]? with
  | none => .error (.undefinedVariable ref.mark.lexeme)
  | some depth =>
    match m.store.getAt? m.chain depth "super" with
    | some (.class parent) =>
      let receiver := if depth = 0 then none else m.store.getAt? m.chain (depth - 1) "this"
      match receiver with
      | some (.instance receiver) => .ok (parent, receiver)
      | _ => .error (.undefinedVariable "this")
    | _ => .error (.undefinedVariable ref.mark.lexeme)

namespace Run

/-- The class and the instance that an occurrence of `super` stands for. A fault in it is one of its
    line. -/
def superTarget (ref : Ref) : Run (Nat × Nat) := fun m =>
  orFault ref.mark.line (m.superTarget ref) m

/-- The value of `super.method`: the method is looked up from the superclass on. -/
def superMethod (ref : Ref) (method : Mark) : Run Value := do
  let (parent, receiver) ← superTarget ref
  match ← query (·.findMethod? parent method.lexeme) with
  | some found => allocate (·.boundMethod found receiver)
  | none => fault (.undefinedProperty method.lexeme) method.line

/-- The value of a property; a method is bound to the object. -/
def property (object : Value) (name : Mark) : Run Value := do
  match object with
  | .instance id =>
    match ← query (·.property? id name.lexeme) with
    | some (.field value) => return value
    | some (.method found) => allocate (·.boundMethod found id)
    | none => fault (.undefinedProperty name.lexeme) name.line
  | _ => fault .propertyOfNonInstance name.line

/-- Makes a function of some code, in the frames in view. -/
def closure (name : Option String) (code : Lambda) : Run Value := do
  let made : Closure := ⟨name, code, ← chain, false⟩
  return .function (← allocate (·.newFunction made))

/-- The methods of a class, made in the frames in view. -/
def methodTable (methods : List Definition) : Run (Table Closure) := do
  let chain ← chain
  let entry := fun (m : Definition) =>
    let name := m.name.lexeme
    (name, (⟨some name, m.code, chain, name = initializerName⟩ : Closure))
  return .ofList (methods.map entry)

/-- The superclass that a name stands for. -/
def superclass (eval : Expr → Run Value) (ref : Ref) : Run Nat := do
  match ← eval (.name ref) with
  | .class id => return id
  | _ => fault .superclassNotClass ref.mark.line

/-- The classes above a class with this superclass, nearest first. -/
def ancestors (parent : Option Nat) (s : Store) : List Nat :=
  match parent with
  | none => []
  | some id => id :: s.classes[id]?.elim [] ClassRecord.ancestors

/-- Methods of a class with a superclass are made inside a frame that holds the superclass. -/
def methodsInside (parent : Option Nat) (methods : List Definition) : Run (Table Closure) := do
  match parent with
  | none => methodTable methods
  | some id =>
    let outer ← chain
    let frame ← allocate (·.newFrame .super (some ⟨.superclass methods id, outer⟩))
    inChain (frame :: outer) do
      define "super" (.class id)
      methodTable methods

/-- Gives a name in view its value. -/
def assignByName (name : Mark) (value : Value) : Run Unit := fun m =>
  assignIn (m.store.owner? m.chain name.lexeme) name value m

/-- Makes a class. Its name is there before its methods are made, so that they can refer to it. -/
def makeClass (eval : Expr → Run Value) (name : Mark) (superclassRef : Option Ref)
    (methods : List Definition) : Run Nat := do
  let parent ←
    match superclassRef with
    | none => pure none
    | some ref => some <$> superclass eval ref
  define name.lexeme .nil
  let table ← methodsInside parent methods
  let above ← query (ancestors parent)
  allocate (·.newClass ⟨name.lexeme, above, table⟩)

/-- Declares a class: makes it and gives it to its name. -/
def declareClass (eval : Expr → Run Value) (name : Mark) (superclassRef : Option Ref)
    (methods : List Definition) : Run Unit := do
  let id ← makeClass eval name superclassRef methods
  assignByName name (.class id)

end Run

open Run

/-- The value of an expression. -/
def evalNode (eval : Expr → Run Value) (enter : Closure → List Value → Nat → Run Value) :
    Expr → Run Value
  | .literal value _ => return .ofLiteral value
  | .grouping inner => eval inner
  | .unary op mark right => do
    let value ← eval right
    orFault mark.line (op.apply value)
  | .binary op mark left right => do
    let a ← eval left
    let b ← eval right
    orFault mark.line (op.apply a b)
  | .unpaired _ mark _ => fault .missingOperand mark.line
  | .logical op _ left right => do
    let value ← eval left
    if op.decides value then return value else eval right
  | .conditional condition yes no => do
    if (← eval condition).isTrue then eval yes else eval no
  | .comma left right => do
    let _ ← eval left
    eval right
  | .name ref => read ref
  | .assign ref value => do
    let value ← eval value
    assign ref value
    return value
  | .call callee paren arguments => callExpression enter eval callee paren arguments
  | .get object name => do
    let value ← eval object
    property value name
  | .set object name value => do
    match ← eval object with
    | .instance id =>
      let value ← eval value
      modifyStore (·.setField id name.lexeme value)
      return value
    | _ => fault .fieldOfNonInstance name.line
  | .this ref => read ref
  | .super ref method => superMethod ref method
  | .lambda _ code => closure none code

/-- Executes a statement; a loop goes round fewer than `rounds` times. -/
def execNode (rounds : Nat) (eval : Expr → Run Value) (exec : Stmt → Run Completion) :
    Stmt → Run Completion
  | .expression value => do
    let _ ← eval value
    return .normal
  | .print keyword value => do
    let value ← eval value
    print value keyword.line
    return .normal
  | .var name none => do
    declare name.lexeme
    return .normal
  | .var name (some initial) => do
    let value ← eval initial
    define name.lexeme value
    return .normal
  | .function ⟨name, code⟩ => do
    let f ← closure (some name.lexeme) code
    define name.lexeme f
    return .normal
  | .class name parent methods => do
    declareClass eval name parent methods
    return .normal
  | .block body => block exec body
  | .if condition yes none => do
    if (← eval condition).isTrue then exec yes else return .normal
  | .if condition yes (some no) => do
    if (← eval condition).isTrue then exec yes else exec no
  | .while condition body => loop (eval condition) (exec body) rounds
  | .return _ none => return .returned .nil
  | .return _ (some value) => do
    let value ← eval value
    return .returned value
  | .break _ => return .broken

mutual

/-- The value of an expression. Fuel bounds how deep evaluation nests and how often a loop goes
    round; with enough of it the result does not depend on it. -/
def eval : (fuel : Nat) → Expr → Run Value
  | 0, _ => outOfFuel
  | fuel + 1, e => evalNode (eval fuel) (callClosure (exec fuel)) e

/-- Executes a statement. -/
def exec : (fuel : Nat) → Stmt → Run Completion
  | 0, _ => outOfFuel
  | fuel + 1, s => execNode fuel (eval fuel) (exec fuel) s

end

end Lox
