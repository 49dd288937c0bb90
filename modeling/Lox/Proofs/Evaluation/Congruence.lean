import Lox.Proofs.Evaluation.Class
import Lox.Proofs.Run.Step

namespace Lox

/-- No operator speaks for the sink. -/
theorem UnaryOp.apply_ne_outputClosed (op : UnaryOp) (value : Value) (message : String) :
    op.apply value ≠ .error (@Fault.outputClosed message) := by
  unfold UnaryOp.apply
  split <;> nofun

theorem BinaryOp.apply_ne_outputClosed (op : BinaryOp) (left right : Value) (message : String) :
    op.apply left right ≠ .error (@Fault.outputClosed message) := by
  have hnumbers (a b : Float) : op.applyNumbers a b ≠ .error (@Fault.outputClosed message) := by
    unfold BinaryOp.applyNumbers
    split
    case h_4 => split <;> nofun
    all_goals nofun
  unfold BinaryOp.apply
  split
  case h_4 => exact hnumbers _ _
  all_goals nofun

/-- A name that is not found says nothing about the sink. -/
theorem Machine.lookUp_ne_outputClosed (m : Machine) (ref : Ref) (message : String) :
    m.lookUp ref ≠ .error (@Fault.outputClosed message) := by
  unfold Machine.lookUp Store.get
  dsimp only
  split <;> split <;> nofun

/-- What a host answers is not what the sink says. -/
theorem Machine.answer_ne_outputClosed (m : Machine) (name : String) (arguments : List Value)
    (message : String) : m.answer name arguments ≠ .error (@Fault.outputClosed message) := by
  unfold Machine.answer
  split <;> nofun

/-- A superclass that is not found says nothing about the sink. -/
theorem Machine.superTarget_ne_outputClosed (m : Machine) (ref : Ref) (message : String) :
    m.superTarget ref ≠ .error (@Fault.outputClosed message) := by
  unfold Machine.superTarget
  split
  · nofun
  · split
    · dsimp only
      split <;> nofun
    · nofun

namespace Congruence

open Run

variable {R : {α : Type} → Run α → Run α → Prop} (hR : Congruence R)
  {eval eval' : Expr → Run Value} {exec exec' : Stmt → Run Completion}
  {enter enter' : Closure → List Value → Nat → Run Value}
include hR

/-- Statements in a row are related if each of them is. -/
theorem sequence (hexec : ∀ s, R (exec s) (exec' s)) (body : List Stmt) :
    R (sequence exec body) (sequence exec' body) := by
  induction body with
  | nil => exact hR.pure _
  | cons s rest ih =>
    refine hR.bind (hexec s) fun completion => ?_
    cases completion with
    | normal => exact ih
    | _ => exact hR.pure _

theorem block (hexec : ∀ s, R (exec s) (exec' s)) (body : List Stmt) :
    R (block exec body) (block exec' body) :=
  hR.bind hR.chain fun outer => hR.inFresh _ _ outer (hR.sequence hexec body)

/-- Loops are related if their conditions and their bodies are. -/
theorem loop {condition condition' : Run Value} {body body' : Run Completion}
    (hcondition : R condition condition') (hbody : R body body') (rounds : Nat) :
    R (loop condition body rounds) (loop condition' body' rounds) := by
  induction rounds with
  | zero => exact hR.step .outOfFuel
  | succ rounds ih =>
    refine hR.bind hcondition fun value => ?_
    split
    · refine hR.bind hbody fun completion => ?_
      cases completion with
      | normal => exact ih
      | _ => exact hR.pure _
    · exact hR.pure _

/-- Expressions in a row are related if each of them is. -/
theorem all (heval : ∀ e, R (eval e) (eval' e)) (es : List Expr) :
    R (all eval es) (all eval' es) := by
  induction es with
  | nil => exact hR.pure _
  | cons e rest ih => exact hR.bind (heval e) fun _ => hR.bind ih fun _ => hR.pure _

/-- A native function is related to itself: it is a step, whichever one it is. -/
theorem callNative (f : Native) (arguments : List Value) (line : Nat) :
    R (callNative f arguments line) (callNative f arguments line) := by
  cases f with
  | clock => exact hR.step .readClock
  | hosted name arity =>
    exact hR.step (.find (·.answer name arguments) line (·.answer_ne_outputClosed name arguments))

/-- Parameters get their arguments in steps. -/
theorem defineParams (params : List Mark) (arguments : List Value) :
    R (defineParams params arguments) (defineParams params arguments) := by
  induction params generalizing arguments with
  | nil => exact hR.pure ()
  | cons param params ih =>
    cases arguments with
    | nil => exact hR.pure ()
    | cons argument arguments => exact hR.bind (hR.define _ _) fun _ => ih arguments

theorem runBody (hexec : ∀ s, R (exec s) (exec' s)) (c : Closure) (arguments : List Value) :
    R (runBody exec c arguments) (runBody exec' c arguments) :=
  hR.inFresh _ _ c.chain (hR.bind (hR.defineParams _ _) fun _ => hR.sequence hexec _)

/-- Calls of a closure are related if the statements of its body are. -/
theorem callClosure (hexec : ∀ s, R (exec s) (exec' s)) (c : Closure) (arguments : List Value)
    (line : Nat) : R (callClosure exec c arguments line) (callClosure exec' c arguments line) := by
  refine hR.bind (hR.runBody hexec c arguments) fun completion => ?_
  split
  · refine hR.bind (hR.query _) fun found => ?_
    cases found with
    | none => exact hR.fault line nofun
    | some value => exact hR.pure value
  · exact hR.pure _

section Entering

variable (henter : ∀ c arguments line, R (enter c arguments line) (enter' c arguments line))
include henter

/-- Constructions are related if calls of closures are. -/
theorem construct (classId : Nat) (arguments : List Value) (line : Nat) :
    R (construct enter classId arguments line) (construct enter' classId arguments line) := by
  refine hR.bind (hR.allocate fun s => s.adds_newInstance classId) fun instanceId =>
    hR.bind (hR.query _) fun found => ?_
  cases found with
  | none => exact hR.pure _
  | some method =>
    exact hR.bind (hR.allocate fun s => s.adds_bind method instanceId) fun closure =>
      hR.bind (henter closure arguments line) fun _ => hR.pure _

/-- Calls of any value are related if calls of closures are. -/
theorem call (callee : Value) (arguments : List Value) (line : Nat) :
    R (call enter callee arguments line) (call enter' callee arguments line) := by
  cases callee with
  | native f => exact hR.callNative f arguments line
  | function id =>
    refine hR.bind (hR.query _) fun found => ?_
    cases found with
    | none => exact hR.fault line nofun
    | some c => exact henter c arguments line
  | «class» id => exact hR.construct henter id arguments line
  | _ => exact hR.fault line nofun

/-- Checked calls are related if calls of closures are. -/
theorem callChecked (callee : Value) (arguments : List Value) (line : Nat) :
    R (callChecked enter callee arguments line) (callChecked enter' callee arguments line) := by
  refine hR.bind (hR.query _) fun found => ?_
  cases found with
  | none => exact hR.fault line nofun
  | some arity =>
    dsimp only
    split
    · exact hR.fault line nofun
    · have hexhausted : Step exhausted := .look fun m => decide (m.maxCalls ≤ m.calls)
      refine hR.bind (hR.step hexhausted) fun full => ?_
      split
      · exact hR.fault line nofun
      · exact hR.counted (hR.call henter callee arguments line)

/-- Call expressions are related if their parts are. -/
theorem callExpression (heval : ∀ e, R (eval e) (eval' e)) (callee : Expr) (paren : Mark)
    (arguments : List Expr) :
    R (callExpression enter eval callee paren arguments)
      (callExpression enter' eval' callee paren arguments) := by
  refine hR.bind (heval callee) fun f => ?_
  split
  · exact hR.bind (hR.all heval arguments) fun values => hR.callChecked henter f values paren.line
  · exact hR.fault paren.line nofun

end Entering

/-- What `super` does consists of steps. -/
theorem superMethod (ref : Ref) (method : Mark) :
    R (superMethod ref method) (superMethod ref method) := by
  have htarget : Step (superTarget ref) :=
    .find (·.superTarget ref) ref.mark.line (·.superTarget_ne_outputClosed ref)
  refine hR.bind (hR.step htarget) fun (parent, receiver) => hR.bind (hR.query _) fun found => ?_
  cases found with
  | none => exact hR.fault method.line nofun
  | some found => exact hR.allocate fun s => s.adds_boundMethod found receiver

/-- A property is found in steps. -/
theorem property (object : Value) (name : Mark) : R (property object name) (property object name) := by
  cases object with
  | «instance» id =>
    refine hR.bind (hR.query _) fun found => ?_
    match found with
    | none => exact hR.fault name.line nofun
    | some (.field value) => exact hR.pure value
    | some (.method found) => exact hR.allocate fun s => s.adds_boundMethod found id
  | _ => exact hR.fault name.line nofun

theorem closure (name : Option String) (code : Lambda) : R (closure name code) (closure name code) :=
  hR.bind hR.chain fun _ => hR.bind (hR.allocate fun s => s.adds_newFunction _) fun _ => hR.pure _

theorem methodTable (methods : List Definition) : R (methodTable methods) (methodTable methods) :=
  hR.bind hR.chain fun _ => hR.pure _

/-- Methods are made in steps, also inside a frame of the superclass. -/
theorem methodsInside (parent : Option Nat) (methods : List Definition) :
    R (methodsInside parent methods) (methodsInside parent methods) := by
  cases parent with
  | none => exact hR.methodTable methods
  | some id =>
    exact hR.bind hR.chain fun outer =>
      hR.inFresh _ _ outer (hR.bind (hR.define _ _) fun _ => hR.methodTable methods)

/-- Superclasses are related if the evaluations of their names are. -/
theorem superclass (heval : ∀ e, R (eval e) (eval' e)) (ref : Ref) :
    R (superclass eval ref) (superclass eval' ref) := by
  refine hR.bind (heval _) fun value => ?_
  cases value with
  | «class» id => exact hR.pure id
  | _ => exact hR.fault ref.mark.line nofun

theorem makeBelow (parent : Option Nat) (name : Mark) (methods : List Definition) :
    R (makeBelow parent name methods) (makeBelow parent name methods) :=
  hR.bind (hR.define _ _) fun _ => hR.bind (hR.methodsInside parent methods) fun _ =>
    hR.bind (hR.query _) fun _ => hR.allocate fun s => s.adds_newClass _

/-- Classes are made in related ways if their superclasses are found in such. -/
theorem makeClass (heval : ∀ e, R (eval e) (eval' e)) (name : Mark) (superclassRef : Option Ref)
    (methods : List Definition) :
    R (makeClass eval name superclassRef methods) (makeClass eval' name superclassRef methods) := by
  cases superclassRef with
  | none =>
    rw [makeClass_none, makeClass_none]
    exact hR.makeBelow none name methods
  | some ref =>
    rw [makeClass_some, makeClass_some]
    exact hR.bind (hR.superclass heval ref) fun id => hR.makeBelow (some id) name methods

theorem declareClass (heval : ∀ e, R (eval e) (eval' e)) (name : Mark) (superclassRef : Option Ref)
    (methods : List Definition) :
    R (declareClass eval name superclassRef methods) (declareClass eval' name superclassRef methods) := by
  have hassign (value : Value) : Step (assignByName name value) :=
    .assignIn (fun m => m.store.owner? m.chain name.lexeme) name value
  exact hR.bind (hR.makeClass heval name superclassRef methods) fun id => hR.step (hassign (.class id))

/-- The evaluation of one node is related if those of its parts are. The cases are the kinds of
    expressions. -/
theorem evalNode (heval : ∀ e, R (eval e) (eval' e))
    (henter : ∀ c arguments line, R (enter c arguments line) (enter' c arguments line)) (e : Expr) :
    R (evalNode eval enter e) (evalNode eval' enter' e) := by
  have hread (ref : Ref) : Step (read ref) :=
    .find (·.lookUp ref) ref.mark.line (·.lookUp_ne_outputClosed ref)
  cases e with
  | literal value line => exact hR.pure _
  | grouping inner => exact heval inner
  | unary op mark right =>
    exact hR.bind (heval right) fun value => hR.orFault mark.line (op.apply_ne_outputClosed value)
  | binary op mark left right =>
    exact hR.bind (heval left) fun a => hR.bind (heval right) fun b =>
      hR.orFault mark.line (op.apply_ne_outputClosed a b)
  | unpaired op mark right => exact hR.fault mark.line nofun
  | logical op mark left right =>
    refine hR.bind (heval left) fun value => ?_
    split
    · exact hR.pure value
    · exact heval right
  | conditional condition yes no =>
    refine hR.bind (heval condition) fun value => ?_
    split
    · exact heval yes
    · exact heval no
  | comma left right => exact hR.bind (heval left) fun _ => heval right
  | name ref => exact hR.step (hread ref)
  | assign ref value =>
    have hassign (value : Value) : Step (assign ref value) := .assignIn (·.owner? ref) ref.mark value
    exact hR.bind (heval value) fun value => hR.bind (hR.step (hassign value)) fun _ => hR.pure value
  | call callee paren arguments => exact hR.callExpression henter heval callee paren arguments
  | get object name => exact hR.bind (heval object) fun value => hR.property value name
  | set object name value =>
    refine hR.bind (heval object) fun target => ?_
    cases target with
    | «instance» id =>
      have hset (value : Value) : Step (modifyStore (·.setField id name.lexeme value)) :=
        .store (fun m => ((), m.store.setField id name.lexeme value)) fun m =>
          m.store.grows_setField id name.lexeme value
      exact hR.bind (heval value) fun value => hR.bind (hR.step (hset value)) fun _ => hR.pure value
    | _ => exact hR.fault name.line nofun
  | this ref => exact hR.step (hread ref)
  | super ref method => exact hR.superMethod ref method
  | lambda keyword code => exact hR.closure none code

/-- How a statement prints is left open. -/
theorem execNode (rounds : Nat) (heval : ∀ e, R (eval e) (eval' e))
    (hexec : ∀ s, R (exec s) (exec' s)) {s : Stmt}
    (hprint : ∀ keyword value, s = .print keyword value →
      R (execNode rounds eval exec s) (execNode rounds eval' exec' s)) :
    R (execNode rounds eval exec s) (execNode rounds eval' exec' s) := by
  cases s with
  | expression value => exact hR.bind (heval value) fun _ => hR.pure _
  | print keyword value => exact hprint keyword value rfl
  | var name initial =>
    cases initial with
    | none =>
      have hdeclare : Step (declare name.lexeme) :=
        .store (fun m => ((), m.store.declare m.chain name.lexeme)) fun m =>
          m.store.grows_declare m.chain name.lexeme
      exact hR.bind (hR.step hdeclare) fun _ => hR.pure _
    | some initial =>
      exact hR.bind (heval initial) fun _ => hR.bind (hR.define _ _) fun _ => hR.pure _
  | function definition =>
    obtain ⟨name, code⟩ := definition
    exact hR.bind (hR.closure _ code) fun _ => hR.bind (hR.define _ _) fun _ => hR.pure _
  | «class» name parent methods =>
    exact hR.bind (hR.declareClass heval name parent methods) fun _ => hR.pure _
  | block body => exact hR.block hexec body
  | «if» condition yes no =>
    cases no with
    | none =>
      refine hR.bind (heval condition) fun value => ?_
      split
      · exact hexec yes
      · exact hR.pure _
    | some no =>
      refine hR.bind (heval condition) fun value => ?_
      split
      · exact hexec yes
      · exact hexec no
  | «while» condition body => exact hR.loop (heval condition) (hexec body) rounds
  | «return» keyword value =>
    cases value with
    | none => exact hR.pure _
    | some value => exact hR.bind (heval value) fun _ => hR.pure _
  | «break» keyword => exact hR.pure _

end Congruence

end Lox
