import Lox.Binding.Scope
import Lox.Diagnostic

namespace Lox

/-- The function around a piece of program. -/
inductive FunctionRole where
  | none
  | function
  | method
  | initializer
  | lambda
deriving DecidableEq, Repr

/-- The class around a piece of program. -/
inductive ClassRole where
  | none
  | base
  | derived
deriving DecidableEq, Repr

/-- What was decided for one occurrence: the number of scopes to go outwards, or global. -/
structure Resolution where
  name : String
  id : Nat
  depth : Option Nat
deriving DecidableEq, Repr

/-- What the walk has to say about a program. -/
inductive Finding where
  | error (e : ScopeError)
  | warning (w : Warning)
deriving DecidableEq, Repr

namespace Finding

/-- The error that is found, if it is one. -/
def error? : Finding → Option ScopeError
  | error e => some e
  | warning _ => none

/-- The warning that is found, if it is one. -/
def warning? : Finding → Option Warning
  | error _ => none
  | warning w => some w

end Finding

/-- The state of the walk. Scopes stand innermost first, and what has been found last first. -/
structure Resolver where
  scopes : List Scope
  functionRole : FunctionRole
  classRole : ClassRole
  loops : Nat
  resolutions : List Resolution
  findings : List Finding

namespace Resolver

/-- The state before the walk over a program: there is no scope at the top level. -/
def start : Resolver :=
  ⟨[], .none, .none, 0, [], []⟩

/-- Notes an error. The walk goes on. -/
def error (r : Resolver) (cause : ScopeCause) (mark : Mark) : Resolver :=
  { r with findings := .error ⟨cause, mark⟩ :: r.findings }

/-- Opens a scope without names inside those there are. -/
def enter (r : Resolver) (opening : Opening) : Resolver :=
  { r with scopes := .opened opening :: r.scopes }

/-- Ends the innermost scope, with a warning about every local name in it that was not used. -/
def leave (r : Resolver) : Resolver :=
  match r.scopes with
  | [] => r
  | scope :: scopes =>
    { r with scopes, findings := (scope.warnings.map .warning).reverse ++ r.findings }

/-- Walks through a new scope. -/
def within (opening : Opening) (walk : Resolver → Resolver) (r : Resolver) : Resolver :=
  (walk (r.enter opening)).leave

/-- Changes the innermost scope. The top level has none to change. -/
def updateInnermost (r : Resolver) (change : Scope → Scope) : Resolver :=
  match r.scopes with
  | [] => r
  | scope :: scopes => { r with scopes := change scope :: scopes }

/-- Brings a name into the innermost scope; at the top level there is none, and the name is global. -/
def declare (r : Resolver) (name : Mark) (origin : Origin) : Resolver :=
  match r.scopes with
  | [] => r
  | scope :: scopes =>
    if scope.locals.contains name.lexeme then r.error .redeclared name
    else
      let locals := scope.locals.insert name.lexeme ⟨name.line, origin, false, false⟩
      { r with scopes := { scope with locals } :: scopes }

/-- From here on the innermost scope's name can be read. -/
def define (r : Resolver) (name : Mark) : Resolver :=
  r.updateInnermost fun scope => scope.update name.lexeme fun l => { l with initialized := true }

/-- Brings in a name that the language introduces itself. -/
def defineImplicit (r : Resolver) (name : String) (line : Nat) : Resolver :=
  r.updateInnermost fun scope =>
    { scope with locals := scope.locals.insert name ⟨line, .implicit, true, false⟩ }

/-- Brings in a name that needs no initializer, so that it can be read at once. -/
def declareAndDefine (r : Resolver) (name : Mark) (origin : Origin) : Resolver :=
  (r.declare name origin).define name

/-- How far out the first scope with the name is. -/
def depth? (scopes : List Scope) (name : String) : Option Nat :=
  scopes.findIdx? fun scope => scope.locals.contains name

/-- Decides one occurrence. -/
def resolve (r : Resolver) (ref : Ref) : Resolver :=
  let name := ref.mark.lexeme
  { r with resolutions := ⟨name, ref.id, depth? r.scopes name⟩ :: r.resolutions }

/-- Notes that the nearest name of this spelling is read. -/
def use (r : Resolver) (name : String) : Resolver :=
  match depth? r.scopes name with
  | none => r
  | some depth =>
    let note := fun scope : Scope => scope.update name fun l => { l with used := true }
    { r with scopes := r.scopes.modify depth note }

/-- An occurrence that reads its name: the decision is recorded and the name counts as read. -/
def read (r : Resolver) (ref : Ref) : Resolver :=
  (r.resolve ref).use ref.mark.lexeme

/-- Whether the innermost scope has the name and its initializer is still being read. -/
def inInitializer (r : Resolver) (name : String) : Bool :=
  match r.scopes with
  | [] => false
  | scope :: _ =>
    match scope.locals.find? name with
    | none => false
    | some l => !l.initialized

/-- A name that is read in its own initializer is an error, but decided like any other. -/
def readName (r : Resolver) (ref : Ref) : Resolver :=
  let r := if r.inInitializer ref.mark.lexeme then r.error .readInInitializer ref.mark else r
  r.read ref

/-- An occurrence of `this`, which the class around it binds. Outside of classes nothing is
    recorded. -/
def readThis (r : Resolver) (ref : Ref) : Resolver :=
  if r.classRole = .none then r.error .thisOutsideClass ref.mark else r.read ref

/-- An occurrence of `super`. What is wrong with it does not keep it from being recorded. -/
def readSuper (r : Resolver) (ref : Ref) : Resolver :=
  let r :=
    match r.classRole with
    | .none => r.error .superOutsideClass ref.mark
    | .base => r.error .superWithoutSuperclass ref.mark
    | .derived => r
  r.read ref

/-- Walks through the body of a loop. -/
def inLoop (walk : Resolver → Resolver) (r : Resolver) : Resolver :=
  let after := walk { r with loops := r.loops + 1 }
  { after with loops := r.loops }

/-- Walks through the code of a function, which no loop around it reaches into. -/
def inFunction (role : FunctionRole) (code : Lambda) (walk : Resolver → Resolver)
    (r : Resolver) : Resolver :=
  let inside := within (.function code) fun r =>
    walk (code.params.foldl (fun r param => r.declareAndDefine param .parameter) r)
  let after := inside { r with functionRole := role, loops := 0 }
  { after with functionRole := r.functionRole, loops := r.loops }

/-- Walks through a new scope with a name in it that the language introduces itself. -/
def withinImplicit (opening : Opening) (name : String) (line : Nat) (walk : Resolver → Resolver) :
    Resolver → Resolver :=
  within opening fun r => walk (r.defineImplicit name line)

/-- Reads the name of a superclass, which is not the name of the class itself. -/
def readSuperclass (r : Resolver) (name : Mark) (parent : Ref) : Resolver :=
  let r :=
    if parent.mark.lexeme = name.lexeme then r.error .selfInheritance parent.mark else r
  ({ r with classRole := .derived }).readName parent

/-- Walks through the superclass and then the methods of a class. -/
def inClass (name : Mark) (superclass : Option Ref) (methods : List Definition)
    (walk : Resolver → Resolver) (r : Resolver) : Resolver :=
  let below := withinImplicit (.this methods) "this" name.line walk
  let inside := ({ r with classRole := .base }).declareAndDefine name .declared
  let after :=
    match superclass with
    | none => below inside
    | some parent =>
      withinImplicit (.super methods) "super" name.line below (inside.readSuperclass name parent)
  { after with classRole := r.classRole }

/-- What is wrong with a return: that no function is around it, or that it takes a value out of an
    initializer. -/
def checkReturn (r : Resolver) (keyword : Mark) (hasValue : Bool) : Resolver :=
  let r := if r.functionRole = .none then r.error .returnOutsideFunction keyword else r
  if hasValue && r.functionRole = .initializer then r.error .valueFromInitializer keyword else r

/-- A break needs a loop around it in the same function. -/
def checkBreak (r : Resolver) (keyword : Mark) : Resolver :=
  if r.loops = 0 then r.error .breakOutsideLoop keyword else r

end Resolver

/-- The name of the method that runs on every new instance. -/
def initializerName : String := "init"

/-- The role of a method of this name. -/
def FunctionRole.ofMethod (name : String) : FunctionRole :=
  if name = initializerName then .initializer else .method

mutual

/-- The walk over an expression, whose parts come in the order in which they are evaluated. -/
def Expr.resolve : Expr → Resolver → Resolver
  | .literal _ _, r => r
  | .grouping inner, r => inner.resolve r
  | .unary _ _ right, r => right.resolve r
  | .binary _ _ left right, r => right.resolve (left.resolve r)
  | .unpaired _ _ right, r => right.resolve r
  | .logical _ _ left right, r => right.resolve (left.resolve r)
  | .conditional condition yes no, r => no.resolve (yes.resolve (condition.resolve r))
  | .comma left right, r => right.resolve (left.resolve r)
  | .name ref, r => r.readName ref
  | .assign ref value, r => (value.resolve r).resolve ref
  | .call callee _ arguments, r => Expr.resolveAll arguments (callee.resolve r)
  | .get object _, r => object.resolve r
  | .set object _ value, r => object.resolve (value.resolve r)
  | .this ref, r => r.readThis ref
  | .super ref _, r => r.readSuper ref
  | .lambda _ code, r => code.resolve .lambda r

/-- The walk over expressions in order. -/
def Expr.resolveAll : List Expr → Resolver → Resolver
  | [], r => r
  | e :: rest, r => Expr.resolveAll rest (e.resolve r)

/-- The walk over the code of a function. -/
def Lambda.resolve (role : FunctionRole) : Lambda → Resolver → Resolver
  | ⟨params, body⟩, r => r.inFunction role ⟨params, body⟩ fun r => Stmt.resolveAll body r

/-- The walk over the methods of a class in order. Their names are no names of a scope. -/
def Definition.resolveAll : List Definition → Resolver → Resolver
  | [], r => r
  | ⟨name, code⟩ :: rest, r =>
    Definition.resolveAll rest (code.resolve (.ofMethod name.lexeme) r)

/-- The walk over a statement. A name is declared before its initializer and defined behind it, and
    a function's name is there for its own code. -/
def Stmt.resolve : Stmt → Resolver → Resolver
  | .expression value, r => value.resolve r
  | .print _ value, r => value.resolve r
  | .var name none, r => r.declareAndDefine name .declared
  | .var name (some initial), r => (initial.resolve (r.declare name .declared)).define name
  | .function ⟨name, code⟩, r => code.resolve .function (r.declareAndDefine name .declared)
  | .class name superclass methods, r =>
    r.inClass name superclass methods fun r => Definition.resolveAll methods r
  | .block body, r => r.within (.block body) fun r => Stmt.resolveAll body r
  | .if condition yes none, r => yes.resolve (condition.resolve r)
  | .if condition yes (some no), r => no.resolve (yes.resolve (condition.resolve r))
  | .while condition body, r => (condition.resolve r).inLoop fun r => body.resolve r
  | .return keyword none, r => r.checkReturn keyword false
  | .return keyword (some value), r => value.resolve (r.checkReturn keyword true)
  | .break keyword, r => r.checkBreak keyword

/-- The walk over statements in order. -/
def Stmt.resolveAll : List Stmt → Resolver → Resolver
  | [], r => r
  | s :: rest, r => Stmt.resolveAll rest (s.resolve r)

end

/-- What the walk over a program decides and finds, in that order. -/
structure Resolved where
  resolutions : List Resolution
  findings : List Finding
deriving DecidableEq, Repr

namespace Resolved

/-- The errors that were found, in their order. -/
def errors (r : Resolved) : List ScopeError :=
  r.findings.filterMap Finding.error?

/-- The warnings that were given, in the order in which the scopes ended. -/
def warnings (r : Resolved) : List Warning :=
  r.findings.filterMap Finding.warning?

end Resolved

/-- Binds the names of a program. -/
def resolve (program : List Stmt) : Resolved :=
  let r := Stmt.resolveAll program .start
  ⟨r.resolutions.reverse, r.findings.reverse⟩

end Lox
