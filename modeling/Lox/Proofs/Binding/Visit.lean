import Lox.Proofs.Binding.Walk

namespace Lox

namespace Resolver

/-- Where the walk through the body of a function begins. -/
def enterFunction (r : Resolver) (role : FunctionRole) (code : Lambda) : Resolver :=
  code.params.foldl (fun r param => r.declareAndDefine param .parameter)
    (({ r with functionRole := role, loops := 0 } : Resolver).enter (.function code))

/-- Where the walk through a class begins: its name is there, and has its value. -/
def enterClass (r : Resolver) (name : Mark) : Resolver :=
  declareAndDefine { r with classRole := .base } name .declared

/-- A new scope with a name in it that the language introduces itself. -/
def enterImplicit (r : Resolver) (opening : Opening) (name : String) (line : Nat) : Resolver :=
  (r.enter opening).defineImplicit name line

/-- Where the walk through the methods of a class begins. -/
def enterMethods (r : Resolver) (name : Mark) (superclass : Option Ref) (methods : List Definition) :
    Resolver :=
  let inside := r.enterClass name
  let outside :=
    match superclass with
    | none => inside
    | some parent => (inside.readSuperclass name parent).enterImplicit (.super methods) "super" name.line
  outside.enterImplicit (.this methods) "this" name.line

end Resolver

/-- A piece of program that the walk goes through as a whole. A superclass is read with the name of
    its class, which it must not be. -/
inductive Node where
  | expr (e : Expr)
  | exprs (es : List Expr)
  | code (role : FunctionRole) (code : Lambda)
  | methods (definitions : List Definition)
  | superclass (name : Mark) (parent : Ref)
  | stmt (s : Stmt)
  | stmts (body : List Stmt)

namespace Node

/-- The walk over a node. -/
def resolve : Node → Resolver → Resolver
  | expr e, r => e.resolve r
  | exprs es, r => Expr.resolveAll es r
  | .code role c, r => c.resolve role r
  | methods definitions, r => Definition.resolveAll definitions r
  | superclass name parent, r => (r.enterClass name).readSuperclass name parent
  | stmt s, r => s.resolve r
  | stmts body, r => Stmt.resolveAll body r

/-- The trees of a node are proper. -/
def Proper : Node → Prop
  | expr e => e.Proper
  | exprs es => Expr.AllProper es
  | .code _ c => c.Proper
  | methods definitions => Definition.AllProper definitions
  | superclass _ parent => parent.mark.Plain
  | stmt s => s.Proper
  | stmts body => Stmt.AllProper body

/-- The expression that a run evaluates for the node as such. -/
def expression? : Node → Option Expr
  | expr e => some e
  | superclass _ parent => some (.name parent)
  | _ => none

end Node

/-- A node together with the state in which the walk comes to it. -/
structure Visit where
  node : Node
  before : Resolver

namespace Visit

/-- The state in which the walk leaves the node. -/
def after (v : Visit) : Resolver :=
  v.node.resolve v.before

/-- The scopes in which the occurrence that the node itself may be is decided. -/
def scopes (v : Visit) : List Scope :=
  match v.node with
  | .superclass name _ => (v.before.enterClass name).scopes
  | _ => v.before.scopes

end Visit

/-- The visits of the parts of an expression, in the order of the walk. -/
def Expr.parts (e : Expr) (r : Resolver) : List Visit :=
  match e with
  | .literal _ _ | .name _ | .this _ | .super _ _ => []
  | .grouping inner => [⟨.expr inner, r⟩]
  | .unary _ _ right => [⟨.expr right, r⟩]
  | .binary _ _ left right => [⟨.expr left, r⟩, ⟨.expr right, left.resolve r⟩]
  | .unpaired _ _ right => [⟨.expr right, r⟩]
  | .logical _ _ left right => [⟨.expr left, r⟩, ⟨.expr right, left.resolve r⟩]
  | .conditional condition yes no =>
    [⟨.expr condition, r⟩, ⟨.expr yes, condition.resolve r⟩,
      ⟨.expr no, yes.resolve (condition.resolve r)⟩]
  | .comma left right => [⟨.expr left, r⟩, ⟨.expr right, left.resolve r⟩]
  | .assign _ value => [⟨.expr value, r⟩]
  | .call callee _ arguments => [⟨.expr callee, r⟩, ⟨.exprs arguments, callee.resolve r⟩]
  | .get object _ => [⟨.expr object, r⟩]
  | .set object _ value => [⟨.expr value, r⟩, ⟨.expr object, value.resolve r⟩]
  | .lambda _ code => [⟨.code .lambda code, r⟩]

/-- The visits of the parts of a statement, each with what has been declared before it. -/
def Stmt.parts (s : Stmt) (r : Resolver) : List Visit :=
  match s with
  | .expression value => [⟨.expr value, r⟩]
  | .print _ value => [⟨.expr value, r⟩]
  | .var _ none => []
  | .var name (some initial) => [⟨.expr initial, r.declare name .declared⟩]
  | .function ⟨name, code⟩ => [⟨.code .function code, r.declareAndDefine name .declared⟩]
  | .class name none methods => [⟨.methods methods, r.enterMethods name none methods⟩]
  | .class name (some parent) methods =>
    [⟨.superclass name parent, r⟩, ⟨.methods methods, r.enterMethods name (some parent) methods⟩]
  | .block body => [⟨.stmts body, r.enter (.block body)⟩]
  | .if condition yes none => [⟨.expr condition, r⟩, ⟨.stmt yes, condition.resolve r⟩]
  | .if condition yes (some no) =>
    [⟨.expr condition, r⟩, ⟨.stmt yes, condition.resolve r⟩,
      ⟨.stmt no, yes.resolve (condition.resolve r)⟩]
  | .while condition body =>
    [⟨.expr condition, r⟩,
      ⟨.stmt body, { condition.resolve r with loops := (condition.resolve r).loops + 1 }⟩]
  | .return _ none | .break _ => []
  | .return keyword (some value) => [⟨.expr value, r.checkReturn keyword true⟩]

/-- The nodes that a node is directly made of, in the order in which the walk comes to them. -/
def Visit.parts (v : Visit) : List Visit :=
  match v.node with
  | .expr e => e.parts v.before
  | .exprs [] => []
  | .exprs (e :: rest) => [⟨.expr e, v.before⟩, ⟨.exprs rest, e.resolve v.before⟩]
  | .code role code => [⟨.stmts code.body, v.before.enterFunction role code⟩]
  | .methods [] => []
  | .methods (⟨name, code⟩ :: rest) =>
    [⟨.code (.ofMethod name.lexeme) code, v.before⟩,
      ⟨.methods rest, code.resolve (.ofMethod name.lexeme) v.before⟩]
  | .superclass _ _ => []
  | .stmt s => s.parts v.before
  | .stmts [] => []
  | .stmts (s :: rest) => [⟨.stmt s, v.before⟩, ⟨.stmts rest, s.resolve v.before⟩]

/-- The walks over some programs come to these nodes. -/
inductive Visited (programs : List (List Stmt)) : Visit → Prop
  | program {program : List Stmt} (h : program ∈ programs) :
    Visited programs ⟨.stmts program, .start⟩
  | part {v w : Visit} (hv : Visited programs v) (hw : w ∈ v.parts) : Visited programs w

/-- What some programs visit is visited by more programs. -/
theorem Visited.mono {programs more : List (List Stmt)} (hsub : programs ⊆ more) {v : Visit}
    (h : Visited programs v) : Visited more v := by
  induction h with
  | program h => exact .program (hsub h)
  | part _ hw ih => exact .part ih hw

end Lox
