import Lox.Proofs.Grammar.Derivation

namespace Lox

open Grammar

/-- Whether a statement ends in an `if` that an `else` behind it would belong to. -/
def Stmt.unfinished : Stmt → Bool
  | .if _ _ none => true
  | .if _ _ (some no) => no.unfinished
  | .while _ body => body.unfinished
  | _ => false

mutual

/-- A left operand may be of the level of its operator, a right operand has to be tighter. A comma joins
    only where it does not separate. -/
def Expr.Canonical (c : Context) : Expr → Prop
  | .literal _ _ => True
  | .grouping inner => inner.Canonical c.inGrouping
  | .unary _ _ right => right.Canonical c ∧ Level.unary.height ≤ right.height
  | .binary op _ left right =>
    left.Canonical c ∧ op.level.height ≤ left.height ∧ right.Canonical c ∧
      op.level.height < right.height
  | .unpaired _ _ _ => False
  | .logical op _ left right =>
    left.Canonical c ∧ op.level.height ≤ left.height ∧ right.Canonical c ∧
      op.level.height < right.height
  | .conditional condition yes no =>
    condition.Canonical c ∧ Level.comma.height ≤ condition.height ∧ yes.Canonical c ∧
      no.Canonical c ∧ Level.conditional.height ≤ no.height
  | .comma left right =>
    c.commas = true ∧ left.Canonical c ∧ Level.comma.height ≤ left.height ∧ right.Canonical c ∧
      Level.comma.height < right.height
  | .name _ => True
  | .assign _ value => value.Canonical c
  | .call callee _ arguments =>
    callee.Canonical c ∧ callHeight ≤ callee.height ∧ Expr.AllCanonical c.inArguments arguments ∧
      arguments.length ≤ maxArguments
  | .get object _ => object.Canonical c ∧ callHeight ≤ object.height
  | .set object _ value => object.Canonical c ∧ callHeight ≤ object.height ∧ value.Canonical c
  | .this _ => True
  | .super _ _ => True
  | .lambda _ code => code.Canonical c

/-- All of the expressions respect the ladder. -/
def Expr.AllCanonical (c : Context) : List Expr → Prop
  | [] => True
  | e :: rest => e.Canonical c ∧ Expr.AllCanonical c rest

/-- Code has no more parameters than may be, and its body respects the ladder. -/
def Lambda.Canonical (c : Context) : Lambda → Prop
  | ⟨params, body⟩ => params.length ≤ maxArguments ∧ Stmt.AllCanonical c.inBody body

/-- The code of every method respects the ladder. -/
def Definition.AllCanonical (c : Context) : List Definition → Prop
  | [] => True
  | ⟨_, code⟩ :: rest => code.Canonical c ∧ Definition.AllCanonical c rest

/-- A branch is no declaration, an `else` belongs to the nearest `if`, and a `break` to a loop of the same
    function. -/
def Stmt.Canonical (c : Context) : Stmt → Prop
  | .expression value => value.Canonical c
  | .print _ value => value.Canonical c
  | .var _ none => True
  | .var _ (some initial) => initial.Canonical c
  | .function ⟨_, code⟩ => code.Canonical c
  | .class _ _ methods => Definition.AllCanonical c methods
  | .block body => Stmt.AllCanonical c body
  | .if condition yes none =>
    condition.Canonical c ∧ yes.Canonical c ∧ yes.isDeclaration = false
  | .if condition yes (some no) =>
    condition.Canonical c ∧ yes.Canonical c ∧ yes.isDeclaration = false ∧ yes.unfinished = false ∧
      no.Canonical c ∧ no.isDeclaration = false
  | .while condition body =>
    condition.Canonical c.inLoop ∧ body.Canonical c.inLoop ∧ body.isDeclaration = false
  | .return _ none => True
  | .return _ (some value) => value.Canonical c
  | .break _ => c.loops ≠ 0

/-- All of the statements respect the ladder. -/
def Stmt.AllCanonical (c : Context) : List Stmt → Prop
  | [] => True
  | s :: rest => s.Canonical c ∧ Stmt.AllCanonical c rest

end

end Lox
