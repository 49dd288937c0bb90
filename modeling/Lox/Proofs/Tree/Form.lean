import Lox.Tree.Basic

namespace Lox

/-- The names that a statement itself brings in, not those that blocks and functions inside it keep
    for themselves. -/
def Stmt.declares : Stmt → List String
  | .var name _ => [name.lexeme]
  | .function ⟨name, _⟩ => [name.lexeme]
  | .class name _ _ => [name.lexeme]
  | .if _ yes none => yes.declares
  | .if _ yes (some no) => yes.declares ++ no.declares
  | .while _ body => body.declares
  | _ => []

mutual

/-- The numbers of the occurrences in an expression, in the order of their binding. -/
def Expr.ids : Expr → List Nat
  | .literal _ _ => []
  | .grouping inner => inner.ids
  | .unary _ _ right => right.ids
  | .binary _ _ left right => left.ids ++ right.ids
  | .unpaired _ _ right => right.ids
  | .logical _ _ left right => left.ids ++ right.ids
  | .conditional condition yes no => condition.ids ++ yes.ids ++ no.ids
  | .comma left right => left.ids ++ right.ids
  | .name ref => [ref.id]
  | .assign ref value => value.ids ++ [ref.id]
  | .call callee _ arguments => callee.ids ++ Expr.idsAll arguments
  | .get object _ => object.ids
  | .set object _ value => value.ids ++ object.ids
  | .this ref => [ref.id]
  | .super ref _ => [ref.id]
  | .lambda _ code => code.ids

/-- The numbers of the occurrences in expressions, in order. -/
def Expr.idsAll : List Expr → List Nat
  | [] => []
  | e :: rest => e.ids ++ Expr.idsAll rest

/-- The numbers of the occurrences in the code of a function. -/
def Lambda.ids : Lambda → List Nat
  | ⟨_, body⟩ => Stmt.idsAll body

/-- The numbers of the occurrences in the code of functions, in order. -/
def Definition.idsAll : List Definition → List Nat
  | [] => []
  | ⟨_, code⟩ :: rest => code.ids ++ Definition.idsAll rest

/-- The numbers of the occurrences in a statement. -/
def Stmt.ids : Stmt → List Nat
  | .expression value => value.ids
  | .print _ value => value.ids
  | .var _ none => []
  | .var _ (some initial) => initial.ids
  | .function ⟨_, code⟩ => code.ids
  | .class _ none methods => Definition.idsAll methods
  | .class _ (some parent) methods => parent.id :: Definition.idsAll methods
  | .block body => Stmt.idsAll body
  | .if condition yes none => condition.ids ++ yes.ids
  | .if condition yes (some no) => condition.ids ++ yes.ids ++ no.ids
  | .while condition body => condition.ids ++ body.ids
  | .return _ none => []
  | .return _ (some value) => value.ids
  | .break _ => []

/-- The numbers of the occurrences in statements, in order. -/
def Stmt.idsAll : List Stmt → List Nat
  | [] => []
  | s :: rest => s.ids ++ Stmt.idsAll rest

end

/-- A name that the language leaves to programs. -/
def IsPlain (name : String) : Prop :=
  name ≠ "this" ∧ name ≠ "super"

/-- The name is none that the language introduces itself. -/
abbrev Mark.Plain (name : Mark) : Prop :=
  IsPlain name.lexeme

mutual

/-- Every operator has its operands, no name is `this` or `super` but for the expressions of these
    two, and a statement under a condition brings no name in. -/
def Expr.Proper : Expr → Prop
  | .literal _ _ => True
  | .grouping inner => inner.Proper
  | .unary _ _ right => right.Proper
  | .binary _ _ left right => left.Proper ∧ right.Proper
  | .unpaired _ _ _ => False
  | .logical _ _ left right => left.Proper ∧ right.Proper
  | .conditional condition yes no => condition.Proper ∧ yes.Proper ∧ no.Proper
  | .comma left right => left.Proper ∧ right.Proper
  | .name ref => ref.mark.Plain
  | .assign ref value => ref.mark.Plain ∧ value.Proper
  | .call callee _ arguments => callee.Proper ∧ Expr.AllProper arguments
  | .get object _ => object.Proper
  | .set object _ value => object.Proper ∧ value.Proper
  | .this ref => ref.mark.lexeme = "this"
  | .super ref _ => ref.mark.lexeme = "super"
  | .lambda _ code => code.Proper

/-- All of the expressions are proper. -/
def Expr.AllProper : List Expr → Prop
  | [] => True
  | e :: rest => e.Proper ∧ Expr.AllProper rest

/-- The parameters are names like others, and the body is proper. -/
def Lambda.Proper : Lambda → Prop
  | ⟨params, body⟩ => (∀ param ∈ params, param.Plain) ∧ Stmt.AllProper body

/-- The code of every function is proper. -/
def Definition.AllProper : List Definition → Prop
  | [] => True
  | ⟨_, code⟩ :: rest => code.Proper ∧ Definition.AllProper rest

/-- The names that a statement brings in are names like others, and its parts are proper. -/
def Stmt.Proper : Stmt → Prop
  | .expression value => value.Proper
  | .print _ value => value.Proper
  | .var name none => name.Plain
  | .var name (some initial) => name.Plain ∧ initial.Proper
  | .function ⟨name, code⟩ => name.Plain ∧ code.Proper
  | .class name none methods => name.Plain ∧ Definition.AllProper methods
  | .class name (some parent) methods =>
    name.Plain ∧ parent.mark.Plain ∧ Definition.AllProper methods
  | .block body => Stmt.AllProper body
  | .if condition yes none => condition.Proper ∧ yes.Proper ∧ yes.declares = []
  | .if condition yes (some no) =>
    condition.Proper ∧ yes.Proper ∧ no.Proper ∧ yes.declares = [] ∧ no.declares = []
  | .while condition body => condition.Proper ∧ body.Proper ∧ body.declares = []
  | .return _ none => True
  | .return _ (some value) => value.Proper
  | .break _ => True

/-- All of the statements are proper. -/
def Stmt.AllProper : List Stmt → Prop
  | [] => True
  | s :: rest => s.Proper ∧ Stmt.AllProper rest

end

/-- The name of a class is a name like others, whatever else it is proper by. -/
theorem Stmt.Proper.class_plain {name : Mark} {superclass : Option Ref} {methods : List Definition}
    (h : (Stmt.class name superclass methods).Proper) : name.Plain := by
  cases superclass with
  | none => exact h.1
  | some parent => exact h.1

/-- The parameters of proper code are names like others. -/
theorem Lambda.Proper.params_plain {code : Lambda} (h : code.Proper) :
    ∀ param ∈ code.params, param.Plain := by
  obtain ⟨params, body⟩ := code
  exact h.1

end Lox
