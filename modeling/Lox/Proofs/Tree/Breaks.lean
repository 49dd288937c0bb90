import Lox.Proofs.Tree.Relabeling

namespace Lox

/-- A `break` by its keyword. It is stray if no loop is around it in the function that it stands in, or
    in the program outside of functions. -/
structure Break where
  keyword : Mark
  stray : Bool
deriving DecidableEq, Repr

mutual

/-- The breaks in an expression, in the order of their binding. They are all in functions, so it makes
    no difference what the expression stands in. -/
def Expr.breaks : Expr → List Break
  | .literal _ _ => []
  | .grouping inner => inner.breaks
  | .unary _ _ right => right.breaks
  | .binary _ _ left right => left.breaks ++ right.breaks
  | .unpaired _ _ right => right.breaks
  | .logical _ _ left right => left.breaks ++ right.breaks
  | .conditional condition yes no => condition.breaks ++ yes.breaks ++ no.breaks
  | .comma left right => left.breaks ++ right.breaks
  | .name _ => []
  | .assign _ value => value.breaks
  | .call callee _ arguments => callee.breaks ++ Expr.breaksAll arguments
  | .get object _ => object.breaks
  | .set object _ value => value.breaks ++ object.breaks
  | .this _ => []
  | .super _ _ => []
  | .lambda _ code => code.breaks

/-- The breaks in expressions, in order. -/
def Expr.breaksAll : List Expr → List Break
  | [] => []
  | e :: rest => e.breaks ++ Expr.breaksAll rest

/-- No loop around a function reaches into its body. -/
def Lambda.breaks : Lambda → List Break
  | ⟨_, body⟩ => Stmt.breaksAll false body

/-- The breaks in the code of functions, in order. -/
def Definition.breaksAll : List Definition → List Break
  | [] => []
  | ⟨_, code⟩ :: rest => code.breaks ++ Definition.breaksAll rest

/-- The breaks in a statement that stands in a loop or not. -/
def Stmt.breaks (inLoop : Bool) : Stmt → List Break
  | .expression value => value.breaks
  | .print _ value => value.breaks
  | .var _ none => []
  | .var _ (some initial) => initial.breaks
  | .function ⟨_, code⟩ => code.breaks
  | .class _ _ methods => Definition.breaksAll methods
  | .block body => Stmt.breaksAll inLoop body
  | .if condition yes none => condition.breaks ++ yes.breaks inLoop
  | .if condition yes (some no) => condition.breaks ++ yes.breaks inLoop ++ no.breaks inLoop
  | .while condition body => condition.breaks ++ body.breaks true
  | .return _ none => []
  | .return _ (some value) => value.breaks
  | .break keyword => [⟨keyword, !inLoop⟩]

/-- The breaks in statements, in order. -/
def Stmt.breaksAll (inLoop : Bool) : List Stmt → List Break
  | [] => []
  | s :: rest => s.breaks inLoop ++ Stmt.breaksAll inLoop rest

end

/-- The break, whose keyword has other labels. -/
def Break.relabel (f : Relabeling) (b : Break) : Break :=
  ⟨b.keyword.relabel f, b.stray⟩

variable (f : Relabeling)

mutual

/-- A tree with other labels has the same breaks, but for the labels of their keywords. -/
theorem Expr.breaks_relabel (e : Expr) :
    (e.relabel f).breaks = e.breaks.map (Break.relabel f) := by
  cases e with
  | literal value line => rfl
  | grouping inner => exact inner.breaks_relabel
  | unary op mark right | unpaired op mark right => exact right.breaks_relabel
  | binary op mark left right | logical op mark left right | comma left right =>
    simp only [Expr.relabel, Expr.breaks, left.breaks_relabel, right.breaks_relabel, List.map_append]
  | conditional condition yes no =>
    simp only [Expr.relabel, Expr.breaks, condition.breaks_relabel, yes.breaks_relabel,
      no.breaks_relabel, List.map_append]
  | name ref | this ref | super ref method => rfl
  | assign ref value => exact value.breaks_relabel
  | call callee paren arguments =>
    simp only [Expr.relabel, Expr.breaks, callee.breaks_relabel, Expr.breaksAll_relabel arguments,
      List.map_append]
  | get object property => exact object.breaks_relabel
  | set object property value =>
    simp only [Expr.relabel, Expr.breaks, object.breaks_relabel, value.breaks_relabel, List.map_append]
  | lambda keyword code => exact code.breaks_relabel

theorem Expr.breaksAll_relabel (es : List Expr) :
    Expr.breaksAll (Expr.relabelAll f es) = (Expr.breaksAll es).map (Break.relabel f) := by
  cases es with
  | nil => rfl
  | cons e rest =>
    simp only [Expr.relabelAll, Expr.breaksAll, e.breaks_relabel, Expr.breaksAll_relabel rest,
      List.map_append]

theorem Lambda.breaks_relabel (code : Lambda) :
    (code.relabel f).breaks = code.breaks.map (Break.relabel f) := by
  obtain ⟨params, body⟩ := code
  exact Stmt.breaksAll_relabel false body

theorem Definition.breaksAll_relabel (ds : List Definition) :
    Definition.breaksAll (Definition.relabelAll f ds) =
      (Definition.breaksAll ds).map (Break.relabel f) := by
  cases ds with
  | nil => rfl
  | cons d rest =>
    obtain ⟨name, code⟩ := d
    simp only [Definition.relabelAll, Definition.relabel, Definition.breaksAll, code.breaks_relabel,
      Definition.breaksAll_relabel rest, List.map_append]

/-- A statement with other labels has the same breaks, and the same of them are caught. -/
theorem Stmt.breaks_relabel (inLoop : Bool) (s : Stmt) :
    (s.relabel f).breaks inLoop = (s.breaks inLoop).map (Break.relabel f) := by
  cases s with
  | expression value => exact value.breaks_relabel
  | print keyword value => exact value.breaks_relabel
  | var name initial =>
    cases initial with
    | none => rfl
    | some initial => exact initial.breaks_relabel
  | function definition =>
    obtain ⟨name, code⟩ := definition
    exact code.breaks_relabel
  | «class» name superclass methods => exact Definition.breaksAll_relabel methods
  | block body => exact Stmt.breaksAll_relabel inLoop body
  | «if» condition yes no =>
    cases no with
    | none =>
      simp only [Stmt.relabel, Stmt.breaks, condition.breaks_relabel, yes.breaks_relabel inLoop,
        List.map_append]
    | some no =>
      simp only [Stmt.relabel, Stmt.breaks, condition.breaks_relabel, yes.breaks_relabel inLoop,
        no.breaks_relabel inLoop, List.map_append]
  | «while» condition body =>
    simp only [Stmt.relabel, Stmt.breaks, condition.breaks_relabel, body.breaks_relabel true,
      List.map_append]
  | «return» keyword value =>
    cases value with
    | none => rfl
    | some value => exact value.breaks_relabel
  | «break» keyword => rfl

theorem Stmt.breaksAll_relabel (inLoop : Bool) (body : List Stmt) :
    Stmt.breaksAll inLoop (Stmt.relabelAll f body) =
      (Stmt.breaksAll inLoop body).map (Break.relabel f) := by
  cases body with
  | nil => rfl
  | cons s rest =>
    simp only [Stmt.relabelAll, Stmt.breaksAll, s.breaks_relabel inLoop,
      Stmt.breaksAll_relabel inLoop rest, List.map_append]

end

end Lox
