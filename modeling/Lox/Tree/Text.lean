import Lox.Number.Text
import Lox.Tree.Basic

namespace Lox

/-- Numbers in a tree: whole numbers show all their digits and a zero after the point. -/
def Literal.numberStyle : Number.Style :=
  ⟨none, ".0", true⟩

/-- A literal in a tree; a text stands without its quotes. -/
def Literal.text : Literal → String
  | number x => numberStyle.write x
  | string s => s
  | bool true => "true"
  | bool false => "false"
  | nil => "nil"

/-- Items in parentheses with a blank between them. -/
def parenthesized (items : List String) : String :=
  "(" ++ String.intercalate " " items ++ ")"

mutual

/-- An expression in parentheses with its operator first. -/
def Expr.text : Expr → String
  | .literal value _ => value.text
  | .grouping inner => parenthesized ["group", inner.text]
  | .unary _ mark right => parenthesized [mark.lexeme, right.text]
  | .binary _ mark left right => parenthesized [mark.lexeme, left.text, right.text]
  | .unpaired _ mark right => parenthesized [mark.lexeme, "<missing>", right.text]
  | .logical _ mark left right => parenthesized [mark.lexeme, left.text, right.text]
  | .conditional condition yes no => parenthesized ["?:", condition.text, yes.text, no.text]
  | .comma left right => parenthesized [",", left.text, right.text]
  | .name ref => ref.mark.lexeme
  | .assign ref value => parenthesized ["=", ref.mark.lexeme, value.text]
  | .call callee _ arguments => parenthesized ("call" :: callee.text :: Expr.texts arguments)
  | .get object property => parenthesized [".", object.text, property.lexeme]
  | .set object property value =>
    parenthesized [".=", object.text, property.lexeme, value.text]
  | .this _ => "this"
  | .super _ method => parenthesized ["super", method.lexeme]
  | .lambda _ code => code.text ""

/-- The texts of expressions in order. -/
def Expr.texts : List Expr → List String
  | [] => []
  | e :: rest => e.text :: Expr.texts rest

/-- Some code with its parameters and its body under a name. -/
def Lambda.text (name : String) : Lambda → String
  | ⟨params, body⟩ =>
    let head := name ++ "(" ++ String.intercalate " " (params.map Mark.lexeme) ++ ")"
    parenthesized (("fun " ++ head) :: Stmt.texts body)

/-- The texts of functions in order. -/
def Definition.texts : List Definition → List String
  | [] => []
  | ⟨name, code⟩ :: rest => code.text name.lexeme :: Definition.texts rest

/-- A statement in parentheses with its keyword first. -/
def Stmt.text : Stmt → String
  | .expression value => parenthesized [";", value.text]
  | .print _ value => parenthesized ["print", value.text]
  | .var name none => parenthesized ["var", name.lexeme]
  | .var name (some initial) => parenthesized ["var", name.lexeme, initial.text]
  | .function ⟨name, code⟩ => code.text name.lexeme
  | .class name none methods =>
    parenthesized ("class" :: name.lexeme :: Definition.texts methods)
  | .class name (some superclass) methods =>
    parenthesized
      ("class" :: name.lexeme :: "<" :: superclass.mark.lexeme :: Definition.texts methods)
  | .block body => parenthesized ("block" :: Stmt.texts body)
  | .if condition yes none => parenthesized ["if", condition.text, yes.text]
  | .if condition yes (some no) => parenthesized ["if", condition.text, yes.text, no.text]
  | .while condition body => parenthesized ["while", condition.text, body.text]
  | .return _ none => parenthesized ["return"]
  | .return _ (some value) => parenthesized ["return", value.text]
  | .break _ => parenthesized ["break"]

/-- The texts of statements in order. -/
def Stmt.texts : List Stmt → List String
  | [] => []
  | s :: rest => s.text :: Stmt.texts rest

end

/-- A statement a line. -/
def programText (program : List Stmt) : String :=
  String.intercalate "\n" (Stmt.texts program)

end Lox
