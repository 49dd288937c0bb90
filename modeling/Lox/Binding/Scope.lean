import Lox.Table
import Lox.Tree.Basic

namespace Lox

/-- What a scope is for. The last two hold a name that the language introduces itself. -/
inductive ScopeKind where
  | block
  | function
  | this
  | super
deriving DecidableEq, Repr

/-- What has opened a scope: the statements of a block, the code of a function, or a class with these
    methods, for their `this` and for the `super` around it. -/
inductive Opening where
  | block (body : List Stmt)
  | function (code : Lambda)
  | this (methods : List Definition)
  | super (methods : List Definition)

/-- What a scope is for that was opened so. -/
def Opening.kind : Opening → ScopeKind
  | block _ => .block
  | function _ => .function
  | this _ => .this
  | super _ => .super

/-- How a local name came to be there. -/
inductive Origin where
  | declared
  | parameter
  | implicit
deriving DecidableEq, Repr

/-- A local name on the line of its first declaration. It is initialized once its own initializer
    has been read, and used once something reads it. -/
structure Local where
  line : Nat
  origin : Origin
  initialized : Bool
  used : Bool
deriving DecidableEq, Repr

/-- Whether a name deserves a warning once its scope ends. -/
def Local.isUnused (l : Local) : Bool :=
  l.origin = .declared && l.initialized && !l.used

/-- A scope that is still open: what has opened it, and its local names so far. Global names are in
    no scope. -/
structure Scope where
  opening : Opening
  locals : Table Local

/-- A declared local name that nothing reads. -/
structure Warning where
  line : Nat
  name : String
deriving DecidableEq, Repr

/-- The text of a warning. -/
def Warning.text (w : Warning) : String :=
  "[line " ++ toString w.line ++ "] Variable " ++ w.name ++ " is never used."

/-- The order by line, and by name on one line. -/
def Warning.le (a b : Warning) : Bool :=
  a.line < b.line || (a.line = b.line && a.name ≤ b.name)

/-- Puts a warning in front of the first one that does not come before it. -/
def Warning.place (w : Warning) : List Warning → List Warning
  | [] => [w]
  | first :: rest => if w.le first then w :: first :: rest else first :: w.place rest

/-- The warnings by line, and those on one line by name. -/
def Warning.sort (warnings : List Warning) : List Warning :=
  warnings.foldr Warning.place []

namespace Scope

/-- What the scope is for. -/
def kind (s : Scope) : ScopeKind :=
  s.opening.kind

/-- A scope without names. -/
def opened (opening : Opening) : Scope :=
  ⟨opening, .empty⟩

/-- Changes what is known about a name, if the scope has it. -/
def update (s : Scope) (name : String) (change : Local → Local) : Scope :=
  match s.locals.find? name with
  | none => s
  | some l => { s with locals := s.locals.insert name (change l) }

/-- The warnings about a scope that ends. -/
def warnings (s : Scope) : List Warning :=
  let unused := s.locals.entries.filter fun (_, l) => l.isUnused
  Warning.sort (unused.map fun (name, l) => ⟨l.line, name⟩)

end Scope

end Lox
