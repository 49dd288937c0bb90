import Lox.Diagnostic
import Lox.Tree.Basic

namespace Lox.Grammar

/-- What the text around a construct means for it: how many loops of the same function it stands
    in, and whether a comma joins two expressions there. -/
structure Context where
  loops : Nat
  commas : Bool
deriving DecidableEq, Repr

/-- Whether a token marks the end of the source. -/
def isEnd (token : Token) : Bool :=
  token.kind = .eof

/-- The tokens of a program, the place of the next one, what stands around it, the next number for a name,
    and the errors found, the last one first. -/
structure State where
  tokens : List Token
  current : Nat
  context : Context
  nextId : Nat
  errors : List SyntaxError
deriving DecidableEq, Repr

/-- A reader of tokens. One that fails leaves the state it has reached, so that reading can go on
    from there. -/
abbrev Reader := EStateM SyntaxError State

namespace State

/-- The next token, unless it is an end. -/
def next? (s : State) : Option Token :=
  s.tokens[s.current]?.filter (!isEnd ·)

/-- The token behind the next one, unless it is an end. -/
def second? (s : State) : Option Token :=
  s.tokens[s.current + 1]?.filter (!isEnd ·)

/-- The token that an error found now is about. -/
def site (s : State) : Site :=
  match s.tokens[s.current]? with
  | none => ⟨none, 0⟩
  | some token => if isEnd token then ⟨none, token.line⟩ else .ofMark token.toMark

end State

/-- Fails at the place where the reader stands. -/
def fail {α : Type} (cause : SyntaxCause) : Reader α := fun s =>
  .error ⟨cause, s.site⟩ s

/-- Notes an error that does not keep the reader from going on. -/
def report (cause : SyntaxCause) (site : Site) : Reader Unit := fun s =>
  .ok () { s with errors := ⟨cause, site⟩ :: s.errors }

/-- Notes an error at the place where the reader stands, and goes on. -/
def reportHere (cause : SyntaxCause) : Reader Unit := fun s =>
  .ok () { s with errors := ⟨cause, s.site⟩ :: s.errors }

/-- The number for the next name, which is used up. -/
def freshId : Reader Nat := fun s =>
  .ok s.nextId { s with nextId := s.nextId + 1 }

/-- Whether a token of the kind is next. -/
def next (kind : TokenKind) : Reader Bool := fun s =>
  .ok (s.next?.any (·.kind = kind)) s

/-- Whether nothing but the end is next. -/
def atEnd : Reader Bool := fun s =>
  .ok s.next?.isNone s

/-- Takes the next token if its kind is chosen. -/
def take? {α : Type} (choose : TokenKind → Option α) : Reader (Option (α × Mark)) := fun s =>
  match s.next? with
  | none => .ok none s
  | some token =>
    match choose token.kind with
    | none => .ok none s
    | some a => .ok (some (a, token.toMark)) { s with current := s.current + 1 }

/-- Takes the next token if it is of the kind. -/
def accept (kind : TokenKind) : Reader (Option Mark) := do
  return (← take? fun k => if k = kind then some () else none).map (·.2)

/-- Takes the punctuation mark that the grammar asks for here. -/
def expect (place : Place) : Reader Mark := do
  match ← accept place.kind with
  | some mark => return mark
  | none => fail (.expected place)

/-- Takes the name that the grammar asks for here, or fails with what the name would have been for.
    -/
def expectName (role : NameRole) : Reader Mark := do
  match ← accept .identifier with
  | some mark => return mark
  | none => fail (.expectedName role)

/-- One loop more stands around. -/
def Context.inLoop (c : Context) : Context :=
  { c with loops := c.loops + 1 }

/-- A function starts afresh: no loop around it reaches into its body. -/
def Context.inBody (_ : Context) : Context :=
  ⟨0, true⟩

/-- Among arguments a comma separates, so it is no operator. -/
def Context.inArguments (c : Context) : Context :=
  { c with commas := false }

/-- In parentheses a comma is an operator again, whatever stands around them. -/
def Context.inGrouping (c : Context) : Context :=
  { c with commas := true }

/-- How the context is changed for a construct, and how that is undone from the context before and the one
    reached. To undo the change at once changes nothing. -/
structure Change where
  enter : Context → Context
  leave : (before reached : Context) → Context
  leave_enter (c : Context) : leave c (enter c) = c

namespace Change

/-- The loops are counted up and down again. -/
def loop : Change where
  enter := Context.inLoop
  leave _ reached := { reached with loops := reached.loops - 1 }
  leave_enter _ := rfl

/-- Behind a body both flags are put back. -/
def body : Change where
  enter := Context.inBody
  leave before _ := before
  leave_enter _ := rfl

/-- Among arguments the flag for commas is cleared, and put back afterwards. -/
def arguments : Change where
  enter := Context.inArguments
  leave before reached := { reached with commas := before.commas }
  leave_enter _ := rfl

/-- In parentheses the flag for commas is set, and put back afterwards. -/
def grouping : Change where
  enter := Context.inGrouping
  leave before reached := { reached with commas := before.commas }
  leave_enter _ := rfl

end Change

/-- Reads in a changed context and undoes the change, also after a failure. -/
def within {α : Type} (change : Change) (read : Reader α) : Reader α := fun s =>
  match read { s with context := change.enter s.context } with
  | .ok a after => .ok a { after with context := change.leave s.context after.context }
  | .error e after => .error e { after with context := change.leave s.context after.context }

/-- The most parameters and arguments that pass without an error. -/
def maxArguments : Nat := 255

/-- Reads one more item, and whether a comma comes after it, which is read as well. The items come
    last first. -/
def oneMore {α : Type} (tooMany : SyntaxCause) (item : Reader α) (before : List α) :
    Reader (List α × Bool) := do
  if maxArguments ≤ before.length then reportHere tooMany
  let x ← item
  return (x :: before, (← accept .comma).isSome)

/-- Items with commas between them, behind those already read, which come last first. One item more
    than `commas` is read at most. -/
def separated {α : Type} (tooMany : SyntaxCause) (item : Reader α) :
    (commas : Nat) → (before : List α) → Reader (List α)
  | 0, before => do
    let (items, _) ← oneMore tooMany item before
    return items.reverse
  | commas + 1, before => do
    match ← oneMore tooMany item before with
    | (items, true) => separated tooMany item commas items
    | (items, false) => return items.reverse

end Lox.Grammar
