import Lox.Grammar.Statement

namespace Lox.Grammar

/-- What has been read of a program, and the first number that no name in it has. -/
structure Parsed where
  entries : List (Option Stmt)
  errors : List SyntaxError
  nextId : Nat

/-- The declarations that could be read. -/
def Parsed.program (p : Parsed) : List Stmt :=
  p.entries.filterMap id

/-- The tokens with an end behind them, which is supplied if the last of them is none. -/
def ended (tokens : List Token) : List Token :=
  match tokens.getLast? with
  | none => [⟨⟨"", 1⟩, .eof⟩]
  | some last => if isEnd last then tokens else tokens ++ [⟨⟨"", last.line⟩, .eof⟩]

/-- The state before the first token. -/
def State.start (tokens : List Token) (firstId : Nat) : State :=
  { tokens := ended tokens
    current := 0
    context := ⟨0, true⟩
    nextId := firstId
    errors := [] }

/-- Declarations up to the end, behind those already read, which come last first. -/
def entriesFrom (declaration : Reader (Option Stmt)) :
    (count : Nat) → (before : List (Option Stmt)) → Reader (List (Option Stmt))
  | 0, before => return before.reverse
  | count + 1, before => do
    if ← atEnd then
      return before.reverse
    let entry ← declaration
    entriesFrom declaration count (entry :: before)

/-- Reads the tokens as a program whose names are numbered from `firstId`. Neither nesting nor declarations
    take more rounds than there are tokens. -/
def parse (tokens : List Token) (firstId : Nat) : Parsed :=
  let count := tokens.length
  match entriesFrom (Rules.below (count + 1)).declaration count [] (.start tokens firstId) with
  | .ok entries after => ⟨entries, after.errors.reverse, after.nextId⟩
  | .error e after => ⟨[], (e :: after.errors).reverse, after.nextId⟩

end Lox.Grammar
