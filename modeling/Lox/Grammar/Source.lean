import Lox.Grammar.Program
import Lox.Token.Scan

namespace Lox.Grammar

/-- What has been read of a source: the errors of its tokens, and the tree of those that are tokens.
    -/
structure SourceTree where
  lexErrors : List LexError
  parsed : Parsed

/-- Reads a source as a program whose names are numbered from `firstId`. -/
def readSource (source : String) (firstId : Nat) : SourceTree :=
  let found := items source
  ⟨found.filterMap Item.error?, parse (found.filterMap Item.token?) firstId⟩

/-- The errors of both kinds; those of the tokens are found first. -/
def SourceTree.errors (t : SourceTree) : List Diagnostic :=
  t.lexErrors.map .lexical ++ t.parsed.errors.map .grammatical

/-- The program, if every declaration of it could be read. -/
def Parsed.complete? (p : Parsed) : Option (List Stmt) :=
  p.entries.mapM id

end Lox.Grammar
