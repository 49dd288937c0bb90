import Lox.Proofs.Grammar.Ladder

namespace Lox

/-- What a token says: its kind, and the name that an identifier is. -/
structure Shown where
  kind : TokenKind
  name : Option String
deriving DecidableEq, Repr

/-- What a token shows of itself: its kind, and the spelling of a name. -/
def Token.shown (token : Token) : Shown :=
  ⟨token.kind, if token.kind = .identifier then some token.lexeme else none⟩

/-- A token of which a tree keeps nothing else. -/
def TokenKind.sign (kind : TokenKind) : Token :=
  ⟨⟨"", 0⟩, kind⟩

/-- The token of a name that stands where a name is needed. -/
def Mark.identifier (mark : Mark) : Token :=
  ⟨mark, .identifier⟩

/-- Rows of tokens with commas between them. -/
def commaSeparated : List (List Token) → List Token
  | [] => []
  | [row] => row
  | row :: rest => row ++ TokenKind.comma.sign :: commaSeparated rest

mutual

/-- The tokens of an expression in order. -/
def Expr.tokens : Expr → List Token
  | .literal value line => [⟨⟨"", line⟩, value.kind⟩]
  | .grouping inner => TokenKind.leftParen.sign :: (inner.tokens ++ [TokenKind.rightParen.sign])
  | .unary op mark right => ⟨mark, op.kind⟩ :: right.tokens
  | .binary op mark left right => left.tokens ++ ⟨mark, op.kind⟩ :: right.tokens
  | .unpaired op mark right => ⟨mark, op.kind⟩ :: right.tokens
  | .logical op mark left right => left.tokens ++ ⟨mark, op.kind⟩ :: right.tokens
  | .conditional condition yes no =>
    condition.tokens ++ TokenKind.question.sign :: (yes.tokens ++ TokenKind.colon.sign :: no.tokens)
  | .comma left right => left.tokens ++ TokenKind.comma.sign :: right.tokens
  | .name ref => [ref.mark.identifier]
  | .assign ref value => ref.mark.identifier :: TokenKind.equal.sign :: value.tokens
  | .call callee paren arguments =>
    callee.tokens ++ TokenKind.leftParen.sign ::
      (commaSeparated (Expr.tokensEach arguments) ++ [⟨paren, .rightParen⟩])
  | .get object property => object.tokens ++ [TokenKind.dot.sign, property.identifier]
  | .set object property value =>
    object.tokens ++ TokenKind.dot.sign :: property.identifier :: TokenKind.equal.sign :: value.tokens
  | .this ref => [⟨ref.mark, .this⟩]
  | .super ref method => [⟨ref.mark, .super⟩, TokenKind.dot.sign, method.identifier]
  | .lambda keyword code => ⟨keyword, .fun⟩ :: code.tokens

/-- The tokens of each expression. -/
def Expr.tokensEach : List Expr → List (List Token)
  | [] => []
  | e :: rest => e.tokens :: Expr.tokensEach rest

/-- The tokens of some code: its parameters in parentheses and its body in braces. -/
def Lambda.tokens : Lambda → List Token
  | ⟨params, body⟩ =>
    TokenKind.leftParen.sign :: (commaSeparated (params.map fun param => [param.identifier]) ++
      TokenKind.rightParen.sign :: TokenKind.leftBrace.sign ::
        (Stmt.tokensAll body ++ [TokenKind.rightBrace.sign]))

/-- The tokens of methods, which stand without a keyword. -/
def Definition.tokensAll : List Definition → List Token
  | [] => []
  | ⟨name, code⟩ :: rest => name.identifier :: (code.tokens ++ Definition.tokensAll rest)

/-- The tokens of a statement in order, its keyword first and its end last. -/
def Stmt.tokens : Stmt → List Token
  | .expression value => value.tokens ++ [TokenKind.semicolon.sign]
  | .print keyword value => ⟨keyword, .print⟩ :: (value.tokens ++ [TokenKind.semicolon.sign])
  | .var name none => [TokenKind.var.sign, name.identifier, TokenKind.semicolon.sign]
  | .var name (some initial) =>
    TokenKind.var.sign :: name.identifier :: TokenKind.equal.sign ::
      (initial.tokens ++ [TokenKind.semicolon.sign])
  | .function ⟨name, code⟩ => TokenKind.fun.sign :: name.identifier :: code.tokens
  | .class name none methods =>
    TokenKind.class.sign :: name.identifier :: TokenKind.leftBrace.sign ::
      (Definition.tokensAll methods ++ [TokenKind.rightBrace.sign])
  | .class name (some parent) methods =>
    TokenKind.class.sign :: name.identifier :: TokenKind.less.sign :: parent.mark.identifier ::
      TokenKind.leftBrace.sign :: (Definition.tokensAll methods ++ [TokenKind.rightBrace.sign])
  | .block body => TokenKind.leftBrace.sign :: (Stmt.tokensAll body ++ [TokenKind.rightBrace.sign])
  | .if condition yes none =>
    TokenKind.if.sign :: TokenKind.leftParen.sign ::
      (condition.tokens ++ TokenKind.rightParen.sign :: yes.tokens)
  | .if condition yes (some no) =>
    TokenKind.if.sign :: TokenKind.leftParen.sign ::
      (condition.tokens ++ TokenKind.rightParen.sign ::
        (yes.tokens ++ TokenKind.else.sign :: no.tokens))
  | .while condition body =>
    TokenKind.while.sign :: TokenKind.leftParen.sign ::
      (condition.tokens ++ TokenKind.rightParen.sign :: body.tokens)
  | .return keyword none => [⟨keyword, .return⟩, TokenKind.semicolon.sign]
  | .return keyword (some value) =>
    ⟨keyword, .return⟩ :: (value.tokens ++ [TokenKind.semicolon.sign])
  | .break keyword => [⟨keyword, .break⟩, TokenKind.semicolon.sign]

/-- The tokens of statements in order. -/
def Stmt.tokensAll : List Stmt → List Token
  | [] => []
  | s :: rest => s.tokens ++ Stmt.tokensAll rest

end

/-- Two rows of tokens say the same. -/
def Shows (ts us : List Token) : Prop :=
  ts.map Token.shown = us.map Token.shown

namespace Shows

variable {ts ts' us us' : List Token} {token : Token} {kind : TokenKind}

theorem nil : Shows [] [] := rfl

/-- A token shows what another one does where both show the same of themselves. -/
theorem cons {other : Token} (htoken : token.shown = other.shown) (h : Shows ts us) :
    Shows (token :: ts) (other :: us) := by
  unfold Shows at *
  rw [List.map_cons, List.map_cons, htoken, h]

theorem append (h : Shows ts us) (h' : Shows ts' us') : Shows (ts ++ ts') (us ++ us') := by
  unfold Shows at *
  rw [List.map_append, List.map_append, h, h']

/-- A token that is no name is as good as a sign of its kind. -/
theorem sign (hkind : token.kind = kind) (hname : kind ≠ .identifier) (h : Shows ts us) :
    Shows (kind.sign :: ts) (token :: us) := by
  refine cons ?_ h
  subst hkind
  simp [Token.shown, TokenKind.sign, hname]

/-- A token with its mark and its kind is the token. -/
theorem kept (hkind : token.kind = kind) (h : Shows ts us) :
    Shows (⟨token.toMark, kind⟩ :: ts) (token :: us) := by
  subst hkind
  exact cons rfl h

/-- A literal shows its value, whatever the text was that it was written with. -/
theorem literal {value : Literal} (hkind : token.kind = value.kind) :
    Shows [⟨⟨"", token.line⟩, value.kind⟩] [token] := by
  refine cons ?_ nil
  have hname : value.kind ≠ .identifier := by rcases value with x | s | (_ | _) | _ <;> nofun
  simp [Token.shown, hkind, hname]

end Shows

end Lox
