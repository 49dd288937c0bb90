import Lox.Grammar.Expression

namespace Lox

open Grammar

/-- The height of a level on the ladder: the tighter it binds, the higher it is. -/
def Grammar.Level.height : Level → Nat
  | assignment => 0
  | or => 1
  | and => 2
  | conditional => 3
  | comma => 4
  | equality => 5
  | comparison => 6
  | term => 7
  | factor => 8
  | unary => 9

namespace Grammar

/-- Calls and properties bind tighter than every level. -/
def callHeight : Nat := 10

/-- What needs no operator at all is at the top. -/
def primaryHeight : Nat := 11

end Grammar

/-- The level that reads an operator with two operands. -/
def BinaryOp.level : BinaryOp → Level
  | equal | notEqual => .equality
  | less | lessEqual | greater | greaterEqual => .comparison
  | add | subtract => .term
  | multiply | divide => .factor

/-- The level that reads an operator whose first operand can decide. -/
def LogicalOp.level : LogicalOp → Level
  | and => .and
  | or => .or

/-- The height at which an expression stands on the ladder. An operator without its left operand
    stands where one that needs none would. -/
def Expr.height : Expr → Nat
  | literal _ _ | grouping _ | name _ | this _ | super _ _ | lambda _ _ => primaryHeight
  | call _ _ _ | get _ _ => callHeight
  | unary _ _ _ | unpaired _ _ _ => Level.unary.height
  | binary op _ _ _ => op.level.height
  | logical op _ _ _ => op.level.height
  | conditional _ _ _ => Level.conditional.height
  | comma _ _ => Level.comma.height
  | assign _ _ | set _ _ _ => Level.assignment.height

/-- The token of the operator. -/
def UnaryOp.kind : UnaryOp → TokenKind
  | negate => .minus
  | not => .bang

/-- The token of the operator. -/
def BinaryOp.kind : BinaryOp → TokenKind
  | add => .plus
  | subtract => .minus
  | multiply => .star
  | divide => .slash
  | equal => .equalEqual
  | notEqual => .bangEqual
  | less => .less
  | lessEqual => .lessEqual
  | greater => .greater
  | greaterEqual => .greaterEqual

/-- The token of the operator. -/
def LogicalOp.kind : LogicalOp → TokenKind
  | and => .and
  | or => .or

/-- The token of the literal, which carries its value. -/
def Literal.kind : Literal → TokenKind
  | number x => .number x
  | string s => .string s
  | bool true => .true
  | bool false => .false
  | nil => .nil

namespace Grammar

variable {k : TokenKind}

theorem unaryOp?_eq_some {op : UnaryOp} : unaryOp? k = some op ↔ k = op.kind := by
  constructor
  · cases k <;> rintro ⟨⟩ <;> rfl
  · rintro rfl
    cases op <;> rfl

/-- The binary operators that a level reads between its operands. -/
def Level.binaryOp? : Level → TokenKind → Option BinaryOp
  | equality => equalityOp?
  | comparison => comparisonOp?
  | term => termOp?
  | factor => factorOp?
  | _ => fun _ => none

/-- The operators of a level whose first operand can decide. -/
def Level.logicalOp? : Level → TokenKind → Option LogicalOp
  | or => orOp?
  | and => andOp?
  | _ => fun _ => none

/-- Every binary operator has one token and one level. -/
theorem binaryOp?_eq_some {level : Level} {op : BinaryOp} :
    level.binaryOp? k = some op ↔ k = op.kind ∧ op.level = level := by
  constructor
  · cases level <;> cases k <;> rintro ⟨⟩ <;> exact ⟨rfl, rfl⟩
  · rintro ⟨rfl, rfl⟩
    cases op <;> rfl

/-- Every logical operator has one token and one level. -/
theorem logicalOp?_eq_some {level : Level} {op : LogicalOp} :
    level.logicalOp? k = some op ↔ k = op.kind ∧ op.level = level := by
  constructor
  · cases level <;> cases k <;> rintro ⟨⟩ <;> exact ⟨rfl, rfl⟩
  · rintro ⟨rfl, rfl⟩
    cases op <;> rfl

theorem commaOp?_eq_some (op : Unit) : commaOp? k = some op ↔ k = .comma := by
  constructor
  · cases k <;> rintro ⟨⟩
    rfl
  · rintro rfl
    rfl

/-- The kind of the token that a primary expression starts with. -/
def Start.kind : Start → TokenKind
  | literal value => value.kind
  | name => .identifier
  | this => .this
  | super => .super
  | lambda => .fun
  | grouping => .leftParen

/-- Every start of a primary expression has one token. -/
theorem start?_eq_some (start : Start) : start? k = some start ↔ k = start.kind := by
  constructor
  · cases k <;> rintro ⟨⟩ <;> rfl
  · rintro rfl
    rcases start with (x | s | (_ | _) | _) | _ | _ | _ | _ | _ <;> rfl

/-- The kind of the token that something behind a callee starts with. -/
def Suffix.kind : Suffix → TokenKind
  | arguments => .leftParen
  | property => .dot

/-- Every suffix of a callee has one token. -/
theorem suffix?_eq_some (suffix : Suffix) : suffix? k = some suffix ↔ k = suffix.kind := by
  constructor
  · cases k <;> rintro ⟨⟩ <;> rfl
  · rintro rfl
    cases suffix <;> rfl

/-- The height of the operator that a token is when it comes after an operand. -/
def Context.grip? (c : Context) : TokenKind → Option Nat
  | .leftParen | .dot => some callHeight
  | .star | .slash => some Level.factor.height
  | .plus | .minus => some Level.term.height
  | .less | .lessEqual | .greater | .greaterEqual => some Level.comparison.height
  | .equalEqual | .bangEqual => some Level.equality.height
  | .comma => if c.commas then some Level.comma.height else none
  | .question => some Level.conditional.height
  | .and => some Level.and.height
  | .or => some Level.or.height
  | .equal => some Level.assignment.height
  | _ => none

/-- An expression that is read from this height up ends where the tokens go on so. -/
def Stops (height : Nat) (c : Context) (rest : List Token) : Prop :=
  ∀ token ∈ rest.head?, ∀ grip ∈ c.grip? token.kind, grip < height

namespace Stops

variable {c : Context} {rest : List Token} {height : Nat}

theorem mono {height' : Nat} (h : Stops height c rest) (hle : height ≤ height') :
    Stops height' c rest :=
  fun token htoken grip hgrip => Nat.lt_of_lt_of_le (h token htoken grip hgrip) hle

/-- Where the next token holds on no higher the expression stops. -/
theorem cons {token : Token} (h : ∀ grip ∈ c.grip? token.kind, grip < height) :
    Stops height c (token :: rest) := by
  rintro _ ⟨⟩
  exact h

/-- A token that is no operator stops every expression. -/
theorem of_none {token : Token} (h : c.grip? token.kind = none) : Stops height c (token :: rest) :=
  cons fun grip hgrip => by cases h.symm.trans hgrip

/-- No operator of a level from the height up comes next. -/
theorem choose_none {α : Type} {choose : TokenKind → Option α} {level : Nat}
    (h : Stops height c rest) (hle : height ≤ level)
    (hgrip : ∀ {k a}, choose k = some a → c.grip? k = some level) :
    ∀ token ∈ rest.head?, choose token.kind = none := by
  intro token htoken
  cases hchoose : choose token.kind with
  | none => rfl
  | some a => exact absurd (h token htoken level (hgrip hchoose)) (Nat.not_lt.mpr hle)

/-- A token that holds on is not the next one where the expression stops. -/
theorem kind_ne {kind : TokenKind} {level : Nat} (h : Stops height c rest) (hle : height ≤ level)
    (hgrip : c.grip? kind = some level) : ∀ token ∈ rest.head?, token.kind ≠ kind := by
  rintro token htoken rfl
  exact absurd (h token htoken level hgrip) (Nat.not_lt.mpr hle)

end Stops

variable {c : Context}

theorem grip?_suffix {s : Suffix} (h : suffix? k = some s) : c.grip? k = some callHeight := by
  cases k <;> first | rfl | cases h

/-- A binary operator holds on to an operand at the height of its level. -/
theorem grip?_binaryOp {level : Level} {op : BinaryOp} (h : level.binaryOp? k = some op) :
    c.grip? k = some level.height := by
  obtain ⟨rfl, rfl⟩ := binaryOp?_eq_some.mp h
  cases op <;> rfl

theorem grip?_logicalOp {level : Level} {op : LogicalOp} (h : level.logicalOp? k = some op) :
    c.grip? k = some level.height := by
  obtain ⟨rfl, rfl⟩ := logicalOp?_eq_some.mp h
  cases op <;> rfl

theorem grip?_commaOp {op : Unit} (hcommas : c.commas = true) (h : commaOp? k = some op) :
    c.grip? k = some Level.comma.height := by
  obtain rfl := (commaOp?_eq_some op).mp h
  simp [Context.grip?, hcommas]

end Grammar

end Lox
