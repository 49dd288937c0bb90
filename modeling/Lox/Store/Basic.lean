import Lox.Table
import Lox.Tree.Basic

namespace Lox

/-- Functions that are not written in the language: the clock, which is defined from the start, and
    those that a host brings along under a name. -/
inductive Native where
  | clock
  | hosted (name : String) (arity : Nat)
deriving DecidableEq, Repr

namespace Native

/-- The name under which a native function is found. -/
def name : Native → String
  | clock => "clock"
  | hosted name _ => name

/-- How many arguments a native function takes. -/
def arity : Native → Nat
  | clock => 0
  | hosted _ arity => arity

end Native

/-- Functions, classes and instances are known by their numbers in the store. -/
inductive Value where
  | nil
  | bool (b : Bool)
  | number (x : Float)
  | string (s : String)
  | native (f : Native)
  | function (id : Nat)
  | class (id : Nat)
  | instance (id : Nat)
deriving DecidableEq, Repr

namespace Value

/-- The value that a literal stands for. -/
def ofLiteral : Literal → Value
  | .number x => number x
  | .string s => string s
  | .bool b => bool b
  | .nil => nil

/-- Only nil and false count as false. -/
def isTrue : Value → Bool
  | nil | bool false => false
  | _ => true

/-- Whether a value is of a kind that can be called. -/
def isCallable : Value → Bool
  | native _ | function _ | .class _ => true
  | _ => false

/-- The equality of the language. Values of different kinds differ, numbers compare as numbers, so
    that a NaN differs from itself and the two zeros are equal, and what has an identity is equal to
    itself only. -/
def same : Value → Value → Bool
  | nil, nil => true
  | bool a, bool b => a == b
  | number a, number b => a == b
  | string a, string b => a == b
  | native a, native b => a == b
  | function a, function b => a == b
  | .class a, .class b => a == b
  | .instance a, .instance b => a == b
  | _, _ => false

end Value

/-- What a frame was made for. -/
inductive FrameKind where
  | global
  | block
  | function
  | this
  | super
deriving DecidableEq, Repr

/-- A variable that has been declared without a value, or one with a value. -/
inductive Slot where
  | unset
  | set (value : Value)
deriving DecidableEq, Repr

/-- Nil stands in for a value that has not been given yet. -/
def Slot.value : Slot → Value
  | unset => .nil
  | set value => value

/-- The frames that can be seen from a point of a run, innermost first, by their numbers. -/
abbrev Chain := List Nat

/-- What a frame was made for: the statements of a block, the code that is called, the code of a
    method and the instance that is its `this`, or the methods of a class and the class that is their
    `super`. -/
inductive Purpose where
  | block (body : List Stmt)
  | call (code : Lambda)
  | receiver (code : Lambda) (instanceId : Nat)
  | superclass (methods : List Definition) (classId : Nat)

/-- How a frame came to be: what for, and inside which other frames. -/
structure Birth where
  purpose : Purpose
  outer : Chain

/-- The names of a block, a call or a class. A frame that was not made for a piece of program, as the
    global one, has no birth. -/
structure Frame where
  kind : FrameKind
  slots : Table Slot
  birth : Option Birth

/-- A function together with the frames it was made in. An initializer returns its instance. -/
structure Closure where
  name : Option String
  code : Lambda
  chain : Chain
  initializer : Bool

/-- How many arguments a function takes. -/
def Closure.arity (c : Closure) : Nat :=
  c.code.params.length

/-- A class with its own methods; its ancestors are the superclass first, then upwards. -/
structure ClassRecord where
  name : String
  ancestors : List Nat
  methods : Table Closure

/-- An instance: its class, and the fields it has been given so far. -/
structure InstanceRecord where
  classId : Nat
  fields : Table Value
deriving DecidableEq, Repr

/-- Everything that has an identity. Each kind is numbered in the order of creation and nothing is
    ever removed, so a number stands for the same thing for good. -/
structure Store where
  frames : Array Frame
  functions : Array Closure
  classes : Array ClassRecord
  instances : Array InstanceRecord

/-- The number of the frame of the global names. -/
def globalFrame : Nat := 0

/-- The chain at the top level of a program. -/
def Chain.global : Chain := [globalFrame]

namespace Store

/-- A store without any frame. -/
def empty : Store :=
  ⟨#[], #[], #[], #[]⟩

/-- A frame without names, numbered by how many there were. -/
def newFrame (s : Store) (kind : FrameKind) (birth : Option Birth := none) : Nat × Store :=
  (s.frames.size, { s with frames := s.frames.push ⟨kind, .empty, birth⟩ })

/-- Keeps a function under the next number. -/
def newFunction (s : Store) (c : Closure) : Nat × Store :=
  (s.functions.size, { s with functions := s.functions.push c })

/-- Keeps a class under the next number. -/
def newClass (s : Store) (c : ClassRecord) : Nat × Store :=
  (s.classes.size, { s with classes := s.classes.push c })

/-- An instance without fields of a class. -/
def newInstance (s : Store) (classId : Nat) : Nat × Store :=
  (s.instances.size, { s with instances := s.instances.push ⟨classId, .empty⟩ })

end Store

end Lox
