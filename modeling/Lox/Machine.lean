import Std.Data.TreeMap
import Lox.Store.Object

namespace Lox

/-- The refusal of a piece of text, of which so many characters have been taken nevertheless. -/
structure Refusal where
  taken : Nat
  message : String
deriving DecidableEq, Repr

/-- Where printed text goes: the characters taken, the last one first. On them and on the next piece
    of text it depends whether the sink refuses the piece. -/
structure Sink where
  pieces : List Char
  refusal? : List Char → String → Option Refusal

namespace Sink

/-- A sink that takes everything. -/
def unlimited : Sink :=
  ⟨[], fun _ _ => none⟩

/-- A sink that is closed once it has taken so many newlines. -/
def ofLines (lines : Nat) : Sink :=
  ⟨[], fun taken _ => if lines ≤ taken.count '\n' then some ⟨0, "sink closed"⟩ else none⟩

/-- The sink once it has taken a text, whose last character comes first. -/
def take (s : Sink) (text : List Char) : Sink :=
  { s with pieces := text.reverse ++ s.pieces }

/-- Whether the sink refuses a piece; it is not even asked about an empty one. -/
def refuses? (s : Sink) (piece : String) : Option Refusal :=
  if piece.isEmpty then none else s.refusal? s.pieces piece

/-- Hands pieces over in order, up to the first one that is refused, and tells why it is. -/
def put (s : Sink) : List String → Sink × Option String
  | [] => (s, none)
  | piece :: rest =>
    match s.refuses? piece with
    | none => (s.take piece.toList).put rest
    | some refusal => (s.take (piece.toList.take refusal.taken), some refusal.message)

/-- What has been written since the sink held `earlier` characters. -/
def textSince (s : Sink) (earlier : Nat) : String :=
  String.ofList (s.pieces.take (s.pieces.length - earlier)).reverse

end Sink

/-- A clock: the times at which it is read, in microseconds, and how many readings there have been. -/
structure Clock where
  times : Nat → Int
  readings : Nat

namespace Clock

/-- The time of the next reading. -/
def now (c : Clock) : Int :=
  c.times c.readings

/-- The clock once it has been read. -/
def later (c : Clock) : Clock :=
  { c with readings := c.readings + 1 }

/-- A clock that stands at so many microseconds and goes on by one with every reading. -/
def ticking (start : Nat) : Clock :=
  ⟨fun n => start + n, 0⟩

/-- A number stands for the clock that ticks from there. -/
instance : Coe Nat Clock :=
  ⟨ticking⟩

end Clock

/-- What the functions that a host has brought along come to, by name: a value, or what is wrong. -/
abbrev Answers := String → List Value → Option (Except String Literal)

/-- The store, the chain of frames in view, the depths that static binding has decided, the calls
    that are active and how many may be, and what is outside: the sink, the clock and the functions of
    a host. -/
structure Machine where
  store : Store
  chain : Chain
  depths : Std.TreeMap Nat Nat
  calls : Nat
  maxCalls : Nat
  sink : Sink
  clock : Clock
  answers : Answers

/-- How deep calls nest unless something else is asked for. -/
def defaultMaxCalls : Nat := 200

/-- Why a run stops early: an error of the program, or no fuel to go on with. -/
inductive Halt where
  | error (e : RuntimeError)
  | outOfFuel
deriving DecidableEq, Repr

/-- A step of a run: it ends with a result or a halt, and in both cases with the machine it has
    reached. -/
abbrev Run := EStateM Halt Machine

namespace Machine

/-- A machine with nothing but the global frame, which has the clock in it, and without a host. -/
def start (maxCalls : Nat) (sink : Sink) (clock : Clock) : Machine :=
  { store := (Store.empty.newFrame .global).2.define .global Native.clock.name (.native .clock)
    chain := .global
    depths := .empty
    calls := 0
    maxCalls
    sink
    clock
    answers := fun _ _ => none }

/-- Takes over what static binding has decided; an occurrence that is global needs no entry. -/
def note (m : Machine) (resolutions : List Resolution) : Machine :=
  let add := fun (depths : Std.TreeMap Nat Nat) (r : Resolution) =>
    match r.depth with
    | none => depths
    | some depth => depths.insert r.id depth
  { m with depths := resolutions.foldl add m.depths }

/-- The value of a name at the depth that static binding has decided, or else among the globals. -/
def lookUp (m : Machine) (ref : Ref) : Except Fault Value :=
  let name := ref.mark.lexeme
  match m.depths[ref.id]? with
  | none => m.store.get .global name
  | some depth =>
    match m.store.getAt? m.chain depth name with
    | none => .error (.undefinedVariable name)
    | some value => .ok value

/-- The frame that an assignment to a name goes to, if there is one: the frame at its depth, or else
    the global frame. -/
def owner? (m : Machine) (ref : Ref) : Option Nat :=
  match m.depths[ref.id]? with
  | none => m.store.owner? .global ref.mark.lexeme
  | some depth => m.store.ownerAt? m.chain depth ref.mark.lexeme

/-- What a function of the host comes to, if the host has brought one along under the name. -/
def answer (m : Machine) (name : String) (arguments : List Value) : Except Fault Value :=
  match m.answers name arguments with
  | some (.ok value) => .ok (.ofLiteral value)
  | some (.error message) => .error (.native message)
  | none => .error .notCallable

end Machine

namespace Run

/-- Ends the run with a fault on the line. -/
def fault {α : Type} (f : Fault) (line : Nat) : Run α :=
  throw (.error ⟨f, line⟩)

/-- Ends the run for want of fuel, which says nothing about the program. -/
def outOfFuel {α : Type} : Run α :=
  throw .outOfFuel

/-- A fault that is not yet located belongs to the line. -/
def orFault {α : Type} (line : Nat) : Except Fault α → Run α
  | .ok a => pure a
  | .error f => fault f line

/-- Runs in another chain of frames and comes back to the chain before, also after a halt. -/
def inChain {α : Type} (chain : Chain) (run : Run α) : Run α := fun m =>
  match run { m with chain } with
  | .ok a after => .ok a { after with chain := m.chain }
  | .error e after => .error e { after with chain := m.chain }

/-- Runs as one more active call, which is over when the run ends, also by a halt. -/
def counted {α : Type} (run : Run α) : Run α := fun m =>
  match run { m with calls := m.calls + 1 } with
  | .ok a after => .ok a { after with calls := after.calls - 1 }
  | .error e after => .error e { after with calls := after.calls - 1 }

/-- The chain of frames in view. -/
def chain : Run Chain := fun m =>
  .ok m.chain m

/-- Looks something up in the store. -/
def query {α : Type} (find : Store → α) : Run α := fun m =>
  .ok (find m.store) m

/-- Changes the store and nothing else of the machine. -/
def modifyStore (change : Store → Store) : Run Unit :=
  modify fun m => { m with store := change m.store }

/-- Adds something to the store. -/
def allocate {α : Type} (add : Store → α × Store) : Run α := fun m =>
  let (a, store) := add m.store
  .ok a { m with store }

/-- Gives a name of the innermost frame a value, whether or not the frame had it before. -/
def define (name : String) (value : Value) : Run Unit :=
  modify fun m => { m with store := m.store.define m.chain name value }

/-- Makes a name known in the innermost frame, without a value for now. -/
def declare (name : String) : Run Unit :=
  modify fun m => { m with store := m.store.declare m.chain name }

/-- The value of an occurrence. A fault in it is one of the line of the occurrence. -/
def read (ref : Ref) : Run Value := fun m =>
  orFault ref.mark.line (m.lookUp ref) m

/-- Gives a name its value in the frame that was found to have it. -/
def assignIn (owner : Option Nat) (name : Mark) (value : Value) : Run Unit := fun m =>
  match owner with
  | none => fault (.undefinedVariable name.lexeme) name.line m
  | some frame => .ok () { m with store := m.store.setSlot frame name.lexeme (.set value) }

/-- Gives the variable that an occurrence stands for a value. -/
def assign (ref : Ref) (value : Value) : Run Unit := fun m =>
  assignIn (m.owner? ref) ref.mark value m

/-- Writes the pieces out in order. What the sink took before it refused one stays written. -/
def write (pieces : List String) (line : Nat) : Run Unit := fun m =>
  match m.sink.put pieces with
  | (sink, none) => .ok () { m with sink }
  | (sink, some message) => fault (@Fault.outputClosed message) line { m with sink }

/-- Prints a value on a line of its own. -/
def print (value : Value) (line : Nat) : Run Unit := do
  write ((← query (·.pieces value)) ++ ["\n"]) line

/-- The time in seconds. -/
def readClock : Run Value := fun m =>
  .ok (.number (Float.ofInt m.clock.now / 1000000.0)) { m with clock := m.clock.later }

end Run

end Lox
