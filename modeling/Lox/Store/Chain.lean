import Lox.Diagnostic
import Lox.Store.Basic

namespace Lox.Store

/-- The slot of the name in one frame. -/
def slot? (s : Store) (frame : Nat) (name : String) : Option Slot :=
  s.frames[frame]?.bind fun f => f.slots.find? name

/-- Gives the slot of a name in one frame, which has the name from then on. -/
def setSlot (s : Store) (frame : Nat) (name : String) (slot : Slot) : Store :=
  { s with frames := s.frames.modify frame fun f => { f with slots := f.slots.insert name slot } }

/-- The first frame of the chain that has the name. -/
def owner? (s : Store) (chain : Chain) (name : String) : Option Nat :=
  chain.find? fun frame => (s.slot? frame name).isSome

/-- Gives a name in the innermost frame a value, also a name that the frame had before. -/
def define (s : Store) (chain : Chain) (name : String) (value : Value) : Store :=
  match chain with
  | [] => s
  | frame :: _ => s.setSlot frame name (.set value)

/-- Brings in a name without a value; it cannot be read by search until it gets one. -/
def declare (s : Store) (chain : Chain) (name : String) : Store :=
  match chain with
  | [] => s
  | frame :: _ => s.setSlot frame name .unset

/-- The value of a name by search: the first frame of the chain that has the name decides, even if
    the name has no value there. -/
def get (s : Store) (chain : Chain) (name : String) : Except Fault Value :=
  match (s.owner? chain name).bind fun frame => s.slot? frame name with
  | none => .error (.undefinedVariable name)
  | some .unset => .error (.uninitializedVariable name)
  | some (.set value) => .ok value

/-- Gives a name that is found by search a value. A name that no frame has is not brought in. -/
def assign (s : Store) (chain : Chain) (name : String) (value : Value) : Except Fault Store :=
  match s.owner? chain name with
  | none => .error (.undefinedVariable name)
  | some frame => .ok (s.setSlot frame name (.set value))

/-- The frame so many steps outwards, if it has the name. -/
def ownerAt? (s : Store) (chain : Chain) (depth : Nat) (name : String) : Option Nat :=
  chain[depth]?.filter fun frame => (s.slot? frame name).isSome

/-- The value of a name in the frame so many steps outwards, where a value not given yet counts as
    nil. -/
def getAt? (s : Store) (chain : Chain) (depth : Nat) (name : String) : Option Value :=
  ((s.ownerAt? chain depth name).bind fun frame => s.slot? frame name).map Slot.value

/-- Gives a name in the frame so many steps outwards a value, if that frame has the name. -/
def assignAt? (s : Store) (chain : Chain) (depth : Nat) (name : String) (value : Value) :
    Option Store :=
  (s.ownerAt? chain depth name).map fun frame => s.setSlot frame name (.set value)

end Lox.Store
