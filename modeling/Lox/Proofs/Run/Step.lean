import Lox.Evaluation.Basic
import Lox.Proofs.Store.Growth

namespace Lox

open Run

/-- A step of a run that prints nothing: it looks something up, adds to the store, gives a name its
    value or reads the clock, and what it fails with is not the state of the output. -/
inductive Run.Step : {α : Type} → Run α → Prop where
  | pure {α : Type} (a : α) : Step (pure a)
  | outOfFuel {α : Type} : Step (outOfFuel : Run α)
  | find {α : Type} (find : Machine → Except Fault α) (line : Nat)
      (hfind : ∀ m message, find m ≠ .error (@Fault.outputClosed message)) :
      Step fun m => orFault line (find m) m
  | look {α : Type} (look : Machine → α) : Step fun m => .ok (look m) m
  | store {α : Type} (change : Machine → α × Store) (hchange : ∀ m : Machine, m.store.Grows (change m).2) :
      Step fun m => .ok (change m).1 { m with store := (change m).2 }
  | assignIn (owner : Machine → Option Nat) (name : Mark) (value : Value) :
      Step fun m => assignIn (owner m) name value m
  | readClock : Step readClock

theorem Run.Step.fault {α : Type} {f : Fault} (line : Nat)
    (hf : ∀ message, f ≠ @Fault.outputClosed message) : Step (fault f line : Run α) :=
  find (fun _ => .error f) line fun _ message h => hf message (Except.error.inj h)

/-- Runs in view of a new frame inside of a chain. -/
def Run.inFresh {α : Type} (kind : FrameKind) (birth : Option Birth) (chain : Chain) (x : Run α) :
    Run α := do
  let frame ← allocate (·.newFrame kind birth)
  inChain (frame :: chain) x

/-- A relation between runs that holds of every step and itself, and is kept where runs are put
    together. -/
structure Congruence (R : {α : Type} → Run α → Run α → Prop) : Prop where
  step : ∀ {α : Type} {x : Run α}, x.Step → R x x
  bind : ∀ {α β : Type} {x x' : Run α} {f f' : α → Run β},
    R x x' → (∀ a, R (f a) (f' a)) → R (x >>= f) (x' >>= f')
  inFresh : ∀ {α : Type} {x x' : Run α} (kind : FrameKind) (birth : Option Birth) (chain : Chain),
    R x x' → R (Run.inFresh kind birth chain x) (Run.inFresh kind birth chain x')
  counted : ∀ {α : Type} {x x' : Run α}, R x x' → R (Run.counted x) (Run.counted x')

namespace Congruence

variable {R : {α : Type} → Run α → Run α → Prop} (hR : Congruence R)
  {eval eval' : Expr → Run Value} {exec exec' : Stmt → Run Completion}
  {enter enter' : Closure → List Value → Nat → Run Value}
include hR

theorem pure {α : Type} (a : α) : R (pure a : Run α) (Pure.pure a) :=
  hR.step (.pure a)

theorem query {α : Type} (find : Store → α) : R (query find) (query find) :=
  hR.step (.look fun m => find m.store)

theorem chain : R Run.chain Run.chain :=
  hR.step (.look Machine.chain)

theorem allocate {α : Type} {add : Store → α × Store} (hadd : ∀ s : Store, s.Adds (add s).2) :
    R (allocate add) (allocate add) :=
  hR.step (.store (fun m => add m.store) fun m => (hadd m.store).toGrows)

theorem define (name : String) (value : Value) : R (define name value) (define name value) :=
  hR.step (.store (fun m => ((), m.store.define m.chain name value)) fun m =>
    Store.grows_define m.store m.chain name value)

theorem fault {α : Type} {f : Fault} (line : Nat) (hf : ∀ message, f ≠ @Fault.outputClosed message) :
    R (Run.fault f line : Run α) (Run.fault f line) :=
  hR.step (.fault line hf)

/-- What is found or else is a fault is a step, unless the fault is one of the sink. -/
theorem orFault {α : Type} {result : Except Fault α} (line : Nat)
    (hresult : ∀ message, result ≠ .error (@Fault.outputClosed message)) :
    R (orFault line result) (orFault line result) :=
  hR.step (.find (fun _ => result) line fun _ => hresult)

end Congruence

end Lox
