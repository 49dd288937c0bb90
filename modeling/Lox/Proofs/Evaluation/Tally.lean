import Lox.Proofs.Evaluation.Simulation
import Lox.Proofs.Session.History

namespace Lox

namespace Run

variable {α : Type}

/-- The same run with other halts. -/
def mapHalt (f : Halt → Halt) (x : Run α) : Run α := fun m =>
  match x m with
  | .ok a m => .ok a m
  | .error e m => .error (f e) m

end Run

/-- How many calls may be active, what happens on which line where a call is one too many, and what
    would happen where more are active. -/
structure Tally where
  limit : Nat
  overflow : Nat → Halt
  alarm : Halt

namespace Tally

open Run

variable (t : Tally) {α : Type}

/-- What a run halts with whose calls are tallied. -/
def halt : Halt → Halt
  | .error ⟨.stackOverflow, line⟩ => t.overflow line
  | e => e

/-- Runs with so many calls active, unless they are more than may be. -/
def within (active : Nat) (run : Run α) : Run α :=
  if active ≤ t.limit then run else throw t.alarm

/-- Calls a value while so many calls are active. -/
def callChecked (active : Nat) (enter : Closure → List Value → Nat → Run Value) (callee : Value)
    (arguments : List Value) (line : Nat) : Run Value := do
  match ← query (·.arity? callee) with
  | none => fault .notCallable line
  | some arity =>
    if arguments.length ≠ arity then
      fault (.arity arity arguments.length) line
    else if active = t.limit then
      throw (t.overflow line)
    else
      call enter callee arguments line

/-- A call expression with the number of calls around it. -/
def callExpression (active : Nat) (enter : Closure → List Value → Nat → Run Value)
    (eval : Expr → Run Value) (callee : Expr) (paren : Mark) (arguments : List Expr) :
    Run Value := do
  let f ← eval callee
  if f.isCallable then
    let values ← all eval arguments
    t.callChecked active enter f values paren.line
  else
    fault .notCallable paren.line

mutual

/-- Evaluation with so many calls active. -/
def eval : (active fuel : Nat) → Expr → Run Value
  | _, 0, _ => outOfFuel
  | active, fuel + 1, e =>
    t.within active <|
      match e with
      | .call callee paren arguments =>
        t.callExpression active (callClosure (exec (active + 1) fuel)) (eval active fuel) callee paren
          arguments
      | e => evalNode (eval active fuel) (callClosure (exec active fuel)) e

/-- Executes a statement with the number of calls around it. -/
def exec : (active fuel : Nat) → Stmt → Run Completion
  | _, 0, _ => outOfFuel
  | active, fuel + 1, s =>
    t.within active (execNode fuel (eval active fuel) (exec active fuel) s)

end

/-- The run of a program, which begins without an active call. -/
def run (mode : Mode) (fuel : Nat) : List Stmt → Run Unit :=
  match mode with
  | .program => runEach (t.exec 0 fuel)
  | .line => runShowing (t.eval 0 fuel) (t.exec 0 fuel)

/-- A tallied run, whose machine does not count, follows one with so many calls active by the count in
    its machine. -/
def counting (active : Nat) : Simulation where
  label := .same
  machine m m' := m' = { m with calls := 0 } ∧ m.calls = active ∧ m.maxCalls = t.limit
  halt e e' := e' = t.halt e
  cut _ := False

variable {t} {active : Nat}

theorem halt_of_ne {e : Fault} {line : Nat} (he : e ≠ .stackOverflow) :
    t.halt (.error ⟨e, line⟩) = .error ⟨e, line⟩ := by
  cases e <;> first | rfl | exact absurd rfl he

/-- To count in the machine or to be told changes nothing that evaluation looks at. -/
theorem lawful_counting : (t.counting active).Lawful := by
  refine .of_view .rfl ?_ (fun h _ _ _ _ => h) (fun _ _ => rfl) fun _ he => (halt_of_ne he).symm
  intro m store chain sink clock
  rw [show store.relabel (t.counting active).label = store from store.relabel_same]

/-- A run within the limit follows the one that keeps count. -/
theorem within_follows {x x' : Run α} (hactive : active ≤ t.limit)
    (hx : (t.counting active).Same x x') : (t.counting active).Same x (t.within active x') := by
  unfold within
  rwa [if_pos hactive]

/-- A call that is counted in the machine is one more in the tally. -/
theorem counted_follows {x x' : Run α} (hx : (t.counting (active + 1)).Same x x') :
    (t.counting active).Same (counted x) x' := by
  refine ⟨hx.prints.counted, ?_⟩
  rintro m _ ⟨rfl, hcalls, hlimit⟩
  have hback {m₁ m₁' : Machine} (hm₁ : (t.counting (active + 1)).machine m₁ m₁') :
      (t.counting active).machine { m₁ with calls := m₁.calls - 1 } m₁' :=
    ⟨hm₁.1, by rw [hm₁.2.1, Nat.add_sub_cancel], hm₁.2.2⟩
  have hmatch := hx.step (m := { m with calls := m.calls + 1 }) ⟨rfl, by rw [hcalls], hlimit⟩
  unfold counted
  dsimp only at hmatch ⊢
  generalize x { m with calls := m.calls + 1 } = r at hmatch ⊢
  generalize x' { m with calls := 0 } = r' at hmatch ⊢
  cases hmatch with
  | ok hm₁ => exact .ok (hback hm₁)
  | error he hm₁ => exact .error he (hback hm₁)
  | cut he _ => exact he.elim

/-- A checked call is made in the tally just where the machine has count left for it. -/
theorem callChecked_follows {enter enter' : Closure → List Value → Nat → Run Value}
    (hactive : active ≤ t.limit)
    (hprints : ∀ callee arguments line, (Run.callChecked enter callee arguments line).Prints)
    (henter : active < t.limit → ∀ c arguments line,
      (t.counting (active + 1)).Same (enter c arguments line) (enter' (c.relabel .same) arguments line))
    (callee : Value) (arguments : List Value) (line : Nat) :
    (t.counting active).Same (Run.callChecked enter callee arguments line)
      (t.callChecked active enter' callee arguments line) := by
  refine ⟨hprints callee arguments line, ?_⟩
  rintro m _ ⟨rfl, hcalls, hlimit⟩
  have hm : (t.counting active).machine m { m with calls := 0 } := ⟨rfl, hcalls, hlimit⟩
  simp only [Run.callChecked, Tally.callChecked, bind_apply, query]
  cases m.store.arity? callee with
  | none => exact .error rfl hm
  | some arity =>
    dsimp only
    by_cases hlength : arguments.length ≠ arity
    · rw [if_pos hlength, if_pos hlength]
      exact .error rfl hm
    · rw [if_neg hlength, if_neg hlength]
      have hexhausted : exhausted m = .ok (decide (t.limit ≤ active)) m := by
        unfold exhausted
        rw [hcalls, hlimit]
      rw [bind_apply, hexhausted]
      dsimp only
      by_cases hfull : active = t.limit
      · rw [if_pos hfull, if_pos (by simp [hfull])]
        exact .error rfl hm
      · have hroom : active < t.limit := by omega
        rw [if_neg hfull, if_neg (by simpa using hroom)]
        exact (counted_follows (Simulation.call_follows lawful_counting (henter hroom) callee arguments
          line)).step hm

/-- Evaluation that is told the count follows the one that keeps it. The induction is on the fuel.
    -/
theorem eval_exec_follows (fuel : Nat) (hactive : active ≤ t.limit) :
    (∀ e, (t.counting active).Same (Lox.eval fuel e) (t.eval active fuel (e.relabel .same))) ∧
      (∀ s, (t.counting active).Same (Lox.exec fuel s) (t.exec active fuel (s.relabel .same))) := by
  induction fuel generalizing active with
  | zero =>
    exact ⟨fun _ => ⟨prints_of_constant fun _ => rfl, fun hm => .error rfl hm⟩,
      fun _ => ⟨prints_of_constant fun _ => rfl, fun hm => .error rfl hm⟩⟩
  | succ fuel ih =>
    obtain ⟨heval, hexec⟩ := ih hactive
    have hS : (t.counting active).Lawful := lawful_counting
    refine ⟨fun e => within_follows hactive ?_, fun s => within_follows hactive ?_⟩
    · cases e with
      | call callee paren arguments =>
        apply Simulation.Same.bind (heval callee)
        intro f
        split
        · refine Simulation.Same.bind (Simulation.all_follows heval arguments) fun values => ?_
          refine callChecked_follows hactive (Run.prints_callChecked fuel) (fun hroom => ?_) f values _
          exact Simulation.callClosure_follows lawful_counting (ih hroom).2
        · exact hS.fault_follows paren.line nofun
      | _ => exact Simulation.evalNode_follows hS heval _ nofun
    · exact Simulation.execNode_follows hS (.inl ⟨rfl, rfl⟩) heval hexec s

/-- A program, or a line, follows in either mode. -/
theorem run_follows (mode : Mode) (fuel : Nat) (program : List Stmt) :
    (t.counting 0).Same (mode.run fuel program) (t.run mode fuel program) := by
  obtain ⟨heval, hexec⟩ := eval_exec_follows (t := t) fuel (Nat.zero_le _)
  have hS : (t.counting 0).Lawful := lawful_counting
  have hrun : (t.counting 0).Same (mode.run fuel program)
      (t.run mode fuel (Stmt.relabelAll .same program)) := by
    cases mode with
    | program => exact Simulation.runEach_follows hexec program
    | line => exact Simulation.runShowing_follows hexec hS heval program
  rwa [Stmt.relabelAll_same] at hrun

/-- The run of a program comes to the same whether its calls are counted in the machine or tallied. -/
theorem run_eq (mode : Mode) (fuel : Nat) (program : List Stmt) {m : Machine} (hidle : m.calls = 0)
    (hlimit : m.maxCalls = t.limit) :
    t.run mode fuel program m = (mode.run fuel program).mapHalt t.halt m := by
  have hzero {m : Machine} (h : m.calls = 0) : { m with calls := 0 } = m := by rw [← h]
  have hmatch := (run_follows (t := t) mode fuel program).step (m := m) ⟨rfl, hidle, hlimit⟩
  rw [hzero hidle] at hmatch
  unfold mapHalt
  generalize mode.run fuel program m = r at hmatch
  generalize t.run mode fuel program m = r' at hmatch
  cases hmatch with
  | ok hm => rw [hm.1, hzero hm.2.1]
  | error he hm => rw [he, hm.1, hzero hm.2.1]
  | cut he _ => exact he.elim

end Tally

end Lox
