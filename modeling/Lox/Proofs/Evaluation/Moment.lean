import Lox.Evaluation.Basic

namespace Lox

/-- Something begins: an expression is evaluated, a statement executed or a closure entered. -/
inductive Moment where
  | evaluating (e : Expr)
  | executing (s : Stmt)
  | entering (c : Closure) (arguments : List Value)

/-- A condition on the moments of a run, and what a run stops with where the condition fails. -/
structure Watch where
  condition : Moment → Machine → Prop
  alarm : Halt

namespace Watch

/-- A watch for nothing. -/
def idle : Watch :=
  ⟨fun _ _ => True, .outOfFuel⟩

open Classical in
/-- Runs what begins at a moment, unless the condition fails there. -/
noncomputable def guard {α : Type} (watch : Watch) (moment : Moment) (run : Run α) : Run α := fun m =>
  if watch.condition moment m then run m else .error watch.alarm m

theorem guard_of_condition {α : Type} {watch : Watch} {moment : Moment} {m : Machine} (run : Run α)
    (h : watch.condition moment m) : watch.guard moment run m = run m :=
  if_pos h

/-- A run whose condition fails is stopped by its guard, with the alarm of the watch. -/
theorem guard_of_not_condition {α : Type} {watch : Watch} {moment : Moment} {m : Machine}
    (run : Run α) (h : ¬watch.condition moment m) :
    watch.guard moment run m = .error watch.alarm m :=
  if_neg h

/-- How a watched run enters closures whose statements it executes like this. -/
noncomputable def enter (watch : Watch) (exec : Stmt → Run Completion) (c : Closure)
    (arguments : List Value) (line : Nat) : Run Value :=
  watch.guard (.entering c arguments) (Run.callClosure exec c arguments line)

mutual

/-- Evaluation as it is, but for the watch. -/
noncomputable def eval (watch : Watch) : (fuel : Nat) → Expr → Run Value
  | 0, _ => Run.outOfFuel
  | fuel + 1, e =>
    watch.guard (.evaluating e) (evalNode (watch.eval fuel) (watch.enter (watch.exec fuel)) e)

/-- Executes a statement under a watch. -/
noncomputable def exec (watch : Watch) : (fuel : Nat) → Stmt → Run Completion
  | 0, _ => Run.outOfFuel
  | fuel + 1, s =>
    watch.guard (.executing s) (execNode fuel (watch.eval fuel) (watch.exec fuel) s)

end

end Watch

end Lox
