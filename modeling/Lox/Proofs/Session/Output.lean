import Lox.Proofs.Evaluation.Truncation
import Lox.Proofs.Session.Joining
import Lox.Proofs.Session.Sound

namespace Lox

open Run

/-- A batch halts in one of its statements, whatever comes after that. -/
theorem Mode.run_eq_error {mode : Mode} {fuel : Nat} {program : List Stmt} {e : Halt} {m m' : Machine}
    (h : mode.run fuel program m = .error e m') :
    ∃ before s after m₀, program = before ++ s :: after ∧ mode.run fuel before m = .ok () m₀ ∧
      mode.run fuel [s] m₀ = .error e m' := by
  induction program generalizing m with
  | nil => cases mode <;> cases h
  | cons s rest ih =>
    rw [show s :: rest = [s] ++ rest from rfl, mode.run_append] at h
    rcases bind_eq_error_iff.mp h with h | ⟨_, m₁, hfirst, h⟩
    · refine ⟨[], s, rest, m, rfl, ?_, h⟩
      cases mode <;> rfl
    · obtain ⟨before, s', after, m₀, rfl, hbefore, hs'⟩ := ih h
      refine ⟨s :: before, s', after, m₀, rfl, ?_, hs'⟩
      rw [show s :: before = [s] ++ before from rfl, mode.run_append, bind_apply, hfirst]
      exact hbefore

/-- The run of a program comes to a moment at which the condition holds: a watch for it gives its alarm,
    whatever the alarm is. -/
def Mode.ComesTo (mode : Mode) (fuel : Nat) (program : List Stmt) (m : Machine)
    (condition : Moment → Machine → Prop) : Prop :=
  ∀ alarm, ∃ m', mode.watched ⟨fun moment m => ¬condition moment m, alarm⟩ fuel program m = .error alarm m'

/-- The value of the expression is shown, and refused. -/
def Mode.ShowsRefused (mode : Mode) (fuel : Nat) (e : Expr) (m : Machine) (message : String)
    (line : Nat) (final : Machine) : Prop :=
  mode = .line ∧ e.line = line ∧ ∃ value written, eval fuel e m = .ok value written ∧
    Run.print value line written = .error (.refused message line) final

/-- A statement ends with a value refused: it has come to the `print` of that value, or it is an expression
    whose value is shown. -/
theorem Mode.refused_cases {mode : Mode} {fuel : Nat} {s : Stmt} {message : String} {line : Nat}
    {m m' : Machine}
    (h : mode.run fuel [s] m = .error (.refused message line) m') :
    mode.ComesTo fuel [s] m (fun moment m => moment.Refused message line m' m) ∨
      ∃ e, s = .expression e ∧ mode.ShowsRefused fuel e m message line m' := by
  have hexecuted (h : (do let _ ← exec fuel s) m = .error (.refused message line) m') (alarm : Halt) :
      ∃ m'', (do let _ ← (Watch.forRefused message line m' alarm).exec fuel s) m = .error alarm m'' :=
    (congruence_watched.bind ((eval_exec_watched fuel).2 s) fun _ => congruence_watched.pure ()).warns h rfl
  cases mode with
  | program => exact .inl (hexecuted h)
  | line =>
    cases s with
    | expression e =>
      rcases bind_eq_error_iff.mp h with h | ⟨value, written, hvalue, h⟩
      · refine .inl fun alarm => ?_
        have hwatched : Watched message line m' alarm _ _ := (eval_exec_watched fuel).1 e
        obtain ⟨m'', halarm⟩ := hwatched.warns h rfl
        exact ⟨m'', bind_eq_error_iff.mpr (.inl halarm)⟩
      · rcases bind_eq_error_iff.mp h with h | ⟨_, _, -, h⟩
        · obtain rfl := line_of_print h
          exact .inr ⟨e, rfl, rfl, rfl, value, written, hvalue, h⟩
        · cases h
    | _ => exact .inl (hexecuted h)

/-- A sink that refuses what is printed from some point on truncates a run and changes nothing else. The run
    prints a beginning of what it prints to a sink that never refuses. Unless it ends with what is refused,
    it comes to the same; and if it does end so, at rest as it began, this is in a statement of the batch
    after which none is executed, and the line is that of the `print`, or of the expression shown, whose
    value was refused. -/
theorem refusal_truncates (mode : Mode) (fuel : Nat) (program : List Stmt) {m : Machine}
    (hchain : m.chain = .global) (hcalls : m.calls = 0) (hfree : m.sink.refusal? = fun _ _ => none)
    (refusal? : List Char → String → Option Refusal) :
    let result := mode.run fuel program m
    let result' := mode.run fuel program (m.printingTo refusal?)
    (∃ more, (reached result).sink.textSince m.sink.pieces.length =
      (reached result').sink.textSince m.sink.pieces.length ++ more) ∧
    ((∀ message line, halt? result' ≠ some (.refused message line)) →
      result' = mapResult (Machine.printingTo refusal?) id result) ∧
    ∀ message line m', result' = .error (.refused message line) m' →
      m'.chain = .global ∧ m'.calls = 0 ∧
      ∃ before s after m₀, program = before ++ s :: after ∧
        mode.run fuel before (m.printingTo refusal?) = .ok () m₀ ∧
        (∀ after', mode.run fuel (before ++ s :: after') (m.printingTo refusal?) =
          .error (.refused message line) m') ∧
        (mode.ComesTo fuel [s] m₀ (fun moment m => moment.Refused message line m' m) ∨
          ∃ e, s = .expression e ∧ mode.ShowsRefused fuel e m₀ message line m') := by
  intro result result'
  have hfollows : (Simulation.truncated refusal?).Same (mode.run fuel program)
      (mode.run fuel (Stmt.relabelAll .same program)) :=
    mode.run_follows Simulation.lawful_truncated Simulation.checks_truncated (.inl ⟨rfl, rfl⟩) program
  rw [Stmt.relabelAll_same] at hfollows
  obtain ⟨hpieces, hsame⟩ := (hfollows.step ⟨rfl, hfree⟩).of_truncated
  -- What follows the failing statement is never run, so it may be anything.
  refine ⟨⟨_, Sink.textSince_append ?_ hpieces⟩, hsame, fun message line m' h => ?_⟩
  · exact mode.run_prints fuel program (m.printingTo refusal?)
  · have hlater := (mode.run_keeps fuel program).error h
    refine ⟨hlater.chain.trans hchain, hlater.calls.trans hcalls, ?_⟩
    obtain ⟨before, s, after, m₀, hprogram, hbefore, hs⟩ := Mode.run_eq_error h
    refine ⟨before, s, after, m₀, hprogram, hbefore, fun after' => ?_, Mode.refused_cases hs⟩
    rw [mode.run_append, bind_apply, hbefore, show s :: after' = [s] ++ after' from rfl, mode.run_append]
    exact bind_eq_error_iff.mpr (.inl hs)

/-- Where there is room for four characters, the second `print` is refused inside its value, and the call
    around it is over. -/
theorem refusal_truncates_in_call :
    let body : List Stmt := [.print ⟨"print", 2⟩ (.name ⟨0, ⟨"f", 2⟩⟩)]
    let f : Expr := .call (.name ⟨1, ⟨"f", 4⟩⟩) ⟨")", 4⟩ []
    let program : List Stmt :=
      [.function ⟨⟨"f", 1⟩, ⟨[], body⟩⟩, .print ⟨"print", 3⟩ (.literal (.string "a") 3), .expression f]
    let refusal? (taken : List Char) (piece : String) : Option Refusal :=
      if taken.length + piece.length ≤ 4 then none else some ⟨4 - taken.length, "disk full"⟩
    let m := Machine.start 200 .unlimited (.ticking 0)
    let result := Mode.program.run 9 program m
    let result' := Mode.program.run 9 program (m.printingTo refusal?)
    m.chain = .global ∧ m.calls = 0 ∧ (m.sink.refusal? = fun _ _ => none) ∧
      halt? result' = some (.refused "disk full" 2) ∧
      (reached result').chain = .global ∧ (reached result').calls = 0 ∧
      (reached result').sink.textSince 0 = "a\n<f" ∧
      ∃ more, (reached result).sink.textSince 0 = "a\n<f" ++ more := by
  intro body f program refusal? m result result'
  have hhalt : halt? result' = some (.refused "disk full" 2) := by decide +kernel
  have htext : (reached result').sink.textSince 0 = "a\n<f" := by decide +kernel
  obtain ⟨hbeginning, -, hrefused⟩ :=
    refusal_truncates .program 9 program (m := m) rfl rfl rfl refusal?
  obtain ⟨hchain, hcalls, -⟩ := hrefused _ 2 _ (eq_error_of_halt? hhalt)
  refine ⟨rfl, rfl, rfl, hhalt, hchain, hcalls, htext, ?_⟩
  rw [← htext]
  exact hbeginning

end Lox
