import Lox.Proofs.Run.Simulation
import Lox.Proofs.Session.History

namespace Lox

/-- How a run goes out. -/
def Halt.status : Halt → Status
  | error _ => .runtimeError
  | outOfFuel => .outOfFuel

/-- What is said about a run that stops early. -/
def Halt.reports : Halt → List Report
  | error e => [.error (.runtime e)]
  | outOfFuel => []

/-- The errors among what binding has found. -/
theorem Report.errors_ofFinding (findings : List Finding) :
    (findings.map Report.ofFinding).filterMap Report.error? =
      (findings.filterMap Finding.error?).map .scoping := by
  have hfinding : Report.error? ∘ Report.ofFinding =
      fun finding => finding.error?.map Diagnostic.scoping := by
    funext finding
    cases finding <;> rfl
  rw [List.filterMap_map, hfinding, ← List.map_filterMap]

namespace Session

/-- How a source fares for which so much has been said and printed before its run, by what the run comes
    to. -/
def conclude (reports : List Report) (printed nextId : Nat) :
    EStateM.Result Halt Machine Unit → Outcome × Session
  | .ok _ m => (⟨.ok, reports, m.sink.textSince printed⟩, ⟨m, nextId⟩)
  | .error e m => (⟨e.status, reports ++ e.reports, m.sink.textSince printed⟩, ⟨m, nextId⟩)

variable {s : Session} {source : String} {program : List Stmt}

theorem execute_eq_conclude (s : Session) (run : Run Unit) :
    s.execute run = conclude [] s.machine.sink.pieces.length s.nextId (run s.machine) := by
  unfold execute
  dsimp only
  cases run s.machine with
  | ok _ m => rfl
  | error e m => cases e <;> rfl

/-- A program that binding accepts is concluded from its run, with what binding had to say before
    it. -/
theorem bindAndExecute_of_bound (run : List Stmt → Run Unit) (h : (resolve program).errors = []) :
    s.bindAndExecute run program =
      conclude ((resolve program).findings.map Report.ofFinding) s.machine.sink.pieces.length s.nextId
        (run program (s.machine.note (resolve program).resolutions)) := by
  unfold bindAndExecute
  dsimp only
  rw [if_pos (List.isEmpty_iff.mpr h), execute_eq_conclude]
  dsimp only [Machine.note]
  generalize run program _ = r
  cases r with
  | ok _ m => simp [conclude]
  | error e m => simp [conclude]

theorem errors_of_accepted (h : s.accepted? source = some program) : (resolve program).errors = [] :=
  List.isEmpty_iff.mp (accepted?_eq_some_iff.mp h).2.2

/-- An accepted source is concluded from the run of its program. -/
theorem submit_of_accepted (run : List Stmt → Run Unit) (h : s.accepted? source = some program) :
    s.submit run source =
      conclude ((resolve program).findings.map Report.ofFinding) s.machine.sink.pieces.length
        (Grammar.readSource source s.nextId).parsed.nextId
        (run program (s.machine.note (resolve program).resolutions)) := by
  obtain ⟨hread, hcomplete, -⟩ := accepted?_eq_some_iff.mp h
  rw [submit_of_read run hread hcomplete, bindAndExecute_of_bound run (errors_of_accepted h)]

/-- Whatever is not a static error has been accepted. -/
theorem exists_accepted {run : List Stmt → Run Unit} (h : (s.submit run source).1.status ≠ .staticError) :
    ∃ program, s.accepted? source = some program := by
  unfold submit at h
  dsimp only at h
  split at h
  · rename_i program hread hcomplete
    by_cases hempty : (resolve program).errors.isEmpty
    · exact ⟨program, accepted?_eq_some_iff.mpr ⟨hread, hcomplete, hempty⟩⟩
    · unfold bindAndExecute at h
      dsimp only at h
      rw [if_neg hempty] at h
      exact absurd rfl h
  · exact absurd rfl h

variable {reports : List Report} {printed nextId : Nat} {r : EStateM.Result Halt Machine Unit}

theorem after_conclude : (conclude reports printed nextId r).2 = ⟨Run.reached r, nextId⟩ := by
  cases r <;> rfl

theorem machine_conclude : (conclude reports printed nextId r).2.machine = Run.reached r :=
  congrArg Session.machine after_conclude

/-- A source fares well just if its run came to its end. -/
theorem eq_ok_of_status (h : (conclude reports printed nextId r).1.status = .ok) :
    r = .ok () (Run.reached r) := by
  cases r with
  | ok _ m => rfl
  | error e m => cases e <;> cases h

/-- An accepted source that is fine has run to its end. -/
theorem submit_of_ok {run : List Stmt → Run Unit} (h : s.accepted? source = some program)
    (hok : (s.submit run source).1.status = .ok) :
    run program (s.machine.note (resolve program).resolutions) =
        .ok () (s.submit run source).2.machine ∧
      s.submit run source =
        (⟨.ok, (resolve program).findings.map Report.ofFinding,
            (s.submit run source).2.machine.sink.textSince s.machine.sink.pieces.length⟩,
          ⟨(s.submit run source).2.machine, (Grammar.readSource source s.nextId).parsed.nextId⟩) := by
  have hsubmit := submit_of_accepted run h
  rw [hsubmit] at hok
  have hrun := eq_ok_of_status hok
  rw [hsubmit, machine_conclude]
  refine ⟨hrun, ?_⟩
  rw [hrun]
  rfl

end Session

end Lox
