import Lox.Proofs.Evaluation.Simulation

namespace Lox

/-- The error on its other line. -/
def RuntimeError.relabel (f : Relabeling) (e : RuntimeError) : RuntimeError :=
  ⟨e.fault, f.line e.line⟩

/-- The halt on its other line. -/
def Halt.relabel (f : Relabeling) : Halt → Halt
  | error e => error (e.relabel f)
  | outOfFuel => outOfFuel

/-- The same machine with other labels in its code. -/
def Machine.relabel (f : Relabeling) (m : Machine) : Machine :=
  { m with store := m.store.relabel f }

namespace Run

variable {α : Type}

/-- The same result with another machine and another halt. -/
def mapResult (machine : Machine → Machine) (halt : Halt → Halt) :
    EStateM.Result Halt Machine α → EStateM.Result Halt Machine α
  | .ok a m => .ok a (machine m)
  | .error e m => .error (halt e) (machine m)

variable {machine machine' : Machine → Machine} {halt halt' : Halt → Halt}
  {r : EStateM.Result Halt Machine α}

theorem reached_mapResult : reached (mapResult machine halt r) = machine (reached r) := by
  cases r <;> rfl

/-- Results are changed alike where machines and halts are. -/
theorem mapResult_congr (hmachine : machine (reached r) = machine' (reached r))
    (hhalt : ∀ e, halt e = halt' e) : mapResult machine halt r = mapResult machine' halt' r := by
  cases r with
  | ok a m => exact congrArg (EStateM.Result.ok a) hmachine
  | error e m =>
    rw [mapResult, mapResult, hhalt]
    exact congrArg (EStateM.Result.error (halt' e)) hmachine

end Run

namespace Simulation

open Run

/-- The second run has the code of the first with other labels, and goes by other depths. -/
def relabeled (f : Relabeling) (depths depths' : Std.TreeMap Nat Nat) : Simulation where
  label := f
  machine m m' := m' = { m.relabel f with depths := depths' } ∧ m.depths = depths
  halt e e' := e' = e.relabel f
  cut _ := False

variable {f : Relabeling} {depths depths' : Std.TreeMap Nat Nat}

/-- Labels change nothing that evaluation looks at, if the depths go with them. -/
theorem lawful_relabeled (hdepths : ∀ id : Nat, depths'[f.id id]? = depths[id]?) :
    (relabeled f depths depths').Lawful := by
  refine .of_view .rfl (fun _ _ _ _ _ => rfl) (fun h _ _ _ _ => h) ?_ fun _ _ => rfl
  rintro m rfl id
  exact hdepths id

theorem countsAlike_relabeled : (relabeled f depths depths').CountsAlike where
  calls := by
    rintro m _ ⟨rfl, _⟩
    rfl
  count := by
    rintro m _ ⟨rfl, hknown⟩ _
    exact ⟨rfl, hknown⟩

theorem checks_relabeled (hdepths : ∀ id : Nat, depths'[f.id id]? = depths[id]?) :
    (relabeled f depths depths').Checks := by
  refine countsAlike_relabeled.checks (lawful_relabeled hdepths) ?_ fun _ => rfl
  rintro m _ ⟨rfl, _⟩
  rfl

/-- What matches up to labels is the same with the other labels. -/
theorem Matches.of_relabeled {α : Type} {r r' : EStateM.Result Halt Machine α}
    (h : (relabeled f depths depths').Matches (fun a => a) r r') :
    r' = mapResult (fun m => { m.relabel f with depths := depths' }) (Halt.relabel f) r := by
  cases h with
  | ok hm => rw [hm.1, mapResult]
  | error he hm => rw [hm.1, show _ = _ from he, mapResult]
  | cut he _ => exact he.elim

end Simulation

variable {m : Machine}

/-- A run of code with other labels comes to the same, as long as the same depths are known for these. -/
theorem Mode.run_relabel {f : Relabeling} {depths : Std.TreeMap Nat Nat}
    (hdepths : ∀ id : Nat, depths[f.id id]? = m.depths[id]?) (mode : Mode) (fuel : Nat)
    (program : List Stmt) :
    mode.run fuel (Stmt.relabelAll f program) { m.relabel f with depths } =
      Run.mapResult (fun m => { m.relabel f with depths }) (Halt.relabel f)
        (mode.run fuel program m) := by
  have hfollows : (Simulation.relabeled f m.depths depths).Same (mode.run fuel program)
      (mode.run fuel (Stmt.relabelAll f program)) :=
    mode.run_follows (Simulation.lawful_relabeled hdepths) (Simulation.checks_relabeled hdepths)
      (.inl ⟨rfl, rfl⟩) program
  exact (hfollows.step ⟨rfl, rfl⟩).of_relabeled

/-- A run of code on other lines comes to the same. -/
theorem Mode.run_ofLine (line : Nat → Nat) (mode : Mode) (fuel : Nat) (program : List Stmt) :
    mode.run fuel (Stmt.relabelAll (.ofLine line) program) (m.relabel (.ofLine line)) =
      Run.mapResult (Machine.relabel (.ofLine line)) (Halt.relabel (.ofLine line))
        (mode.run fuel program m) := by
  have hknown : (Run.reached (mode.run fuel program m)).depths = m.depths :=
    (mode.run_keeps fuel program m).depths
  refine (mode.run_relabel (f := .ofLine line) (fun _ => rfl) fuel program).trans ?_
  refine Run.mapResult_congr ?_ fun _ => rfl
  rw [← hknown]
  rfl

end Lox
