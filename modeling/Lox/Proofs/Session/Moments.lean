import Lox.Proofs.Session.Sound

namespace Lox.Session

variable {programs : List (List Stmt)} {s : Session} {source : String} {mode : Mode} {fuel : Nat}

/-- The condition holds at every moment of the run of a source: a watch for it never gives an alarm,
    whatever the alarm is. -/
def Always (s : Session) (mode : Mode) (fuel : Nat) (source : String)
    (condition : Moment → Machine → Prop) : Prop :=
  ∀ alarm, s.submit (mode.watched ⟨condition, alarm⟩ fuel) source = s.submit (mode.run fuel) source

theorem execute_congr {s : Session} {run run' : Run Unit} (h : run s.machine = run' s.machine) :
    s.execute run = s.execute run' := by
  unfold execute
  rw [h]

/-- What becomes of a source depends on the way to run programs only through the program that is run
    for it. -/
theorem submit_congr {run run' : List Stmt → Run Unit}
    (h : ∀ program, s.accepted? source = some program →
      run program (s.machine.note (resolve program).resolutions) =
        run' program (s.machine.note (resolve program).resolutions)) :
    s.submit run source = s.submit run' source := by
  unfold submit
  dsimp only
  split
  · rename_i program hread hcomplete
    unfold bindAndExecute
    dsimp only
    split
    · rename_i hempty
      have haccept := accepted?_eq_some_iff.mpr ⟨hread, hcomplete, hempty⟩
      rw [execute_congr (h program haccept)]
    · rfl
  · rfl

/-- The programs that have been run once a source is under way. -/
def underWay (s : Session) (programs : List (List Stmt)) (source : String) : List (List Stmt) :=
  (s.accepted? source).toList ++ programs

/-- What holds wherever binding has been holds at every moment. -/
theorem Reached.always (hs : Reached programs s) {condition : Moment → Machine → Prop}
    (h : ∀ depths, Covers (Visited (s.underWay programs source)) depths → ∀ moment m,
      moment.Expected (Visited (s.underWay programs source)) depths m → condition moment m) :
    s.Always mode fuel source condition := by
  intro alarm
  apply submit_congr
  intro program haccept
  have hprograms : s.underWay programs source = program :: programs := by
    simp [underWay, haccept]
  rw [hprograms] at h
  have hsound := hs.sound.accepted haccept
  exact (hsound.run_agrees hs.atRest.1 List.mem_cons_self ⟨condition, alarm⟩
    (h _ hsound.covers) mode fuel).same

/-- The status tells whether an accepted program has stopped for want of fuel. -/
theorem status_of_error {run : List Stmt → Run Unit} {program : List Stmt} {halt : Halt}
    {m' : Machine} (haccept : s.accepted? source = some program)
    (hrun : run program (s.machine.note (resolve program).resolutions) = .error halt m') :
    (s.submit run source).1.status = .outOfFuel ↔ halt = .outOfFuel := by
  obtain ⟨hread, hcomplete, hempty⟩ := accepted?_eq_some_iff.mp haccept
  rw [submit_of_read run hread hcomplete]
  simp only [bindAndExecute, execute, if_pos hempty, hrun]
  cases halt <;> simp

/-- A watch does not miss a moment: what always holds does so when a program begins. -/
theorem Always.begins {condition : Moment → Machine → Prop} {first : Stmt} {rest : List Stmt}
    (h : s.Always .program (fuel + 1) source condition)
    (haccept : s.accepted? source = some (first :: rest)) :
    condition (.executing first) (s.machine.note (resolve (first :: rest)).resolutions) := by
  apply Classical.byContradiction
  intro hnot
  have hstops (alarm : Halt) : Mode.program.watched ⟨condition, alarm⟩ (fuel + 1) (first :: rest)
      (s.machine.note (resolve (first :: rest)).resolutions) =
        .error alarm (s.machine.note (resolve (first :: rest)).resolutions) := by
    have hguard : Watch.exec ⟨condition, alarm⟩ (fuel + 1) first
        (s.machine.note (resolve (first :: rest)).resolutions) =
          .error alarm (s.machine.note (resolve (first :: rest)).resolutions) :=
      Watch.guard_of_not_condition _ hnot
    have hsequence := Run.bind_apply (Watch.exec ⟨condition, alarm⟩ (fuel + 1) first)
      (fun _ => runEach (Watch.exec ⟨condition, alarm⟩ (fuel + 1)) rest)
      (s.machine.note (resolve (first :: rest)).resolutions)
    rw [hguard] at hsequence
    exact hsequence
  -- The status would tell two alarms apart, and yet both times it is that of the run as it is.
  have hfuel := (status_of_error haccept (hstops .outOfFuel)).mpr rfl
  have herror := status_of_error haccept (hstops (.error ⟨.missingOperand, 0⟩))
  rw [h] at hfuel herror
  cases herror.mp hfuel

/-- A fault that is reported is the one that the run has ended with. -/
theorem runtime_error_of_execute {run : Run Unit} {e : RuntimeError}
    (he : .error (.runtime e) ∈ (s.execute run).1.reports) :
    ∃ m', run s.machine = .error (.error e) m' := by
  unfold execute at he
  dsimp only at he
  split at he
  · cases he
  · cases he
  · rename_i e' m' hrun
    cases List.mem_singleton.mp he
    exact ⟨m', hrun⟩

/-- A report of a run is an error of the run of an accepted program: those before the run are of other
    kinds. -/
theorem runtime_error_of_submit {run : List Stmt → Run Unit} {e : RuntimeError}
    (he : .error (.runtime e) ∈ (s.submit run source).1.reports) :
    ∃ program m', s.accepted? source = some program ∧
      run program (s.machine.note (resolve program).resolutions) = .error (.error e) m' := by
  have hfinding (findings : List Finding) :
      .error (.runtime e) ∉ findings.map Report.ofFinding := by
    intro h
    obtain ⟨finding, _, hreport⟩ := List.mem_map.mp h
    cases finding <;> cases hreport
  unfold submit at he
  dsimp only at he
  split at he
  · rename_i program hread hcomplete
    unfold bindAndExecute at he
    dsimp only at he
    split at he
    · rename_i hempty
      rcases List.mem_append.mp he with hbound | hran
      · exact absurd hbound (hfinding _)
      · obtain ⟨m', hrun⟩ := runtime_error_of_execute hran
        exact ⟨program, m', accepted?_eq_some_iff.mpr ⟨hread, hcomplete, hempty⟩, hrun⟩
    · exact absurd he (hfinding _)
  -- A source that is not accepted has only errors of its scanning, its parse or its scopes.
  · obtain ⟨d, hd, hreport⟩ := List.mem_map.mp he
    cases hreport
    rcases List.mem_append.mp hd with hlexical | hgrammatical
    · obtain ⟨_, _, h⟩ := List.mem_map.mp hlexical
      cases h
    · obtain ⟨_, _, h⟩ := List.mem_map.mp hgrammatical
      cases h

/-- No run of a session ends with an internal fault. -/
theorem Reached.errors_clean (hs : Reached programs s) {e : RuntimeError}
    (he : .error (.runtime e) ∈ (s.submit (mode.run fuel) source).1.reports) : ¬e.fault.Internal := by
  obtain ⟨program, m', haccept, hrun⟩ := runtime_error_of_submit he
  have hagrees := (hs.sound.accepted haccept).run_agrees hs.atRest.1 List.mem_cons_self .idle
    (fun _ _ _ => trivial) mode fuel
  exact (hagrees.error hrun).2 e rfl

end Lox.Session
