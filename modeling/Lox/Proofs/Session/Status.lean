import Lox.Proofs.Grammar.Joining
import Lox.Proofs.Session.Conclusion

namespace Lox

/-- The error is found while a source is read. -/
def Diagnostic.OfReading : Diagnostic → Prop
  | lexical _ | grammatical _ => True
  | scoping _ | runtime _ => False

/-- The error is found before anything runs. -/
def Diagnostic.Static : Diagnostic → Prop
  | lexical _ | grammatical _ | scoping _ => True
  | runtime _ => False

/-- What is found in reading is found before the program runs. -/
theorem Diagnostic.OfReading.static {d : Diagnostic} (h : d.OfReading) : d.Static := by
  cases d with
  | lexical e | grammatical e => trivial
  | scoping e | runtime e => exact h.elim

namespace Grammar

variable {source : String} {firstId : Nat}

/-- Where no error of the grammar is found, every declaration has been read. -/
theorem failed_entry_reported {tokens : List Token} (h : none ∈ (parse tokens firstId).entries) :
    (parse tokens firstId).errors ≠ [] := by
  intro herrors
  obtain ⟨program, hentries, -⟩ := derives_of_parse herrors
  rw [hentries] at h
  simp at h

theorem complete?_of_errors (h : (readSource source firstId).errors = []) :
    ∃ program, (readSource source firstId).parsed.complete? = some program :=
  ⟨_, complete?_of_read h⟩

/-- What is wrong in reading is wrong with the tokens or against the grammar. -/
theorem ofReading_errors {d : Diagnostic} (h : d ∈ (readSource source firstId).errors) :
    d.OfReading := by
  rcases List.mem_append.mp h with hlexical | hgrammatical
  · obtain ⟨_, _, rfl⟩ := List.mem_map.mp hlexical
    trivial
  · obtain ⟨_, _, rfl⟩ := List.mem_map.mp hgrammatical
    trivial

end Grammar

/-- The errors that come of a halt. -/
def Halt.errors (e : Halt) : List Diagnostic :=
  e.reports.filterMap Report.error?

theorem Report.errors_error (errors : List Diagnostic) :
    (errors.map Report.error).filterMap Report.error? = errors := by
  rw [List.filterMap_map]
  exact List.filterMap_some

namespace Session

variable {s after : Session} {source : String} {program : List Stmt} {run : List Stmt → Run Unit}
  {o : Outcome}

/-- How a source can fare, and what becomes of the session: it is not read, it is not bound, or its
    program runs. -/
inductive Fares (s : Session) (run : List Stmt → Run Unit) (source : String) :
    Outcome → Session → Prop where
  | unread {o : Outcome} {after : Session} (hstatus : o.status = .staticError) (houtput : o.output = "")
      (herrors : o.errors ≠ []) (hkinds : ∀ d ∈ o.errors, d.OfReading)
      (hmachine : after.machine = s.machine) : Fares s run source o after
  | unbound {o : Outcome} {after : Session} (causes : List ScopeError) (hstatus : o.status = .staticError)
      (houtput : o.output = "") (hcauses : causes ≠ []) (herrors : o.errors = causes.map .scoping)
      (hmachine : after.machine = { s.machine with depths := after.machine.depths }) :
      Fares s run source o after
  | ran {o : Outcome} {after : Session} (halt? : Option Halt)
      (hstatus : o.status = halt?.elim .ok Halt.status) (herrors : o.errors = halt?.elim [] Halt.errors) :
      Fares s run source o after

/-- A source that cannot be read is refused with what is wrong with it, and nothing else happens. -/
theorem submit_of_unread (run : List Stmt → Run Unit)
    (h : (Grammar.readSource source s.nextId).errors ≠ []) :
    s.submit run source =
      (⟨.staticError, (Grammar.readSource source s.nextId).errors.map .error, ""⟩,
        { s with nextId := (Grammar.readSource source s.nextId).parsed.nextId }) := by
  unfold submit
  dsimp only
  split
  · rename_i hnone _
    exact absurd hnone h
  · rfl

/-- A source that cannot be bound is refused with what binding has found, and nothing else happens.
    -/
theorem submit_of_unbound (run : List Stmt → Run Unit)
    (herrors : (Grammar.readSource source s.nextId).errors = [])
    (hprogram : (Grammar.readSource source s.nextId).parsed.complete? = some program)
    (h : (resolve program).errors ≠ []) :
    s.submit run source =
      (⟨.staticError, (resolve program).findings.map Report.ofFinding, ""⟩,
        ⟨s.machine.note (resolve program).resolutions,
          (Grammar.readSource source s.nextId).parsed.nextId⟩) := by
  rw [submit_of_read run herrors hprogram]
  unfold bindAndExecute
  dsimp only
  rw [if_neg (by simpa using h)]

/-- A conclusion reports no error but that of the run. -/
theorem errors_conclude {findings : List Finding} (h : findings.filterMap Finding.error? = [])
    (printed nextId : Nat) (r : EStateM.Result Halt Machine Unit) :
    (conclude (findings.map Report.ofFinding) printed nextId r).1.errors =
      (Run.halt? r).elim [] Halt.errors := by
  have hnone : (findings.map Report.ofFinding).filterMap Report.error? = [] := by
    rw [Report.errors_ofFinding, h]
    rfl
  cases r with
  | ok _ m => exact hnone
  | error e m =>
    refine List.filterMap_append.trans ?_
    rw [hnone]
    rfl

/-- The status of a conclusion is that of the way in which the run has ended. -/
theorem status_conclude (reports : List Report) (printed nextId : Nat)
    (r : EStateM.Result Halt Machine Unit) :
    (conclude reports printed nextId r).1.status = (Run.halt? r).elim .ok Halt.status := by
  cases r <;> rfl

/-- Every source fares in one of the three ways. -/
theorem submit_fares (s : Session) (run : List Stmt → Run Unit) (source : String) :
    s.Fares run source (s.submit run source).1 (s.submit run source).2 := by
  by_cases hread : (Grammar.readSource source s.nextId).errors = []
  · obtain ⟨program, hprogram⟩ := Grammar.complete?_of_errors hread
    by_cases hbound : (resolve program).errors = []
    · have haccept : s.accepted? source = some program :=
        accepted?_eq_some_iff.mpr ⟨hread, hprogram, List.isEmpty_iff.mpr hbound⟩
      rw [submit_of_accepted run haccept]
      exact .ran _ (status_conclude _ _ _ _) (errors_conclude hbound _ _ _)
    · rw [submit_of_unbound run hread hprogram hbound]
      exact .unbound (resolve program).errors rfl rfl hbound (Report.errors_ofFinding _) rfl
  · rw [submit_of_unread run hread]
    have herrors := Report.errors_error (Grammar.readSource source s.nextId).errors
    exact .unread rfl rfl (fun h => hread (herrors.symm.trans h))
      (fun d (hd : d ∈ List.filterMap _ _) => Grammar.ofReading_errors (herrors ▸ hd)) rfl

/-- Status, errors and effects of a source agree. A run that was cut short has no end to tell of, and no
    error either. -/
structure Tells (s : Session) (o : Outcome) (after : Session) : Prop where
  ok : o.status ≠ .outOfFuel → (o.status = .ok ↔ o.errors = [])
  outOfFuel : o.status = .outOfFuel → o.errors = []
  staticError : o.status = .staticError ↔ ∃ d ∈ o.errors, d.Static
  runtimeError : o.status = .runtimeError ↔ ∃ e, o.errors = [.runtime e]
  withoutRuntimeError : o.status = .staticError → ∀ d ∈ o.errors, d.Static
  withoutEffect : o.status = .staticError →
    o.output = "" ∧ after.machine = { s.machine with depths := after.machine.depths }
  oneStage : (∀ d ∈ o.errors, d.OfReading) ∨ ∀ d ∈ o.errors, ¬d.OfReading

/-- A source that is refused has errors to show, all of them found before anything ran. -/
theorem tells_of_refused (hstatus : o.status = .staticError) (houtput : o.output = "")
    (herrors : o.errors ≠ []) (hstatic : ∀ d ∈ o.errors, d.Static)
    (hstage : (∀ d ∈ o.errors, d.OfReading) ∨ ∀ d ∈ o.errors, ¬d.OfReading)
    (hmachine : after.machine = { s.machine with depths := after.machine.depths }) :
    s.Tells o after where
  ok _ := by simp [hstatus, herrors]
  outOfFuel h := by
    rw [hstatus] at h
    cases h
  staticError := by
    obtain ⟨d, hd⟩ := List.exists_mem_of_ne_nil _ herrors
    exact ⟨fun _ => ⟨d, hd, hstatic d hd⟩, fun _ => hstatus⟩
  runtimeError := by
    constructor
    · intro h
      rw [hstatus] at h
      cases h
    · rintro ⟨e, he⟩
      exact (hstatic (.runtime e) (he ▸ List.mem_singleton_self _)).elim
  withoutRuntimeError _ := hstatic
  withoutEffect _ := ⟨houtput, hmachine⟩
  oneStage := hstage

theorem tells_of_fine (hstatus : o.status = .ok ∨ o.status = .outOfFuel) (herrors : o.errors = []) :
    s.Tells o after := by
  rcases hstatus with hstatus | hstatus <;> constructor <;> simp [hstatus, herrors]

theorem tells_of_failed {e : RuntimeError} (hstatus : o.status = .runtimeError)
    (herrors : o.errors = [.runtime e]) : s.Tells o after := by
  constructor <;> simp [hstatus, herrors, Diagnostic.Static, Diagnostic.OfReading]

/-- However a source fares, its status tells so. -/
theorem Fares.tells (h : s.Fares run source o after) : s.Tells o after := by
  cases h with
  | unread hstatus houtput herrors hkinds hmachine =>
    exact tells_of_refused hstatus houtput herrors (fun d hd => (hkinds d hd).static) (.inl hkinds)
      (by rw [hmachine])
  | unbound causes hstatus houtput hcauses herrors hmachine =>
    have hscoping (d : Diagnostic) (hd : d ∈ o.errors) : ∃ cause, d = .scoping cause := by
      rw [herrors] at hd
      obtain ⟨cause, -, rfl⟩ := List.mem_map.mp hd
      exact ⟨cause, rfl⟩
    refine tells_of_refused hstatus houtput (by simpa [herrors] using hcauses) (fun d hd => ?_)
      (.inr fun d hd => ?_) hmachine
    · obtain ⟨cause, rfl⟩ := hscoping d hd
      trivial
    · obtain ⟨cause, rfl⟩ := hscoping d hd
      exact id
  | ran halt? hstatus herrors =>
    rcases halt? with _ | e | _
    · exact tells_of_fine (.inl hstatus) herrors
    · exact tells_of_failed hstatus herrors
    · exact tells_of_fine (.inr hstatus) herrors

/-- What a source comes to and what is said about it agree, whatever the session. It is fine exactly
    when no error is reported, it is refused exactly when an error is reported that was found before
    anything ran, and it fails exactly when the one error reported is of its run. A refused source has no
    error of a run, prints nothing and changes nothing but the depths noted; errors of binding never come
    together with errors of reading. And no declaration fails to be read without an error. -/
theorem status_tells (s : Session) (mode : Mode) (fuel : Nat) (source : String) :
    s.Tells (s.submit (mode.run fuel) source).1 (s.submit (mode.run fuel) source).2 ∧
      ∀ tokens firstId, none ∈ (Grammar.parse tokens firstId).entries →
        (Grammar.parse tokens firstId).errors ≠ [] :=
  ⟨(s.submit_fares (mode.run fuel) source).tells, fun _ _ => Grammar.failed_entry_reported⟩

/-- A variable without a name is no declaration that can be read, and so it is reported. -/
theorem status_tells_of_nameless_variable :
    none ∈ (Grammar.parse (tokens "var = 1;") 0).entries ∧
      (Grammar.parse (tokens "var = 1;") 0).errors ≠ [] := by
  have hany : (Grammar.parse (tokens "var = 1;") 0).entries.any Option.isNone := by decide +kernel
  have hfailed : none ∈ (Grammar.parse (tokens "var = 1;") 0).entries := by
    obtain ⟨entry, hentry, hnone⟩ := List.any_eq_true.mp hany
    exact Option.isNone_iff_eq_none.mp hnone ▸ hentry
  exact ⟨hfailed, (status_tells (start .unlimited (.ticking 0)) .program 0 "").2 _ 0 hfailed⟩

end Session

end Lox
