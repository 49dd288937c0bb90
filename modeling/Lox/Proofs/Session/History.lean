import Lox.Session
import Lox.Proofs.Evaluation.Keeping

namespace Lox

/-- The two ways in which a session runs a source. -/
inductive Mode where
  | program
  | line
deriving DecidableEq, Repr

/-- The run of a program, or of a line that shows its values. -/
def Mode.run (mode : Mode) (fuel : Nat) : List Stmt → Run Unit :=
  match mode with
  | program => runProgram fuel
  | line => runLine fuel

namespace Session

/-- The program that a session runs for a source, if it finds nothing wrong with it. -/
def accepted? (s : Session) (source : String) : Option (List Stmt) :=
  let tree := Grammar.readSource source s.nextId
  match tree.errors, tree.parsed.complete? with
  | [], some program => if (resolve program).errors.isEmpty then some program else none
  | _, _ => none

/-- A session that has been given some sources, in either way and with whatever outcome, and the
    programs that it has run for them, the last one first. -/
inductive Reached : List (List Stmt) → Session → Prop where
  | start (sink : Sink) (clock : Clock) : Reached [] (.start sink clock)
  | submit {programs : List (List Stmt)} {s : Session} (mode : Mode) (fuel : Nat) (source : String)
      (hs : Reached programs s) :
      Reached ((s.accepted? source).toList ++ programs) (s.submit (mode.run fuel) source).2

/-- An executed program leaves the machine of its run behind. -/
theorem machine_execute (s : Session) (run : Run Unit) :
    (s.execute run).2.machine = run.after s.machine := by
  unfold execute Run.after
  dsimp only
  cases run s.machine with
  | ok _ after => rfl
  | error e after => cases e <;> rfl

theorem nextId_execute (s : Session) (run : Run Unit) : (s.execute run).2.nextId = s.nextId := by
  unfold execute
  dsimp only
  cases run s.machine with
  | ok _ after => rfl
  | error e after => cases e <;> rfl

theorem nextId_bindAndExecute (s : Session) (run : List Stmt → Run Unit) (program : List Stmt) :
    (s.bindAndExecute run program).2.nextId = s.nextId := by
  unfold bindAndExecute
  dsimp only
  split
  · exact nextId_execute _ _
  · rfl

/-- Binding takes over what it has decided, and then the program runs unless it found an error. -/
theorem machine_bindAndExecute (s : Session) (run : List Stmt → Run Unit) (program : List Stmt) :
    (s.bindAndExecute run program).2.machine =
      if (resolve program).errors.isEmpty then
        (run program).after (s.machine.note (resolve program).resolutions)
      else s.machine.note (resolve program).resolutions := by
  unfold bindAndExecute
  dsimp only
  split
  · exact machine_execute _ _
  · rfl

/-- A source that is read without an error is bound and run. -/
theorem submit_of_read {s : Session} {source : String} {program : List Stmt}
    (run : List Stmt → Run Unit) (herrors : (Grammar.readSource source s.nextId).errors = [])
    (hprogram : (Grammar.readSource source s.nextId).parsed.complete? = some program) :
    s.submit run source =
      ({ s with nextId := (Grammar.readSource source s.nextId).parsed.nextId }).bindAndExecute run
        program := by
  simp only [submit, herrors, hprogram]

/-- A source that is not read is not looked at any further. -/
theorem machine_submit_of_not_read {s : Session} {source : String} (run : List Stmt → Run Unit)
    (h : (Grammar.readSource source s.nextId).errors ≠ [] ∨
      (Grammar.readSource source s.nextId).parsed.complete? = none) :
    (s.submit run source).2.machine = s.machine := by
  unfold submit
  dsimp only
  split
  · rename_i hnone hsome
    rcases h with h | h
    · exact absurd hnone h
    · rw [hsome] at h
      cases h
  · rfl

/-- A source that is submitted uses up the numbers that reading it takes, whatever becomes of it. -/
theorem nextId_submit (s : Session) (run : List Stmt → Run Unit) (source : String) :
    (s.submit run source).2.nextId = (Grammar.readSource source s.nextId).parsed.nextId := by
  unfold submit
  dsimp only
  split
  · exact nextId_bindAndExecute _ _ _
  · rfl

/-- A source is accepted if it is read and bound without an error. -/
theorem accepted?_eq_some_iff {s : Session} {source : String} {program : List Stmt} :
    s.accepted? source = some program ↔
      (Grammar.readSource source s.nextId).errors = [] ∧
        (Grammar.readSource source s.nextId).parsed.complete? = some program ∧
        (resolve program).errors.isEmpty := by
  unfold accepted?
  dsimp only
  split
  · rename_i found herrors hfound
    rw [herrors, hfound]
    constructor
    · intro h
      split at h
      · rename_i hempty
        obtain rfl := Option.some.inj h
        exact ⟨rfl, rfl, hempty⟩
      · cases h
    · rintro ⟨_, hsome, hempty⟩
      obtain rfl := Option.some.inj hsome
      rw [if_pos hempty]
  · rename_i hother
    constructor
    · intro h
      cases h
    · rintro ⟨herrors, hfound, _⟩
      exact absurd hfound (hother program herrors)

/-- An accepted source has the session where the run of its program has got to. -/
theorem machine_submit_of_accepted {s : Session} {source : String} {program : List Stmt}
    (run : List Stmt → Run Unit) (h : s.accepted? source = some program) :
    (s.submit run source).2.machine =
      (run program).after (s.machine.note (resolve program).resolutions) := by
  obtain ⟨hread, hcomplete, hempty⟩ := accepted?_eq_some_iff.mp h
  rw [submit_of_read run hread hcomplete, machine_bindAndExecute, if_pos hempty]

/-- A session runs the program that it accepts, once it has taken over what binding has decided
    about it; for any other source it runs nothing, but may have taken over such decisions too. -/
theorem submit_cases (s : Session) (run : List Stmt → Run Unit) (source : String) :
    (∃ program, s.accepted? source = some program ∧
      (s.submit run source).2.machine =
        (run program).after (s.machine.note (resolve program).resolutions)) ∨
    (s.accepted? source = none ∧ (s.submit run source).2.machine = s.machine) ∨
    (s.accepted? source = none ∧ ∃ program,
      (Grammar.readSource source s.nextId).errors = [] ∧
      (Grammar.readSource source s.nextId).parsed.complete? = some program ∧
      (s.submit run source).2.machine = s.machine.note (resolve program).resolutions) := by
  by_cases herrors : (Grammar.readSource source s.nextId).errors = []
  · rcases Option.eq_none_or_eq_some (Grammar.readSource source s.nextId).parsed.complete? with
      hprogram | ⟨program, hprogram⟩
    · refine .inr (.inl ⟨?_, machine_submit_of_not_read run (.inr hprogram)⟩)
      simp [accepted?, hprogram]
    · have hmachine := congrArg (·.2.machine) (submit_of_read run herrors hprogram)
      simp only [machine_bindAndExecute] at hmachine
      by_cases hempty : (resolve program).errors.isEmpty
      · rw [if_pos hempty] at hmachine
        exact .inl ⟨program, accepted?_eq_some_iff.mpr ⟨herrors, hprogram, hempty⟩, hmachine⟩
      · rw [if_neg hempty] at hmachine
        refine .inr (.inr ⟨?_, program, herrors, hprogram, hmachine⟩)
        simp [accepted?, herrors, hprogram, hempty]
  · refine .inr (.inl ⟨?_, machine_submit_of_not_read run (.inl herrors)⟩)
    cases haccept : s.accepted? source with
    | none => rfl
    | some program => exact absurd (accepted?_eq_some_iff.mp haccept).1 herrors

end Session

/-- The frames in view, the active calls and how many may be, the depths decided, and the global
    frame are as they were. -/
structure Machine.SameContext (m m' : Machine) : Prop where
  chain : m'.chain = m.chain
  calls : m'.calls = m.calls
  maxCalls : m'.maxCalls = m.maxCalls
  depths : m'.depths = m.depths
  globals : ∀ kind, m.store.kind? globalFrame = some kind → m'.store.kind? globalFrame = some kind

theorem Machine.Later.sameContext {new : List String} {m m' : Machine} (h : m.Later new m') :
    m.SameContext m' :=
  ⟨h.chain, h.calls, h.maxCalls, h.depths, fun _ hkind => h.grows.kinds hkind⟩

/-- A body that runs in other frames comes back to the frames before. -/
theorem sequence_sameContext (fuel : Nat) (body : List Stmt) (chain : Chain) (m : Machine) :
    m.SameContext ((Run.inChain chain (Run.sequence (exec fuel) body)).after m) := by
  have hinside (m' : Machine)
      (h : ({ m with chain } : Machine).SameContext m') :
      m.SameContext { m' with chain := m.chain } :=
    ⟨rfl, h.calls, h.maxCalls, h.depths, h.globals⟩
  have hbody := Run.keeps_sequence (exec_keeps fuel) body
  unfold Run.after Run.inChain
  cases hres : Run.sequence (exec fuel) body { m with chain } with
  | ok completion m' => exact hinside m' (hbody.ok hres).sameContext
  | error e m' => exact hinside m' (hbody.error hres).sameContext

/-- A program keeps its context, statement by statement. -/
theorem runEach_keeps (fuel : Nat) (program : List Stmt) :
    (runEach (exec fuel) program).Keeps (program.flatMap Stmt.declares) := by
  induction program with
  | nil => exact Run.keeps_pure _
  | cons s rest ih =>
    rw [List.flatMap_cons]
    exact ((exec_keeps fuel s).mono (List.subset_append_left _ _)).bind fun _ =>
      ih.mono (List.subset_append_right _ _)

/-- A line keeps its context, statement by statement. -/
theorem runShowing_keeps (fuel : Nat) (program : List Stmt) :
    (runShowing (eval fuel) (exec fuel) program).Keeps (program.flatMap Stmt.declares) := by
  induction program with
  | nil => exact Run.keeps_pure _
  | cons s rest ih =>
    rw [List.flatMap_cons]
    have hrest := ih.mono (List.subset_append_right s.declares _)
    have hother := ((exec_keeps fuel s).mono (List.subset_append_left _ _)).bind fun _ => hrest
    cases s with
    | expression e =>
      exact (eval_keeps fuel e).weaken.bind fun v => (Run.keeps_print v _).bind fun _ => hrest
    | _ => exact hother

theorem Mode.run_keeps (mode : Mode) (fuel : Nat) (program : List Stmt) :
    (mode.run fuel program).Keeps (program.flatMap Stmt.declares) := by
  cases mode with
  | program => exact runEach_keeps fuel program
  | line => exact runShowing_keeps fuel program

/-- Between its sources a session looks at the global frame and has no active call. -/
theorem Session.Reached.atRest {programs : List (List Stmt)} {s : Session}
    (h : Session.Reached programs s) : s.machine.chain = .global ∧ s.machine.calls = 0 := by
  induction h with
  | start sink clock => exact ⟨rfl, rfl⟩
  | @submit programs s mode fuel source hs ih =>
    have hnoted (program : List Stmt) :
        (s.machine.note (resolve program).resolutions).chain = .global ∧
          (s.machine.note (resolve program).resolutions).calls = 0 := ih
    rcases s.submit_cases (mode.run fuel) source with
      ⟨program, _, hrun⟩ | ⟨_, hsame⟩ | ⟨_, program, _, _, hnote⟩
    · have hlater := mode.run_keeps fuel program (s.machine.note (resolve program).resolutions)
      rw [hrun, hlater.chain, hlater.calls]
      exact hnoted program
    · rwa [hsame]
    · rw [hnote]
      exact hnoted program

/-- Evaluation restores its context. Whatever an expression, a statement, a body in frames of its
    own or a call comes to, from whatever machine, the frames in view, the active calls and their
    limit, the depths decided and the global frame are those of before; so after each of its sources,
    whatever the outcome, a session is back at the global frame and has no active call. -/
theorem context_restored (fuel : Nat) (m : Machine) :
    (∀ e, m.SameContext ((eval fuel e).after m)) ∧
    (∀ s, m.SameContext ((exec fuel s).after m)) ∧
    (∀ body chain, m.SameContext ((Run.inChain chain (Run.sequence (exec fuel) body)).after m)) ∧
    (∀ callee paren arguments, m.SameContext
      ((Run.callExpression (Run.callClosure (exec fuel)) (eval fuel) callee paren arguments).after
        m)) ∧
    (∀ programs s, Session.Reached programs s → ∀ (mode : Mode) source,
      (s.submit (mode.run fuel) source).2.machine.chain = .global ∧
        (s.submit (mode.run fuel) source).2.machine.calls = 0) := by
  refine ⟨fun e => (eval_keeps fuel e m).sameContext, fun s => (exec_keeps fuel s m).sameContext,
    fun body chain => sequence_sameContext fuel body chain m, fun callee paren arguments => ?_,
    fun programs s hs mode source => (hs.submit mode fuel source).atRest⟩
  have henter (c : Closure) (arguments : List Value) (line : Nat) :
      (Run.callClosure (exec fuel) c arguments line).Keeps [] :=
    Run.keeps_callClosure (exec_keeps fuel) c arguments line
  exact (Run.keeps_callExpression henter (eval_keeps fuel) callee paren arguments m).sameContext

/-- A session that has run a recursion without an end is at rest again. -/
theorem context_restored_after_recursion :
    let s := Session.start .unlimited (.ticking 0)
    Session.Reached [] s ∧
      (s.submit (Mode.program.run 5000) "fun f() { f(); } f();").2.machine.chain = .global ∧
      (s.submit (Mode.program.run 5000) "fun f() { f(); } f();").2.machine.calls = 0 :=
  ⟨.start _ _, (context_restored 5000 (Machine.start 200 .unlimited (.ticking 0))).2.2.2.2 _ _ (.start _ _)
    .program "fun f() { f(); } f();"⟩

end Lox
