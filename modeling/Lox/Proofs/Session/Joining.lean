import Lox.Proofs.Binding.Relabeling
import Lox.Proofs.Grammar.Joining
import Lox.Proofs.Session.Numbers

namespace Lox

section Relabel

variable (f : Relabeling)

/-- The diagnostic on its other line. -/
def Diagnostic.relabel : Diagnostic → Diagnostic
  | lexical e => lexical (e.relabel f)
  | grammatical e => grammatical (e.relabel f)
  | scoping e => scoping (e.relabel f)
  | runtime e => runtime (e.relabel f)

/-- The report on its other line. -/
def Report.relabel : Report → Report
  | error d => error (d.relabel f)
  | warning w => warning (w.relabel f)

/-- The outcome with its reports on other lines. -/
def Outcome.relabel (o : Outcome) : Outcome :=
  { o with reports := o.reports.map (Report.relabel f) }

/-- The session whose machine has other labels. -/
def Session.relabel (s : Session) : Session :=
  { s with machine := s.machine.relabel f }

theorem Report.ofFinding_relabel (finding : Finding) :
    ofFinding (finding.relabel f) = (ofFinding finding).relabel f := by
  cases finding <;> rfl

theorem Finding.relabel_relabel (g : Relabeling) (finding : Finding) :
    (finding.relabel f).relabel g = finding.relabel (f.andThen g) := by
  cases finding <;> rfl

theorem Finding.relabel_same (finding : Finding) : finding.relabel .same = finding := by
  cases finding <;> rfl

theorem Halt.reports_relabel (e : Halt) : (e.relabel f).reports = e.reports.map (Report.relabel f) := by
  cases e <;> rfl

/-- What is concluded with other labels is the conclusion with these labels. -/
theorem Session.conclude_relabel (reports : List Report) (printed nextId : Nat)
    (r : EStateM.Result Halt Machine Unit) :
    conclude (reports.map (Report.relabel f)) printed nextId
        (Run.mapResult (Machine.relabel f) (Halt.relabel f) r) =
      ((conclude reports printed nextId r).1.relabel f, (conclude reports printed nextId r).2.relabel f) := by
  cases r with
  | ok _ m => rfl
  | error e m =>
    have hstatus : (e.relabel f).status = e.status := by cases e <;> rfl
    simp only [Run.mapResult, conclude, Outcome.relabel, hstatus, e.reports_relabel f, List.map_append]
    rfl

end Relabel

namespace Relabeling

/-- The mark of code that is there before. -/
def earlier : Relabeling :=
  .ofLine (2 * ·)

/-- The mark of code that comes in. -/
def later : Relabeling :=
  .ofLine (2 * · + 1)

/-- The lines of marked code, each source counting from its own start. -/
def separate : Relabeling :=
  .ofLine (· / 2)

/-- The lines of marked code where those that come in go on by so many. -/
def joined (shift : Nat) : Relabeling :=
  .ofLine fun line => line / 2 + line % 2 * shift

theorem earlier_separate : earlier.andThen separate = same :=
  congrArg ofLine (funext fun line => by dsimp only [earlier, separate, ofLine]; omega)

theorem later_separate : later.andThen separate = same :=
  congrArg ofLine (funext fun line => by dsimp only [later, separate, ofLine]; omega)

theorem earlier_joined (shift : Nat) : earlier.andThen (joined shift) = same :=
  congrArg ofLine (funext fun line => by
    dsimp only [earlier, joined, ofLine]
    rw [Nat.mul_mod_right, Nat.zero_mul]
    omega)

theorem later_joined (shift : Nat) : later.andThen (joined shift) = .ofLine (· + shift) :=
  congrArg ofLine (funext fun line => by
    dsimp only [later, joined, ofLine]
    have hodd : (2 * line + 1) % 2 = 1 := by omega
    rw [hodd, Nat.one_mul]
    omega)

end Relabeling

/-- A program in two parts runs one after the other. -/
theorem runEach_append (exec : Stmt → Run Completion) (first second : List Stmt) :
    runEach exec (first ++ second) = runEach exec first >>= fun _ => runEach exec second := by
  induction first with
  | nil => rfl
  | cons s rest ih =>
    rw [List.cons_append, runEach, ih, runEach, bind_assoc]

/-- A line in two parts runs one after the other. -/
theorem runShowing_append (eval : Expr → Run Value) (exec : Stmt → Run Completion)
    (first second : List Stmt) :
    runShowing eval exec (first ++ second) =
      runShowing eval exec first >>= fun _ => runShowing eval exec second := by
  induction first with
  | nil => rfl
  | cons s rest ih =>
    have hother : (do let _ ← exec s; runShowing eval exec (rest ++ second)) =
        (do let _ ← exec s; runShowing eval exec rest) >>= fun _ => runShowing eval exec second := by
      rw [ih, bind_assoc]
    cases s with
    | expression e =>
      rw [List.cons_append, runShowing, ih, runShowing]
      simp only [bind_assoc]
    | _ => exact hother

/-- A program, or a line, in two parts runs one after the other. -/
theorem Mode.run_append (mode : Mode) (fuel : Nat) (first second : List Stmt) :
    mode.run fuel (first ++ second) = mode.run fuel first >>= fun _ => mode.run fuel second := by
  cases mode with
  | program => exact runEach_append _ first second
  | line => exact runShowing_append _ _ first second

/-- What is printed in the end is what was printed up to some point and what was printed from then on. -/
theorem Sink.textSince_append {before middle after : Sink} (h : before.pieces <:+ middle.pieces)
    (h' : middle.pieces <:+ after.pieces) :
    after.textSince before.pieces.length =
      middle.textSince before.pieces.length ++ after.textSince middle.pieces.length := by
  have hsince (later earlier added : List Char) (h : added ++ earlier = later) :
      later.take (later.length - earlier.length) = added := by
    rw [← h, List.length_append, Nat.add_sub_cancel, List.take_left]
  obtain ⟨first, hfirst⟩ := h
  obtain ⟨second, hsecond⟩ := h'
  have hboth : (second ++ first) ++ before.pieces = after.pieces := by
    rw [List.append_assoc, hfirst, hsecond]
  unfold textSince
  rw [hsince _ _ _ hboth, hsince _ _ _ hfirst, hsince _ _ _ hsecond, List.reverse_append,
    String.ofList_append]

/-- What binding has decided is noted in two parts. -/
theorem Machine.note_append (m : Machine) (first second : List Resolution) :
    m.note (first ++ second) = (m.note first).note second := by
  induction first generalizing m with
  | nil => rfl
  | cons r rest ih => exact ih (m.note [r])

/-- A program takes nothing back that was printed. -/
theorem Mode.run_prints (mode : Mode) (fuel : Nat) (program : List Stmt) :
    (mode.run fuel program).Prints := by
  have hfuel : Simulation.identity.Fuels fuel fuel := .inl ⟨rfl, rfl⟩
  exact (mode.run_follows Simulation.lawful_identity Simulation.checks_identity hfuel program).prints

/-- An outcome with what has been said and printed before. -/
def Outcome.behind (o before : Outcome) : Outcome :=
  ⟨o.status, before.reports ++ o.reports, before.output ++ o.output⟩

namespace Session

variable {programs : List (List Stmt)} {s s' : Session} {source source' : String}
  {program program' : List Stmt}

/-- Two sources that are accepted one after the other are accepted in one go. -/
theorem accepted?_join (h : s.accepted? source = some program)
    (hnext : s'.nextId = (Grammar.readSource source s.nextId).parsed.nextId)
    (h' : s'.accepted? source' = some program') :
    s.accepted? (source ++ "\n" ++ source') =
        some (program ++ Stmt.relabelAll (.ofLine (· + lineShift source)) program') ∧
      (Grammar.readSource (source ++ "\n" ++ source') s.nextId).parsed.nextId =
        (Grammar.readSource source' s'.nextId).parsed.nextId := by
  obtain ⟨hread, hcomplete, -⟩ := accepted?_eq_some_iff.mp h
  obtain ⟨hread', hcomplete', -⟩ := accepted?_eq_some_iff.mp h'
  have hreads := Grammar.readsAs_of_errors hread hcomplete
  have hreads' := Grammar.readsAs_of_errors hread' hcomplete'
  rw [hnext] at hreads'
  have hjoin := hreads.join hreads'
  refine ⟨accepted?_eq_some_iff.mpr ⟨hjoin.errors, hjoin.complete?, ?_⟩, ?_⟩
  · exact List.isEmpty_iff.mpr (errors_append (fun _ _ => Nat.add_lt_add_iff_right)
      (errors_of_accepted h) (errors_of_accepted h'))
  · rw [hjoin.nextId_eq, hnext]

/-- What is said and printed before a run comes before what the run says and prints. -/
theorem conclude_behind (reports reports' : List Report) (status : Status) (nextId : Nat)
    {before m : Machine} {r : EStateM.Result Halt Machine Unit}
    (h : before.sink.pieces <:+ m.sink.pieces) (h' : m.sink.pieces <:+ (Run.reached r).sink.pieces) :
    conclude (reports ++ reports') before.sink.pieces.length nextId r =
      ((conclude reports' m.sink.pieces.length nextId r).1.behind
          ⟨status, reports, m.sink.textSince before.sink.pieces.length⟩,
        (conclude reports' m.sink.pieces.length nextId r).2) := by
  have htext := Sink.textSince_append h h'
  cases r with
  | ok _ after =>
    unfold conclude Outcome.behind
    dsimp only [Run.reached] at htext ⊢
    rw [htext]
  | error e after =>
    unfold conclude Outcome.behind
    dsimp only [Run.reached] at htext ⊢
    rw [htext, List.append_assoc]

/-- The run of two sources in one go goes on with the second program where the run of the first has come
    to its end. -/
theorem Reached.submit_join (hs : Reached programs s) (mode : Mode) (fuel : Nat)
    (haccept : s.accepted? source = some program)
    (hok : (s.submit (mode.run fuel) source).1.status = .ok)
    (haccept' : (s.submit (mode.run fuel) source).2.accepted? source' = some program') :
    let first := s.submit (mode.run fuel) source
    let shift := Relabeling.ofLine (· + lineShift source)
    let rest := conclude ((resolve program').findings.map fun finding => .ofFinding (finding.relabel shift))
      first.2.machine.sink.pieces.length (Grammar.readSource source' first.2.nextId).parsed.nextId
      (mode.run fuel (Stmt.relabelAll shift program')
        (first.2.machine.note (resolve program').resolutions))
    s.submit (mode.run fuel) (source ++ "\n" ++ source') = (rest.1.behind first.1, rest.2) := by
  intro first shift rest
  obtain ⟨hrun, hfirst⟩ := submit_of_ok haccept hok
  have hnext : first.2.nextId = (Grammar.readSource source s.nextId).parsed.nextId := nextId_submit _ _ _
  obtain ⟨hjoin, hnextId⟩ := accepted?_join haccept hnext haccept'
  have hkeeps : shift.KeepsOrder := fun _ _ => Nat.add_lt_add_iff_right
  -- What the second program resolves has numbers that the first has not used.
  have hnew : ∀ r ∈ (resolve program').resolutions,
      (Grammar.readSource source s.nextId).parsed.nextId ≤ r.id ∧
        r.id < (Grammar.readSource source' first.2.nextId).parsed.nextId := by
    intro r hr
    obtain ⟨hread, hcomplete, _⟩ := accepted?_eq_some_iff.mp haccept'
    rw [← hnext]
    exact (Grammar.numbered_of_read hread hcomplete).2.bounds r.id
      ((resolve_ids program').subset (List.mem_map_of_mem hr))
  have hgoesOn : mode.run fuel (program ++ Stmt.relabelAll shift program')
      (s.machine.note (resolve (program ++ Stmt.relabelAll shift program')).resolutions) =
        mode.run fuel (Stmt.relabelAll shift program')
          (first.2.machine.note (resolve program').resolutions) := by
    rw [resolve_append hkeeps, Resolution.relabel_ofLine, s.machine.note_append, Mode.run_append,
      Run.bind_apply, hs.run_note haccept mode fuel hnew, hrun]
    rfl
  -- The run only adds to what is printed, and the second run to what the first has printed.
  have hprinted : s.machine.sink.pieces <:+ first.2.machine.sink.pieces := by
    have hprints := mode.run_prints fuel program (s.machine.note (resolve program).resolutions)
    rwa [Run.after_of_ok hrun] at hprints
  have hprints := mode.run_prints fuel (Stmt.relabelAll shift program')
    (first.2.machine.note (resolve program').resolutions)
  rw [submit_of_accepted _ hjoin, hnextId, hgoesOn, resolve_append hkeeps, List.map_append,
    List.map_map, congrArg Prod.fst hfirst]
  exact conclude_behind _ _ .ok _ hprinted hprints

/-- The run of a program that comes in, where its lines are told apart by marks from those of the code that
    is there before. -/
def runMarked (s : Session) (run : List Stmt → Run Unit) (program : List Stmt) : Outcome × Session :=
  (s.relabel .earlier).bindAndExecute run (Stmt.relabelAll .later program)

/-- However the marks are read, the marked run comes to the same as the run of the code on the lines that
    are read from them, as long as these are the old ones for the code there before. -/
theorem runMarked_read (mode : Mode) (fuel : Nat) (herrors : (resolve program).errors = [])
    {line : Nat → Nat} {f : Relabeling} (hearlier : Relabeling.earlier.andThen (.ofLine line) = .same)
    (hlater : Relabeling.later.andThen (.ofLine line) = f) :
    conclude ((resolve program).findings.map fun finding => .ofFinding (finding.relabel f))
        s.machine.sink.pieces.length s.nextId
        (mode.run fuel (Stmt.relabelAll f program) (s.machine.note (resolve program).resolutions)) =
      ((s.runMarked (mode.run fuel) program).1.relabel (.ofLine line),
        (s.runMarked (mode.run fuel) program).2.relabel (.ofLine line)) := by
  have hkeeps : Relabeling.later.KeepsOrder := fun a b => by
    dsimp only [Relabeling.later, Relabeling.ofLine]
    omega
  -- Moving lines moves no numbers, so the same resolutions are noted.
  have hids : (resolve program).resolutions.map (Resolution.relabel .later) =
      (resolve program).resolutions := Resolution.relabel_ofLine _ _
  let noted := s.machine.note (resolve program).resolutions
  have hmarked : s.runMarked (mode.run fuel) program = conclude
      ((resolve program).findings.map fun finding => .ofFinding (finding.relabel .later))
      s.machine.sink.pieces.length s.nextId
      (mode.run fuel (Stmt.relabelAll .later program) (noted.relabel .earlier)) := by
    have hbound := bindAndExecute_of_bound (mode.run fuel) (s := s.relabel .earlier)
      (@errors_append _ hkeeps [] program rfl herrors)
    rw [List.nil_append, resolve_relabel hkeeps, hids, List.map_map] at hbound
    exact hbound
  have hnoted : (noted.relabel .earlier).relabel (.ofLine line) = noted := by
    have hstore : (noted.store.relabel .earlier).relabel (.ofLine line) = noted.store := by
      rw [Store.relabel_relabel, hearlier, Store.relabel_same]
    exact congrArg (fun store => { noted with store }) hstore
  have hrun := mode.run_ofLine line fuel (Stmt.relabelAll .later program) (m := noted.relabel .earlier)
  rw [hnoted, Stmt.relabelAll_relabelAll, hlater] at hrun
  have hreports : ((resolve program).findings.map fun finding =>
        Report.ofFinding (finding.relabel .later)).map (Report.relabel (.ofLine line)) =
      (resolve program).findings.map fun finding => .ofFinding (finding.relabel f) := by
    rw [List.map_map]
    refine List.map_congr_left fun finding _ => ?_
    rw [← hlater, ← Finding.relabel_relabel, Report.ofFinding_relabel]
    rfl
  rw [hmarked, ← conclude_relabel, hreports, ← hrun]

/-- A source that is accepted fares as its marked run whose lines are read each from its own start. -/
theorem submit_eq_runMarked (mode : Mode) (fuel : Nat) (h : s.accepted? source = some program) :
    let marked := runMarked ⟨s.machine, (s.submit (mode.run fuel) source).2.nextId⟩ (mode.run fuel) program
    s.submit (mode.run fuel) source = (marked.1.relabel .separate, marked.2.relabel .separate) := by
  intro marked
  let t : Session := ⟨s.machine, (s.submit (mode.run fuel) source).2.nextId⟩
  have hread := t.runMarked_read mode fuel (errors_of_accepted h) Relabeling.earlier_separate
    Relabeling.later_separate
  simp only [Stmt.relabelAll_same, Finding.relabel_same] at hread
  refine Eq.trans ?_ hread
  dsimp only [t]
  rw [nextId_submit]
  exact submit_of_accepted (mode.run fuel) h

/-- The warnings of a source that is accepted are those of binding. -/
theorem warnings_conclude (findings : List Finding) (printed nextId : Nat)
    (r : EStateM.Result Halt Machine Unit) :
    (conclude (findings.map Report.ofFinding) printed nextId r).1.warnings =
      findings.filterMap Finding.warning? := by
  have hfinding : Report.warning? ∘ Report.ofFinding = Finding.warning? := by
    funext finding
    cases finding <;> rfl
  have hfindings : (findings.map Report.ofFinding).filterMap Report.warning? =
      findings.filterMap Finding.warning? := by
    rw [List.filterMap_map, hfinding]
  cases r with
  | ok _ m => exact hfindings
  | error e m =>
    have hreports : e.reports.filterMap Report.warning? = [] := by cases e <;> rfl
    refine (List.filterMap_append).trans ?_
    rw [hfindings, hreports, List.append_nil]

/-- Warnings are concluded with their other lines. -/
theorem warnings_conclude_relabel (f : Relabeling) (findings : List Finding)
    (printed printed' nextId nextId' : Nat) (r r' : EStateM.Result Halt Machine Unit) :
    (conclude (findings.map fun finding => .ofFinding (finding.relabel f)) printed nextId r).1.warnings =
      (conclude (findings.map Report.ofFinding) printed' nextId' r').1.warnings.map
        (Warning.relabel f) := by
  have hreports : (findings.map fun finding => Report.ofFinding (finding.relabel f)) =
      (findings.map (Finding.relabel f)).map Report.ofFinding := by
    rw [List.map_map]
    rfl
  rw [hreports, warnings_conclude, warnings_conclude, Finding.warnings_relabel]

/-- Nothing that binding finds in an accepted program is an error. -/
theorem errors_ofFinding {findings : List Finding} (h : findings.filterMap Finding.error? = []) :
    (findings.map Report.ofFinding).filterMap Report.error? = [] := by
  rw [Report.errors_ofFinding, h]
  rfl

section Join

variable (hs : Reached programs s) (mode : Mode) (fuel : Nat)
  (haccept : s.accepted? source = some program)
  (hok : (s.submit (mode.run fuel) source).1.status = .ok)
  (haccept' : (s.submit (mode.run fuel) source).2.accepted? source' = some program')
include hs haccept hok haccept'

/-- Behind another source a source fares as its marked run whose lines go on behind those of the other. -/
theorem Reached.submit_join_eq_runMarked :
    let first := s.submit (mode.run fuel) source
    let second := first.2.submit (mode.run fuel) source'
    let marked := runMarked ⟨first.2.machine, second.2.nextId⟩ (mode.run fuel) program'
    s.submit (mode.run fuel) (source ++ "\n" ++ source') =
      ((marked.1.relabel (.joined (lineShift source))).behind first.1,
        marked.2.relabel (.joined (lineShift source))) := by
  intro first second marked
  let t : Session := ⟨first.2.machine, second.2.nextId⟩
  have hread := t.runMarked_read mode fuel (errors_of_accepted haccept')
    (Relabeling.earlier_joined (lineShift source)) (Relabeling.later_joined (lineShift source))
  have hnext : (Grammar.readSource source' first.2.nextId).parsed.nextId = second.2.nextId :=
    (nextId_submit _ _ _).symm
  refine (hs.submit_join mode fuel haccept hok haccept').trans ?_
  rw [hnext]
  exact congrArg (fun rest : Outcome × Session => (rest.1.behind first.1, rest.2)) hread

/-- The warnings about two joined sources are those about each, with the second on its lines. -/
theorem Reached.warnings_join :
    (s.submit (mode.run fuel) (source ++ "\n" ++ source')).1.warnings =
      (s.submit (mode.run fuel) source).1.warnings ++
        ((s.submit (mode.run fuel) source).2.submit (mode.run fuel) source').1.warnings.map
          (Warning.relabel (.ofLine (· + lineShift source))) := by
  rw [hs.submit_join mode fuel haccept hok haccept', submit_of_accepted (mode.run fuel) haccept',
    ← warnings_conclude_relabel]
  exact List.filterMap_append

end Join

/-- Running in pieces is running at once. After a source that is fine, a further one that is accepted fares
    as it does behind the first and a newline in one go: with the same status, outputs and warnings one
    after the other, and the same names, objects, depths and numbers in the end. All lines are the same but
    for those of the second source, which go on behind the first: with the marks of a run that tells the
    lines apart read in the one way, the second source fares as it does on its own, and read in the other
    way, as it does behind the first. -/
theorem Reached.run_in_pieces (hs : Reached programs s) (mode : Mode) (fuel : Nat)
    (hok : (s.submit (mode.run fuel) source).1.status = .ok)
    (hstatic : ((s.submit (mode.run fuel) source).2.submit (mode.run fuel) source').1.status ≠
      .staticError) :
    let first := s.submit (mode.run fuel) source
    let second := first.2.submit (mode.run fuel) source'
    let whole := s.submit (mode.run fuel) (source ++ "\n" ++ source')
    let shift := lineShift source
    (whole.1.status = second.1.status ∧
      whole.1.output = first.1.output ++ second.1.output ∧
      whole.1.warnings =
        first.1.warnings ++ second.1.warnings.map (Warning.relabel (.ofLine (· + shift)))) ∧
    (whole.2.machine.store.frames.map Frame.withoutBirth =
        second.2.machine.store.frames.map Frame.withoutBirth ∧
      whole.2.machine.store.instances = second.2.machine.store.instances ∧
      whole.2.machine.depths = second.2.machine.depths ∧
      whole.2.nextId = second.2.nextId) ∧
    first.1.errors = [] ∧
    ∃ program, first.2.accepted? source' = some program ∧
      let marked := runMarked ⟨first.2.machine, second.2.nextId⟩ (mode.run fuel) program
      second = (marked.1.relabel .separate, marked.2.relabel .separate) ∧
      whole = ((marked.1.relabel (.joined shift)).behind first.1, marked.2.relabel (.joined shift)) := by
  intro first second whole shift
  obtain ⟨program, haccept⟩ := exists_accepted (s := s) (by rw [hok]; nofun)
  obtain ⟨program', haccept'⟩ := exists_accepted hstatic
  let marked := runMarked ⟨first.2.machine, second.2.nextId⟩ (mode.run fuel) program'
  have hsecond : second = (marked.1.relabel .separate, marked.2.relabel .separate) :=
    submit_eq_runMarked mode fuel haccept'
  have hwhole : whole =
      ((marked.1.relabel (.joined shift)).behind first.1, marked.2.relabel (.joined shift)) :=
    hs.submit_join_eq_runMarked mode fuel haccept hok haccept'
  have hwarnings : whole.1.warnings =
      first.1.warnings ++ second.1.warnings.map (Warning.relabel (.ofLine (· + shift))) :=
    hs.warnings_join mode fuel haccept hok haccept'
  have hfirst : first.1.errors = [] := by
    rw [show first = _ from (submit_of_ok haccept hok).2]
    exact errors_ofFinding (errors_of_accepted haccept)
  refine ⟨⟨?_, ?_, hwarnings⟩, ?_, hfirst, program', haccept', hsecond, hwhole⟩
  · rw [hwhole, hsecond]
    rfl
  · rw [hwhole, hsecond]
    rfl
  · rw [hwhole, hsecond]
    -- Births are the one part of the store that tells the lines apart.
    have hframes (f g : Relabeling) := (marked.2.machine.store.withoutBirth_relabel f).trans
      (marked.2.machine.store.withoutBirth_relabel g).symm
    exact ⟨hframes _ _, rfl, rfl, rfl⟩

/-- A variable is printed that an earlier source declares, and the run fails on the line behind. -/
theorem run_in_pieces_failing :
    let s := start .unlimited (.ticking 0)
    let first := s.submit (Mode.program.run 20) "var a = \"a\";\nprint a;"
    let second := first.2.submit (Mode.program.run 20) "print a;\nb;"
    let whole := s.submit (Mode.program.run 20) "var a = \"a\";\nprint a;\nprint a;\nb;"
    first.1.status = .ok ∧ second.1.status = .runtimeError ∧ whole.1.status = .runtimeError ∧
      whole.1.output = first.1.output ++ second.1.output ∧
      whole.2.machine.store.frames.map Frame.withoutBirth =
        second.2.machine.store.frames.map Frame.withoutBirth ∧
      second.1.reports = [.error (.runtime ⟨.undefinedVariable "b", 2⟩)] ∧
      whole.1.reports = [.error (.runtime ⟨.undefinedVariable "b", 4⟩)] := by
  intro s first second whole
  have hok : first.1.status = .ok := by decide +kernel
  have hfails : second.1.status = .runtimeError := by decide +kernel
  obtain ⟨⟨hstatus, houtput, -⟩, ⟨hframes, -⟩, -⟩ :=
    Reached.run_in_pieces (.start .unlimited (.ticking 0)) .program 20 hok (by rw [hfails]; decide)
  have hsecond : second.1.reports = [.error (.runtime ⟨.undefinedVariable "b", 2⟩)] := by
    decide +kernel
  have hwhole : whole.1.reports = [.error (.runtime ⟨.undefinedVariable "b", 4⟩)] := by
    decide +kernel
  exact ⟨hok, hfails, hstatus.trans hfails, houtput, hframes, hsecond, hwhole⟩

end Session

end Lox
