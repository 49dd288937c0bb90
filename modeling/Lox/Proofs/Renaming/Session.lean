import Lox.Proofs.Renaming.Binding
import Lox.Proofs.Renaming.Evaluation
import Lox.Proofs.Session.Sound
import Lox.Proofs.Session.Status

namespace Lox

open Run

/-- A renaming moves nothing, so faults are on the same lines. -/
theorem Expr.Renames.line_eq {ρ : Renaming} {marks : List Bool} {e e' : Expr} (h : e.Renames ρ marks e') :
    e'.line = e.line := by
  cases e with
  | grouping inner =>
    cases h with
    | grouping hinner => exact hinner.line_eq
  | conditional condition yes no =>
    cases h with
    | conditional hcondition hyes hno => exact hcondition.line_eq
  | comma left right =>
    cases h with
    | comma hleft hright => exact hleft.line_eq
  | _ =>
    cases h
    rfl
termination_by structural e

section Programs

variable {ρ : Renaming} {F : World} {marks : List Bool} {eval : Expr → Run Value}
  {exec : Stmt → Run Completion}
  (hexec : ExecAlike ρ exec)
include hexec

/-- Programs that differ in the names of variables run alike. -/
theorem runEach_alike {program program' : List Stmt} (h : Stmt.RenamesAll ρ marks program program') :
    SameAlike ρ F marks (runEach exec program) (runEach exec program') := by
  induction program generalizing program' with
  | nil =>
    cases h
    exact same_pure _
  | cons s rest ih =>
    cases h with
    | cons hs hrest => exact (hexec hs).next fun _ => ih hrest

/-- Lines that differ in the names of variables run alike, and show the same. -/
theorem runShowing_alike
    (heval : EvalAlike ρ eval)
    {program program' : List Stmt} (h : Stmt.RenamesAll ρ marks program program') :
    SameAlike ρ F marks (runShowing eval exec program) (runShowing eval exec program') := by
  induction program generalizing program' with
  | nil =>
    cases h
    exact same_pure _
  | cons s rest ih =>
    cases h with
    | @cons _ _ s' _ rest' hs hrest =>
      have hother : SameAlike ρ F marks (do let _ ← exec s; runShowing eval exec rest)
          (do let _ ← exec s'; runShowing eval exec rest') :=
        (hexec hs).next fun _ => ih hrest
      cases hs with
      | expression hvalue =>
        refine (heval hvalue).next fun value => ?_
        rw [hvalue.line_eq]
        exact (same_print value _).next fun _ => ih hrest
      | _ => exact hother

end Programs

/-- A program and a renaming of it come to the same. -/
theorem Mode.run_alike {ρ : Renaming} {F : World} {marks : List Bool} (mode : Mode) (fuel : Nat)
    {program program' : List Stmt} (h : Stmt.RenamesAll ρ marks program program') :
    SameAlike ρ F marks (mode.run fuel program) (mode.run fuel program') := by
  obtain ⟨heval, hexec⟩ := eval_exec_alike ρ fuel
  cases mode with
  | program => exact runEach_alike hexec h
  | line => exact runShowing_alike hexec heval h

section Plain

variable {ρ : Renaming} {visits : Visit → Prop} {s : Store}

/-- No frame of the store is that of a scope that is renamed. -/
def Store.plainWorld (s : Store) : World :=
  List.replicate s.frames.size false

/-- Before anything is renamed every frame is as it is. -/
theorem Store.getElem?_plainWorld {frame : Nat} {kind : FrameKind} (h : s.kind? frame = some kind) :
    s.plainWorld[frame]? = some false := by
  obtain ⟨f, hf, -⟩ := Option.map_eq_some_iff.mp h
  obtain ⟨hlt, -⟩ := Array.getElem?_eq_some_iff.mp hf
  exact List.getElem?_replicate_of_lt hlt

/-- Chains of frames in line with scopes are in line before anything is renamed. -/
theorem Store.Aligned.inLine (hglobal : s.kind? globalFrame = some .global) {shapes : List Shape}
    {chain : Chain} (h : s.Aligned shapes chain) :
    s.plainWorld.InLine (List.replicate shapes.length false) chain := by
  induction shapes generalizing chain with
  | nil =>
    rw [show chain = [globalFrame] from h]
    exact congrArg (fun renamed => [renamed]) (getElem?_plainWorld hglobal)
  | cons shape shapes ih =>
    cases chain with
    | nil => exact h.elim
    | cons frame chain => exact (ih h.2.2).cons (getElem?_plainWorld h.1.kind)

theorem Renaming.untouched_replicate (n : Nat) : Untouched (List.replicate n false) :=
  fun _ h => List.eq_of_mem_replicate h

/-- A sound store is like itself. -/
theorem Store.Sound.alike_self (h : s.Sound visits) : s.Alike ρ s.plainWorld s where
  size := List.length_replicate
  size' := rfl
  global := getElem?_plainWorld h.global
  slots {frame renamed name} hframe _ := by
    rw [List.eq_of_mem_replicate (List.mem_of_getElem? hframe), ρ.name_false]
  functions id := by
    cases hc : s.functions[id]? with
    | none => exact .none
    | some c =>
      obtain ⟨role, r, -, haligned, -⟩ := h.functions hc
      have hcode := c.code.renames_self ρ (Renaming.untouched_replicate r.shapes.length)
      exact .some ⟨rfl, rfl, rfl, _, haligned.inLine h.global, hcode⟩
  classes id := by
    cases hrecord : s.classes[id]? with
    | none => exact .none
    | some record =>
      refine .some ⟨rfl, rfl, fun name => ?_⟩
      cases hc : record.methods.find? name with
      | none => exact .none
      | some c =>
        obtain ⟨role, r, methods, shapes, -, -, -, haligned⟩ := h.methods hrecord hc
        have hcode := c.code.renames_self ρ (Renaming.untouched_replicate shapes.length).cons
        exact .some ⟨rfl, rfl, rfl, _, haligned.inLine h.global, hcode⟩
  instances := rfl

/-- A machine is like itself before anything is renamed. -/
theorem Machine.alike_self {m : Machine} (hstore : m.store.Sound visits) (hchain : m.chain = .global)
    (hdepths : m.depths = ρ.depths) : m.Alike ρ m.store.plainWorld [] m := by
  have haligned : m.store.Aligned [] m.chain := hchain
  exact ⟨hstore.alike_self, haligned.inLine hstore.global, hdepths, rfl⟩

end Plain

/-- Outcomes that are the same, but for the name of a variable that is missing, and for what has been warned
    about. -/
structure Outcome.Alike (ρ : Renaming) (o o' : Outcome) : Prop where
  status : o'.status = o.status
  output : o'.output = o.output
  errors : o'.errors = o.errors ∨
    ∃ line, o.errors = [.runtime ⟨.undefinedVariable ρ.old, line⟩] ∧
      o'.errors = [.runtime ⟨.undefinedVariable ρ.new, line⟩]

namespace Session

variable {ρ : Renaming} {F : World} {marks : List Bool}

/-- Runs that end alike have outcomes that are alike. -/
theorem conclude_alike {findings findings' : List Finding} (h : findings.filterMap Finding.error? = [])
    (h' : findings'.filterMap Finding.error? = []) {r r' : EStateM.Result Halt Machine Unit}
    (hmatch : Matches ρ F marks (fun _ a a' => a' = a) r r') (printed nextId nextId' : Nat) :
    (conclude (findings.map Report.ofFinding) printed nextId r).1.Alike ρ
      (conclude (findings'.map Report.ofFinding) printed nextId' r').1 := by
  have hsink {F : World} {m m' : Machine} (hm : m.Alike ρ F marks m') : m'.sink = m.sink := by rw [hm.same]
  have herrors := errors_conclude h printed nextId r
  have herrors' := errors_conclude h' printed nextId' r'
  cases hmatch with
  | ok hF ha hm => exact ⟨rfl, congrArg (·.textSince printed) (hsink hm), .inl (herrors'.trans herrors.symm)⟩
  | error hF he hm =>
    have houtput := congrArg (·.textSince printed) (hsink hm)
    rcases he with rfl | ⟨line, rfl, rfl⟩
    · exact ⟨rfl, houtput, .inl (herrors'.trans herrors.symm)⟩
    · exact ⟨rfl, houtput, .inr ⟨line, herrors, herrors'⟩⟩

variable {programs : List (List Stmt)} {s : Session} {source : String} {program : List Stmt}

/-- Local names do not matter. When a session accepts a program, and variables or parameters of the old name
    get a new one that does not occur in it, in whichever scopes of theirs, then binding finds no error in
    that either and decides the same depth for the same occurrences, and the outcome is the same, but for
    the name where it tells that the variable is missing. So any source that reads as the renamed program is
    accepted, and that is its outcome. -/
theorem Reached.renamed_alike (hs : Reached programs s) (haccept : s.accepted? source = some program)
    (hdepths : ρ.depths = (s.machine.note (resolve program).resolutions).depths)
    (hnew : ¬Occurs ρ.new program) (choice : Choice) (mode : Mode) (fuel : Nat) :
    let renamed := Stmt.renameAll ρ choice [] program
    (resolve renamed).errors = [] ∧
    Resolution.decisions (resolve renamed).resolutions = Resolution.decisions (resolve program).resolutions ∧
    (s.submit (mode.run fuel) source).1.Alike ρ (s.bindAndExecute (mode.run fuel) renamed).1 ∧
    ∀ source', (Grammar.readSource source' s.nextId).errors = [] →
      (Grammar.readSource source' s.nextId).parsed.complete? = some renamed →
      s.accepted? source' = some renamed ∧
        (s.submit (mode.run fuel) source').1 = (s.bindAndExecute (mode.run fuel) renamed).1 := by
  intro renamed
  have hsound := hs.sound.accepted haccept
  -- The name is new to every visit of the program, as its tokens occur in the program.
  have hclear : ρ.Clear (Visited [program]) :=
    { part := .part
      sound := fun hv => hdepths ▸ hsound.covers.sound (hv.mono (by simp))
      new := fun hv hmem => hnew (hv.occurs hmem) }
  have hstart : Visited [program] ⟨.stmts program, .start⟩ := .program (List.mem_singleton_self _)
  have hrenames : Stmt.RenamesAll ρ [] program renamed :=
    Stmt.renamesAll_renameAll hclear hstart choice [] nofun
  obtain ⟨hbound, hdecisions⟩ := resolve_renamed hclear hstart hrenames
  have hrun : Matches ρ s.machine.store.plainWorld [] (fun _ a a' => a' = a)
      (mode.run fuel program (s.machine.note (resolve program).resolutions))
      (mode.run fuel renamed (s.machine.note (resolve renamed).resolutions)) := by
    have hstore : (s.machine.note (resolve program).resolutions).store.Sound (Visited programs) :=
      hs.sound.store
    rw [Machine.note_congr _ hdecisions]
    exact (mode.run_alike fuel hrenames).step (List.prefix_refl _)
      (Machine.alike_self hstore hs.atRest.1 hdepths.symm)
  refine ⟨hbound, hdecisions, ?_, fun source' hread hcomplete => ⟨?_, ?_⟩⟩
  · rw [submit_of_accepted _ haccept, bindAndExecute_of_bound _ hbound]
    exact conclude_alike (errors_of_accepted haccept) hbound hrun _ _ _
  · exact accepted?_eq_some_iff.mpr ⟨hread, hcomplete, List.isEmpty_iff.mpr hbound⟩
  · rw [submit_of_read _ hread hcomplete, bindAndExecute_of_bound _ hbound, bindAndExecute_of_bound _ hbound]
    cases mode.run fuel renamed _ <;> rfl

/-- A variable that is declared late, behind an occurrence that stands for a global one, and missing in its
    own initializer. -/
theorem renamed_alike_in_block :
    let s := start .unlimited (.ticking 0)
    let source := "var a = true;\n{ print a; var a = a = true; }"
    let program := (s.accepted? source).getD []
    let ρ : Renaming := ⟨"a", "b", (s.machine.note (resolve program).resolutions).depths, by decide,
      ⟨by decide, by decide⟩, ⟨by decide, by decide⟩⟩
    let renamed := Stmt.renameAll ρ (· = [1, 0]) [] program
    s.accepted? source = some program ∧ ¬Occurs "b" program ∧ (resolve renamed).errors = [] ∧
      (s.submit (Mode.program.run 9) source).1.errors = [.runtime ⟨.undefinedVariable "a", 2⟩] ∧
      (s.bindAndExecute (Mode.program.run 9) renamed).1.errors = [.runtime ⟨.undefinedVariable "b", 2⟩] ∧
      (s.bindAndExecute (Mode.program.run 9) renamed).1.output = "true\n" ∧
      (s.submit (Mode.program.run 9) source).1.Alike ρ
        (s.bindAndExecute (Mode.program.run 9) renamed).1 := by
  intro s source program ρ renamed
  have haccept : s.accepted? source = some program := by
    have hsome : (s.accepted? source).isSome := by decide +kernel
    obtain ⟨accepted, haccepted⟩ := Option.isSome_iff_exists.mp hsome
    rw [show program = (s.accepted? source).getD [] from rfl, haccepted]
    rfl
  have hdepths : ρ.depths = (s.machine.note (resolve program).resolutions).depths := rfl
  have hnew : ¬Occurs "b" program := by decide +kernel
  obtain ⟨hbound, -, halike, -⟩ :=
    Reached.renamed_alike (.start .unlimited (.ticking 0)) haccept hdepths hnew (· = [1, 0]) .program 9
  exact ⟨haccept, hnew, hbound, by decide +kernel, by decide +kernel, by decide +kernel, halike⟩

end Session

end Lox
