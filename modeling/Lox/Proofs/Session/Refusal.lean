import Lox.Proofs.Grammar.Rereading
import Lox.Proofs.Session.Joining
import Lox.Proofs.Session.Status

namespace Lox

namespace Relabeling

/-- The numbers all come so much later. -/
def shift (gap : Nat) : Relabeling :=
  ⟨fun id => id + gap, fun line => line⟩

/-- The numbers from `first` on come so much later. -/
def shiftFrom (first gap : Nat) : Relabeling :=
  ⟨fun id => if id < first then id else id + gap, fun line => line⟩

variable {first gap id id' : Nat}

theorem shiftFrom_of_lt (h : id < first) : (shiftFrom first gap).id id = id :=
  if_pos h

theorem shiftFrom_of_le (h : first ≤ id) : (shiftFrom first gap).id id = id + gap :=
  if_neg (Nat.not_lt.mpr h)

theorem shiftFrom_injective (h : (shiftFrom first gap).id id = (shiftFrom first gap).id id') : id = id' := by
  simp only [shiftFrom] at h
  split at h <;> split at h <;> omega

end Relabeling

namespace Grammar

/-- A source is read the same with numbers that come later. -/
theorem readSource_shift (source : String) (firstId gap : Nat) :
    readSource source (firstId + gap) =
      ⟨(readSource source firstId).lexErrors,
        (readSource source firstId).parsed.relabel (.shift gap)⟩ := by
  have htokens (tokens : List Token) : tokens.map (Token.relabel (.shift gap)) = tokens :=
    List.map_id'' (fun _ => rfl) tokens
  have hparse := parse_relabel (f := .shift gap) (fun n => Nat.add_right_comm n 1 gap) rfl
    ((items source).filterMap Item.token?) firstId
  rw [htokens] at hparse
  exact congrArg (SourceTree.mk _) hparse

/-- What is wrong with a source does not hang on the numbers in it. -/
theorem errors_shift (source : String) (firstId gap : Nat) :
    (readSource source (firstId + gap)).errors = (readSource source firstId).errors := by
  rw [readSource_shift]
  exact congrArg (fun errors => _ ++ errors.map Diagnostic.grammatical)
    (List.map_id'' (fun _ => rfl) (readSource source firstId).parsed.errors)

theorem complete?_relabel (f : Relabeling) (p : Parsed) :
    (p.relabel f).complete? = p.complete?.map (Stmt.relabelAll f) := by
  obtain ⟨entries, errors, nextId⟩ := p
  unfold Parsed.complete? Parsed.relabel
  dsimp only
  induction entries with
  | nil => rfl
  | cons entry rest ih =>
    rw [List.map_cons, List.mapM_cons, List.mapM_cons, ih]
    cases entry with
    | none => rfl
    | some s => cases rest.mapM id <;> rfl

/-- A program that is read with numbers from `first` on comes with the numbers that come later. -/
theorem complete?_shift {source : String} {first firstId gap : Nat} {program : List Stmt}
    (hfirst : first ≤ firstId) (herrors : (readSource source firstId).errors = [])
    (hprogram : (readSource source firstId).parsed.complete? = some program) :
    (readSource source (firstId + gap)).parsed.complete? =
      some (Stmt.relabelAll (.shiftFrom first gap) program) := by
  have hread : (readSource source (firstId + gap)).parsed.complete? =
      some (Stmt.relabelAll (.shift gap) program) := by
    rw [readSource_shift, complete?_relabel, hprogram]
    rfl
  -- Every number is one that comes later, so it stays when the earlier ones are moved back.
  let back : Relabeling := ⟨fun id => if id < first + gap then id - gap else id, fun line => line⟩
  have hback : (Relabeling.shift gap).andThen back = .shiftFrom first gap := by
    refine congrArg (fun id => Relabeling.mk id fun line => line) (funext fun id => ?_)
    rcases Nat.lt_or_ge id first with hlt | hge
    · refine (if_pos (Nat.add_lt_add_right hlt gap)).trans ?_
      rw [if_pos hlt]
      exact Nat.add_sub_cancel id gap
    · refine (if_neg (Nat.not_lt.mpr (Nat.add_le_add_right hge gap))).trans ?_
      rw [if_neg (Nat.not_lt.mpr hge)]
      rfl
  have hfresh := (numbered_of_read ((errors_shift source firstId gap).trans herrors) hread).2
  have hstays : Stmt.relabelAll back (Stmt.relabelAll (.shift gap) program) =
      Stmt.relabelAll (.shift gap) program := by
    refine Stmt.relabelAll_eq_self (fun _ => rfl) _ fun id hid => if_neg ?_
    have hlo := (hfresh.bounds id hid).1
    omega
  rw [hread, ← hback, ← Stmt.relabelAll_relabelAll, hstays]

end Grammar

/-- What binding decides is known alike under numbers that do not meet. -/
theorem Machine.depths_note_relabel {f : Relabeling} (hf : ∀ {id id'}, f.id id = f.id id' → id = id')
    {m m' : Machine} (hdepths : ∀ id : Nat, m'.depths[f.id id]? = m.depths[id]?)
    (resolutions : List Resolution) (id : Nat) :
    (m'.note (resolutions.map (Resolution.relabel f))).depths[f.id id]? =
      (m.note resolutions).depths[id]? := by
  induction resolutions generalizing m m' with
  | nil => exact hdepths id
  | cons r rest ih =>
    have hfirst (id : Nat) : (m'.note [r.relabel f]).depths[f.id id]? = (m.note [r]).depths[id]? := by
      have hmeets : (r.relabel f).id = f.id id ↔ r.id = id := ⟨hf, fun h => congrArg f.id h⟩
      rw [depths_note_single, depths_note_single, hdepths]
      simp only [hmeets]
      rfl
    exact ih hfirst

namespace Session

/-- The second session has seen more: numbers from `first` on come later there, and it may know something
    about those that are left out. -/
structure Shifted (first gap : Nat) (s s' : Session) : Prop where
  first_le : first ≤ s.nextId
  nextId : s'.nextId = s.nextId + gap
  machine : s'.machine =
    { s.machine.relabel (.shiftFrom first gap) with depths := s'.machine.depths }
  depths : ∀ id : Nat,
    s'.machine.depths[(Relabeling.shiftFrom first gap).id id]? = s.machine.depths[id]?

variable {first gap : Nat} {s s' : Session} {source : String} {program : List Stmt}

/-- How a source fares does not depend on the numbers in its code. -/
theorem conclude_shiftFrom (reports : List Report) (printed nextId nextId' : Nat)
    (depths : Std.TreeMap Nat Nat) (r : EStateM.Result Halt Machine Unit) :
    conclude reports printed nextId'
        (Run.mapResult (fun m => { m.relabel (.shiftFrom first gap) with depths })
          (Halt.relabel (.shiftFrom first gap)) r) =
      ((conclude reports printed nextId r).1,
        ⟨{ (Run.reached r).relabel (.shiftFrom first gap) with depths }, nextId'⟩) := by
  cases r with
  | ok _ m => rfl
  | error e m => cases e <;> rfl

namespace Shifted

/-- Both sessions read a source alike, and the second one goes on later. -/
theorem errors_eq (h : Shifted first gap s s') :
    (Grammar.readSource source s'.nextId).errors = (Grammar.readSource source s.nextId).errors := by
  rw [h.nextId]
  exact Grammar.errors_shift source s.nextId gap

/-- A source takes as many numbers in both sessions. -/
theorem nextId_eq (h : Shifted first gap s s') :
    (Grammar.readSource source s'.nextId).parsed.nextId =
      (Grammar.readSource source s.nextId).parsed.nextId + gap := by
  rw [h.nextId, Grammar.readSource_shift]
  rfl

/-- Binding decides the same with numbers that have gone up. -/
theorem resolve_eq (first gap : Nat) (program : List Stmt) :
    resolve (Stmt.relabelAll (.shiftFrom first gap) program) =
      ⟨(resolve program).resolutions.map (Resolution.relabel (.shiftFrom first gap)),
        (resolve program).findings⟩ := by
  rw [resolve_relabel (fun _ _ => Iff.rfl) program]
  refine congrArg (Resolved.mk _) (List.map_id'' (fun finding => ?_) _)
  cases finding <;> rfl

/-- Both sessions take over the same decisions. -/
theorem note (h : Shifted first gap s s') {nextId : Nat} (hnext : first ≤ nextId)
    (resolutions : List Resolution) :
    Shifted first gap ⟨s.machine.note resolutions, nextId⟩
      ⟨s'.machine.note (resolutions.map (Resolution.relabel (.shiftFrom first gap))), nextId + gap⟩ where
  first_le := hnext
  nextId := rfl
  machine := by
    let noted := resolutions.map (Resolution.relabel (.shiftFrom first gap))
    exact congrArg (fun m : Machine => { m with depths := (s'.machine.note noted).depths }) h.machine
  depths := Machine.depths_note_relabel Relabeling.shiftFrom_injective h.depths resolutions

/-- Both sessions run an accepted program alike. -/
theorem run (h : Shifted first gap s s') (reports : List Report) (nextId : Nat) (hnext : first ≤ nextId)
    (mode : Mode) (fuel : Nat) (program : List Stmt) :
    let here := conclude reports s.machine.sink.pieces.length nextId (mode.run fuel program s.machine)
    let there := conclude reports s'.machine.sink.pieces.length (nextId + gap)
      (mode.run fuel (Stmt.relabelAll (.shiftFrom first gap) program) s'.machine)
    there.1 = here.1 ∧ Shifted first gap here.2 there.2 := by
  have hrun := Mode.run_relabel h.depths mode fuel program
  have hknown : (Run.reached (mode.run fuel program s.machine)).depths = s.machine.depths :=
    (mode.run_keeps fuel program s.machine).depths
  have hsink : s'.machine.sink = s.machine.sink := (congrArg Machine.sink h.machine :)
  rw [← h.machine] at hrun
  dsimp only
  rw [hsink, hrun, conclude_shiftFrom reports _ nextId, after_conclude]
  refine ⟨rfl, ?_⟩
  exact ⟨hnext, rfl, rfl, fun id => (h.depths id).trans (congrArg (·[id]?) hknown).symm⟩

/-- Whatever both sessions are given next, it fares the same, and the second one still has seen more. -/
theorem submit (h : Shifted first gap s s') (mode : Mode) (fuel : Nat) (source : String) :
    (s'.submit (mode.run fuel) source).1 = (s.submit (mode.run fuel) source).1 ∧
      Shifted first gap (s.submit (mode.run fuel) source).2 (s'.submit (mode.run fuel) source).2 := by
  have hnext := Nat.le_trans h.first_le (Grammar.le_nextId source s.nextId)
  by_cases hread : (Grammar.readSource source s.nextId).errors = []
  · obtain ⟨program, hprogram⟩ := Grammar.complete?_of_errors hread
    have hread' : (Grammar.readSource source s'.nextId).errors = [] := h.errors_eq.trans hread
    have hprogram' : (Grammar.readSource source s'.nextId).parsed.complete? =
        some (Stmt.relabelAll (.shiftFrom first gap) program) := by
      rw [h.nextId]
      exact Grammar.complete?_shift h.first_le hread hprogram
    have hresolve := resolve_eq first gap program
    have herrors : (resolve (Stmt.relabelAll (.shiftFrom first gap) program)).errors =
        (resolve program).errors := (congrArg Resolved.errors hresolve :)
    have hnoted := h.note hnext (resolve program).resolutions
    by_cases hbound : (resolve program).errors = []
    · rw [submit_of_accepted _ (accepted?_eq_some_iff.mpr ⟨hread, hprogram, List.isEmpty_iff.mpr hbound⟩),
        submit_of_accepted _ (accepted?_eq_some_iff.mpr
          ⟨hread', hprogram', List.isEmpty_iff.mpr (herrors.trans hbound)⟩), hresolve, h.nextId_eq]
      exact hnoted.run _ _ hnext mode fuel program
    · rw [submit_of_unbound _ hread hprogram hbound,
        submit_of_unbound _ hread' hprogram' (fun hnone => hbound (herrors.symm.trans hnone)), hresolve,
        h.nextId_eq]
      exact ⟨rfl, hnoted⟩
  -- Lexical and syntax errors do not depend on the numbers, so both sessions refuse the source.
  · rw [submit_of_unread _ hread, submit_of_unread _ (fun hnone => hread (h.errors_eq.symm.trans hnone)),
      h.errors_eq, h.nextId_eq]
    exact ⟨rfl, hnext, rfl, h.machine, h.depths⟩

end Shifted

variable {programs : List (List Stmt)} {mode : Mode} {fuel : Nat}

/-- A refused source has used up numbers, and something may be known about these and no others. -/
theorem refused_submit (run : List Stmt → Run Unit) (h : (s.submit run source).1.status = .staticError) :
    ∃ resolutions : List Resolution, (s.submit run source).2 =
        ⟨s.machine.note resolutions, (Grammar.readSource source s.nextId).parsed.nextId⟩ ∧
      ∀ id ∈ resolutions.map Resolution.id,
        s.nextId ≤ id ∧ id < (Grammar.readSource source s.nextId).parsed.nextId := by
  by_cases hread : (Grammar.readSource source s.nextId).errors = []
  · obtain ⟨program, hprogram⟩ := Grammar.complete?_of_errors hread
    by_cases hbound : (resolve program).errors = []
    · rw [submit_of_accepted _ (accepted?_eq_some_iff.mpr ⟨hread, hprogram, List.isEmpty_iff.mpr hbound⟩),
        status_conclude] at h
      generalize Run.halt? _ = halt? at h
      rcases halt? with _ | e | _ <;> cases h
    · refine ⟨(resolve program).resolutions, congrArg Prod.snd (submit_of_unbound run hread hprogram hbound),
        fun id hid => ?_⟩
      exact (Grammar.numbered_of_read hread hprogram).2.bounds id ((resolve_ids program).subset hid)
  · exact ⟨[], congrArg Prod.snd (submit_of_unread run hread), nofun⟩

/-- A session that has been given a refused source has seen more, and that is all. -/
theorem Reached.shifted (hs : Reached programs s)
    (h : (s.submit (mode.run fuel) source).1.status = .staticError) :
    Shifted s.nextId ((s.submit (mode.run fuel) source).2.nextId - s.nextId) s
      (s.submit (mode.run fuel) source).2 := by
  obtain ⟨resolutions, hafter, hids⟩ := refused_submit _ h
  have hle := Grammar.le_nextId source s.nextId
  rw [hafter]
  generalize (Grammar.readSource source s.nextId).parsed.nextId = nextId at hids hle
  dsimp only
  have hkeeps : KeepsNumbers s.nextId (.shiftFrom s.nextId (nextId - s.nextId)) := by
    refine ⟨fun _ => rfl, fun id hid => Relabeling.shiftFrom_of_lt hid, fun id hid => ?_⟩
    rw [Relabeling.shiftFrom_of_le hid]
    omega
  refine ⟨Nat.le_refl _, by dsimp only; omega, ?_, fun id => ?_⟩
  · have hstore := hs.store_relabel hkeeps
    exact congrArg (fun store => { s.machine.note resolutions with store }) hstore.symm
  · rw [Machine.depths_note_of_not_mem, hs.sound.depths_eq hkeeps]
    intro hmem
    obtain ⟨hlo, hhi⟩ := hids _ hmem
    rcases Nat.lt_or_ge id s.nextId with hlt | hge
    · rw [Relabeling.shiftFrom_of_lt hlt] at hlo
      omega
    · rw [Relabeling.shiftFrom_of_le hge] at hhi
      omega

end Session

/-- A source that a session is given, with the way to run it. -/
structure Submission where
  mode : Mode
  fuel : Nat
  source : String

namespace Session

/-- How sources fare that a session is given one after the other. -/
def outcomes (s : Session) : List Submission → List Outcome
  | [] => []
  | q :: later =>
    (s.submit (q.mode.run q.fuel) q.source).1 :: (s.submit (q.mode.run q.fuel) q.source).2.outcomes later

/-- Sessions that differ by what has been refused have the same outcomes. -/
theorem Shifted.outcomes_eq {first gap : Nat} {s s' : Session} (h : Shifted first gap s s')
    (later : List Submission) : s'.outcomes later = s.outcomes later := by
  induction later generalizing s s' with
  | nil => rfl
  | cons q later ih =>
    obtain ⟨houtcome, hshifted⟩ := h.submit q.mode q.fuel q.source
    rw [outcomes, outcomes, houtcome, ih hshifted]

/-- A refused source leaves no trace. Whatever a session is given after it, and however that is run, comes
    to the same, prints the same and is said the same about, as if the refused source had not been there. -/
theorem Reached.outcomes_after_refusal {programs : List (List Stmt)} {s : Session}
    (hs : Reached programs s) (mode : Mode) (fuel : Nat) (source : String)
    (hrefused : (s.submit (mode.run fuel) source).1.status = .staticError) (later : List Submission) :
    (s.submit (mode.run fuel) source).2.outcomes later = s.outcomes later :=
  (hs.shifted hrefused).outcomes_eq later

/-- A program with a `return` outside of functions is refused when its block has been bound already, and
    the function from before runs on as it would have. -/
theorem outcomes_after_refused_return :
    let s := ((start .unlimited (.ticking 0)).submit (Mode.program.run 100)
      "fun f() { var b = 1; { return b; } }").2
    let refused := s.submit (Mode.program.run 100) "{ var a; { a; } } return;"
    refused.1.status = .staticError ∧
      ∀ later, refused.2.outcomes (⟨.line, 100, "f();"⟩ :: later) =
        s.outcomes (⟨.line, 100, "f();"⟩ :: later) := by
  intro s refused
  have hrefused : refused.1.status = .staticError := by decide +kernel
  exact ⟨hrefused, fun later =>
    Reached.outcomes_after_refusal (.submit .program 100 _ (.start .unlimited (.ticking 0))) .program 100 _
      hrefused _⟩

end Session

end Lox
