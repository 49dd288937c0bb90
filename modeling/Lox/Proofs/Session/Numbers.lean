import Lox.Proofs.Evaluation.Relabeling
import Lox.Proofs.Session.Conclusion
import Lox.Proofs.Session.Sound

namespace Lox

namespace Session

variable {programs : List (List Stmt)} {s : Session} {source : String} {program : List Stmt}

/-- The numbers up to the next one stay as they are, and those from there on stay behind it. -/
structure KeepsNumbers (nextId : Nat) (f : Relabeling) : Prop where
  line : ∀ line, f.line line = line
  below : ∀ id, id < nextId → f.id id = id
  above : ∀ id, nextId ≤ id → nextId ≤ f.id id

/-- What keeps many numbers keeps fewer. -/
theorem KeepsNumbers.mono {f : Relabeling} {nextId nextId' : Nat} (h : KeepsNumbers nextId' f)
    (hle : nextId ≤ nextId') : KeepsNumbers nextId f where
  line := h.line
  below id hid := h.below id (Nat.lt_of_lt_of_le hid hle)
  above id hid := by
    rcases Nat.lt_or_ge id nextId' with hbelow | habove
    · rwa [h.below id hbelow]
    · exact Nat.le_trans hle (h.above id habove)

/-- An accepted program has none of the numbers to come. -/
theorem KeepsNumbers.accepted {f : Relabeling}
    (h : KeepsNumbers (Grammar.readSource source s.nextId).parsed.nextId f)
    (haccept : s.accepted? source = some program) : Stmt.relabelAll f program = program := by
  obtain ⟨hread, hcomplete, _⟩ := accepted?_eq_some_iff.mp haccept
  have hfresh := (Grammar.numbered_of_read hread hcomplete).2
  exact Stmt.relabelAll_eq_self h.line program fun id hid => h.below id (hfresh.bounds id hid).2

/-- Nothing is known about the numbers to come, and so it makes no difference where they are. -/
theorem Sound.depths_eq {f : Relabeling} (hs : s.Sound programs) (h : KeepsNumbers s.nextId f)
    (id : Nat) : s.machine.depths[f.id id]? = s.machine.depths[id]? := by
  rcases Nat.lt_or_ge id s.nextId with hbelow | habove
  · rw [h.below id hbelow]
  · rw [hs.unknown id habove, hs.unknown _ (h.above id habove)]

/-- No code of a session has a number that is still to come. -/
theorem Reached.store_relabel (hs : Reached programs s) {f : Relabeling}
    (h : KeepsNumbers s.nextId f) : s.machine.store.relabel f = s.machine.store := by
  induction hs with
  | start sink clock =>
    refine Store.relabel_eq_self (fun frame hframe => ?_)
      (fun c hc => absurd hc (Array.not_mem_empty c)) fun c hc => absurd hc (Array.not_mem_empty c)
    obtain rfl := List.mem_singleton.mp (Array.mem_toList_iff.mpr hframe)
    rfl
  | @submit programs s mode fuel source hs ih =>
    rw [nextId_submit] at h
    have hstore := ih (h.mono (Grammar.le_nextId source s.nextId))
    rcases s.submit_cases (mode.run fuel) source with
      ⟨program, haccept, hrun⟩ | ⟨_, hsame⟩ | ⟨_, program, _, _, hnote⟩
    · let m := s.machine.note (resolve program).resolutions
      have hdepths : ∀ id : Nat, m.depths[f.id id]? = m.depths[id]? :=
        (hs.sound.accepted haccept).depths_eq h
      have hmachine : m.relabel f = m :=
        congrArg (fun store => { m with store }) hstore
      have hresult := Mode.run_relabel hdepths mode fuel program
      rw [h.accepted haccept, hmachine] at hresult
      have hreached := (congrArg Run.reached hresult).trans Run.reached_mapResult
      rw [hrun]
      exact (congrArg Machine.store hreached).symm
    · rw [hsame]
      exact hstore
    · rw [hnote]
      exact hstore

/-- What is known about numbers to come makes no difference to the run of an accepted program. -/
theorem Reached.run_note (hs : Reached programs s) (haccept : s.accepted? source = some program)
    (mode : Mode) (fuel : Nat) {resolutions : List Resolution} {nextId : Nat}
    (hnew : ∀ r ∈ resolutions,
      (Grammar.readSource source s.nextId).parsed.nextId ≤ r.id ∧ r.id < nextId) :
    let m := s.machine.note (resolve program).resolutions
    mode.run fuel program (m.note resolutions) =
      Run.mapResult (·.note resolutions) (fun e => e) (mode.run fuel program m) := by
  intro m
  let middle := (Grammar.readSource source s.nextId).parsed.nextId
  -- The numbers to come are moved to where nothing is noted.
  let f : Relabeling := ⟨fun id => if id < middle then id else id + nextId, fun line => line⟩
  have hsound := hs.sound.accepted haccept
  have hkeeps : KeepsNumbers middle f := by
    refine ⟨fun _ => rfl, fun id hid => if_pos hid, fun id hid => ?_⟩
    have hmoved : f.id id = id + nextId := if_neg (Nat.not_lt.mpr hid)
    omega
  have hdepths (id : Nat) : (m.note resolutions).depths[f.id id]? = m.depths[id]? := by
    rw [Machine.depths_note_of_not_mem, hsound.depths_eq hkeeps]
    rintro hmem
    obtain ⟨r, hr, hid⟩ := List.mem_map.mp hmem
    obtain ⟨hlo, hhi⟩ := hnew r hr
    rcases Nat.lt_or_ge id middle with hbelow | habove
    · have hstays : f.id id = id := if_pos hbelow
      omega
    · have hmoved : f.id id = id + nextId := if_neg (Nat.not_lt.mpr habove)
      omega
  have hstart : { m.relabel f with depths := (m.note resolutions).depths } = m.note resolutions := by
    have hstore := hs.store_relabel (hkeeps.mono (Grammar.le_nextId source s.nextId))
    exact congrArg (fun store => { m.note resolutions with store }) hstore
  have hresult := Mode.run_relabel hdepths mode fuel program
  rw [hkeeps.accepted haccept, hstart] at hresult
  rw [hresult]
  refine Run.mapResult_congr ?_ fun e => ?_
  · have hafter : (s.submit (mode.run fuel) source).2.machine =
        Run.reached (mode.run fuel program m) := by
      rw [submit_of_accepted _ haccept, machine_conclude]
    have hstore := (hs.submit mode fuel source).store_relabel (by rwa [nextId_submit])
    have hknown : (Run.reached (mode.run fuel program m)).depths = m.depths :=
      (mode.run_keeps fuel program m).depths
    rw [hafter] at hstore
    generalize Run.reached (mode.run fuel program m) = m₁ at hstore hknown
    unfold Machine.relabel Machine.note
    dsimp only
    rw [hstore, hknown]
  · cases e <;> rfl

end Session

end Lox
