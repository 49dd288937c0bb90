import Mathlib.Logic.Relation
import Lox.Proofs.Grammar.Accounting
import Lox.Proofs.Session.Sound

namespace Lox

namespace Grammar

/-- The occurrences of what has been read of some tokens, with errors or without, have numbers of their
    own, from the first number given up to the next one. -/
theorem fresh_parse (tokens : List Token) (firstId : Nat) :
    Fresh firstId (parse tokens firstId).nextId (Stmt.idsAll (parse tokens firstId).program) := by
  obtain ⟨l, -, hids, -, -, hprogram⟩ := parse_accounts tokens firstId
  have hle : (Stmt.idsAll (parse tokens firstId).program : Multiset Nat) ≤
      Multiset.Ico firstId (parse tokens firstId).nextId := hids ▸ hprogram.1
  exact ⟨Multiset.coe_nodup.mp (Multiset.nodup_of_le hle Multiset.nodup_Ico),
    fun id hid => Multiset.mem_Ico.mp (Multiset.mem_of_le hle hid)⟩

end Grammar

namespace Session

/-- What the session reads of a source: the declarations that can be read, whatever is wrong with the
    others. -/
def tree (s : Session) (source : String) : List Stmt :=
  (Grammar.readSource source s.nextId).parsed.program

/-- A session that has been given some sources, in either way and with whatever outcome, and what it has
    read of them, the last one first. -/
inductive Produced : List (List Stmt) → Session → Prop where
  | start (sink : Sink) (clock : Clock) : Produced [] (.start sink clock)
  | submit {trees : List (List Stmt)} {s : Session} (mode : Mode) (fuel : Nat) (source : String)
      (hs : Produced trees s) : Produced (s.tree source :: trees) (s.submit (mode.run fuel) source).2

/-- One session comes from another by some more sources. -/
def Leads : Session → Session → Prop :=
  Relation.ReflTransGen fun s s' => ∃ (mode : Mode) (fuel : Nat) (source : String),
    s' = (s.submit (mode.run fuel) source).2

variable {trees : List (List Stmt)} {s s' : Session} {source : String} {id : Nat}

/-- What a session has produced it has reached. -/
theorem Produced.reached (hs : Produced trees s) : ∃ programs, Reached programs s := by
  induction hs with
  | start sink clock => exact ⟨[], .start sink clock⟩
  | submit mode fuel source _ ih =>
    obtain ⟨programs, hs⟩ := ih
    exact ⟨_, hs.submit mode fuel source⟩

theorem fresh_tree (s : Session) (source : String) :
    Fresh s.nextId (Grammar.readSource source s.nextId).parsed.nextId (Stmt.idsAll (s.tree source)) :=
  Grammar.fresh_parse _ s.nextId

/-- No number is given out twice. -/
theorem Produced.fresh (hs : Produced trees s) : Fresh 0 s.nextId (trees.flatMap Stmt.idsAll) := by
  induction hs with
  | start sink clock => exact .nil
  | @submit trees s mode fuel source _ ih =>
    rw [List.flatMap_cons, nextId_submit]
    exact ih.prepend (s.fresh_tree source) (Nat.zero_le _) (Grammar.le_nextId source s.nextId)

/-- No source sets the numbers of a session back. -/
theorem nextId_le_submit (s : Session) (run : List Stmt → Run Unit) (source : String) :
    s.nextId ≤ (s.submit run source).2.nextId := by
  rw [nextId_submit]
  exact Grammar.le_nextId source s.nextId

/-- A source that is read is noted, and then depths stay as they are, whatever happens. -/
theorem depths_submit_of_read (mode : Mode) (fuel : Nat)
    (h : (Grammar.readSource source s.nextId).errors = []) :
    (s.submit (mode.run fuel) source).2.machine.depths =
      (s.machine.note (resolve (s.tree source)).resolutions).depths := by
  rw [submit_of_read (mode.run fuel) h (Grammar.complete?_of_read h), machine_bindAndExecute]
  split
  · exact (mode.run_keeps fuel _ _).depths
  · rfl

/-- What is known about the numbers given out so far is not touched by another source. -/
theorem depths_submit_of_lt (mode : Mode) (fuel : Nat) (source : String) (hid : id < s.nextId) :
    (s.submit (mode.run fuel) source).2.machine.depths[id]? = s.machine.depths[id]? := by
  by_cases h : (Grammar.readSource source s.nextId).errors = []
  · rw [depths_submit_of_read mode fuel h]
    refine Machine.depths_note_of_not_mem fun hmem => ?_
    have hbounds := (s.fresh_tree source).bounds id ((resolve_ids _).subset hmem)
    exact absurd hbounds.1 (Nat.not_le.mpr hid)
  · rw [machine_submit_of_not_read _ (.inl h)]

/-- A later session knows of earlier numbers what was known of them. -/
theorem Leads.depths (h : s.Leads s') (hid : id < s.nextId) :
    s'.machine.depths[id]? = s.machine.depths[id]? := by
  induction h using Relation.ReflTransGen.head_induction_on with
  | refl => rfl
  | head hstep _ ih =>
    obtain ⟨mode, fuel, source, rfl⟩ := hstep
    have hlater := Nat.lt_of_lt_of_le hid (nextId_le_submit _ (mode.run fuel) source)
    rw [ih hlater, depths_submit_of_lt mode fuel source hid]

/-- What is decided for a program is known, and it is all that is known about its occurrences. -/
theorem Reached.depths_of_read {programs : List (List Stmt)} (hs : Reached programs s) (mode : Mode)
    (fuel : Nat) (h : (Grammar.readSource source s.nextId).errors = [])
    (hid : id ∈ Stmt.idsAll (s.tree source)) :
    let known := (s.submit (mode.run fuel) source).2.machine.depths[id]?
    (∀ r ∈ (resolve (s.tree source)).resolutions, r.id = id → known = r.depth) ∧
      (id ∉ (resolve (s.tree source)).resolutions.map Resolution.id → known = none) := by
  have hfresh := s.fresh_tree source
  have hunknown : s.machine.depths[id]? = none := hs.sound.unknown id (hfresh.bounds id hid).1
  dsimp only
  rw [depths_submit_of_read mode fuel h]
  refine ⟨?_, fun hmem => ?_⟩
  · rintro r hr rfl
    rw [Machine.depths_note ((resolve_ids _).nodup hfresh.nodup) hr, hunknown]
    cases r.depth <;> rfl
  · rw [Machine.depths_note_of_not_mem hmem, hunknown]

/-- What is known already can be noted again. -/
theorem depths_note_again {m : Machine} {resolutions : List Resolution}
    (hnodup : (resolutions.map Resolution.id).Nodup)
    (hknown : ∀ r ∈ resolutions, m.depths[r.id]? = r.depth) (id : Nat) :
    (m.note resolutions).depths[id]? = m.depths[id]? := by
  by_cases hmem : id ∈ resolutions.map Resolution.id
  · obtain ⟨r, hr, rfl⟩ := List.mem_map.mp hmem
    rw [Machine.depths_note hnodup hr, hknown r hr]
    cases r.depth <;> rfl
  · exact Machine.depths_note_of_not_mem hmem

/-- Numbers are given out once, and decisions are for good. The occurrences of all that a session has
    read, whatever became of it, have different numbers, all below the next one. Whatever the session is
    given after a source, what it knows about the occurrences in that source stays as it is: if the source
    was read without an error, what has been decided for each of them, or nothing if nothing has. So it
    makes no difference to decide about them once more. -/
theorem Produced.depths_for_good (hs : Produced trees s) :
    (trees.flatMap Stmt.idsAll).Nodup ∧ (∀ id ∈ trees.flatMap Stmt.idsAll, id < s.nextId) ∧
    ∀ (mode : Mode) (fuel : Nat) (source : String) (later : Session),
      (s.submit (mode.run fuel) source).2.Leads later →
      let resolutions := (resolve (s.tree source)).resolutions
      (∀ id ∈ Stmt.idsAll (s.tree source), later.machine.depths[id]? =
        (s.submit (mode.run fuel) source).2.machine.depths[id]?) ∧
      ((Grammar.readSource source s.nextId).errors = [] →
        (∀ r ∈ resolutions, later.machine.depths[r.id]? = r.depth) ∧
        (∀ id ∈ Stmt.idsAll (s.tree source), id ∉ resolutions.map Resolution.id →
          later.machine.depths[id]? = none) ∧
        ∀ id : Nat, (later.machine.note resolutions).depths[id]? = later.machine.depths[id]?) := by
  refine ⟨hs.fresh.nodup, fun id hid => (hs.fresh.bounds id hid).2, fun mode fuel source later hlater => ?_⟩
  obtain ⟨programs, hreached⟩ := hs.reached
  have hfresh := s.fresh_tree source
  have hsame : ∀ id ∈ Stmt.idsAll (s.tree source), later.machine.depths[id]? =
      (s.submit (mode.run fuel) source).2.machine.depths[id]? := by
    intro id hid
    refine hlater.depths ?_
    rw [nextId_submit]
    exact (hfresh.bounds id hid).2
  refine ⟨hsame, fun hread => ?_⟩
  have hknown : ∀ r ∈ (resolve (s.tree source)).resolutions, later.machine.depths[r.id]? = r.depth := by
    intro r hr
    have hid := (resolve_ids (s.tree source)).subset (List.mem_map_of_mem hr)
    rw [hsame r.id hid, (hreached.depths_of_read mode fuel hread hid).1 r hr rfl]
  refine ⟨hknown, fun id hid hmem => ?_, ?_⟩
  · rw [hsame id hid, (hreached.depths_of_read mode fuel hread hid).2 hmem]
  · exact depths_note_again ((resolve_ids _).nodup hfresh.nodup) hknown

/-- After a source that is given up behind its second occurrence the third one gets the number 2; what is
    decided about it is known after a source that fails when it is run. -/
theorem depths_for_good_after_errors :
    let s₀ := start .unlimited (.ticking 0)
    let first := "{ var b = 1; b; } f(;"
    let s := (s₀.submit (Mode.program.run 9) first).2
    let source := "{ var x = 1; print x; }"
    let s₁ := (s.submit (Mode.program.run 9) source).2
    let later := (s₁.submit (Mode.line.run 9) "y;").2
    Produced [s₀.tree first] s ∧ Stmt.idsAll (s₀.tree first) = [0] ∧ s₁.Leads later ∧
      (Grammar.readSource source s.nextId).errors = [] ∧
      (resolve (s.tree source)).resolutions = [⟨"x", 2, some 0⟩] ∧
      later.machine.depths[2]? = some 0 := by
  intro s₀ first s source s₁ later
  have hs : Produced [s₀.tree first] s := (Produced.start _ _).submit .program 9 first
  have hids : Stmt.idsAll (s₀.tree first) = [0] := by decide +kernel
  have hlater : s₁.Leads later := .single ⟨.line, 9, "y;", rfl⟩
  have hread : (Grammar.readSource source s.nextId).errors = [] := by decide +kernel
  have hresolutions : (resolve (s.tree source)).resolutions = [⟨"x", 2, some 0⟩] := by decide +kernel
  have hknown := ((hs.depths_for_good.2.2 .program 9 source later hlater).2 hread).1
  exact ⟨hs, hids, hlater, hread, hresolutions, hknown _ (hresolutions ▸ List.mem_singleton.mpr rfl)⟩

end Session

end Lox
