import Lox.Proofs.Grammar.Statement

namespace Lox.Grammar

/-- Entries that are all there are those of a program. -/
theorem entries_numbered {entries : List (Option Stmt)} {lo hi : Nat}
    (h : Spread EntryNumbered entries lo hi) :
    ∃ program, entries = program.map some ∧ Spread Stmt.Numbered program lo hi := by
  induction entries generalizing lo with
  | nil => exact ⟨[], rfl, h⟩
  | cons entry rest ih =>
    obtain ⟨mid, hlo, hhi, ⟨s, rfl, hs⟩, hrest⟩ := h
    obtain ⟨program, rfl, hspread⟩ := ih hrest
    exact ⟨s :: program, rfl, mid, hlo, hhi, hs, hspread⟩

/-- The entries of a program are numbered in a row where there is no error. -/
theorem reads_entriesFrom {declaration : Reader (Option Stmt)} (h : Reads declaration EntryNumbered)
    (count : Nat) (before : List (Option Stmt)) :
    Reads (entriesFrom declaration count before) (Behind EntryNumbered before) := by
  have hmono {lo mid hi : Nat} {entry : Option Stmt} (hlo : lo ≤ mid)
      (hentry : EntryNumbered entry mid hi) : EntryNumbered entry lo hi := by
    obtain ⟨s, rfl, hs⟩ := hentry
    exact ⟨s, rfl, hs.mono hlo (Nat.le_refl hi)⟩
  induction count generalizing before with
  | zero => exact reads_pure fun n => .nil before n
  | succ count ih =>
    apply reads_atEnd.bind
    intro ended lo
    split
    · exact reads_pure fun n hn _ _ => (Behind.nil before n).below hn (hmono hn)
    · apply h.bind
      intro entry mid
      apply (ih (entry :: before)).mono
      intro entries mid' hi hhi hentries hmid' _ hentry hmid _ _
      exact hentries.cons (hmono hmid hentry) (Nat.le_trans hmid hmid') hhi

/-- Reading numbers upwards, and without an error every declaration is there. -/
theorem parse_numbered {tokens : List Token} {firstId : Nat}
    (hspelled : (State.start tokens firstId).Spelled) :
    firstId ≤ (parse tokens firstId).nextId ∧ ((parse tokens firstId).errors = [] →
      ∃ program, (parse tokens firstId).entries = program.map some ∧
        Spread Stmt.Numbered program firstId (parse tokens firstId).nextId) := by
  have hreads := reads_entriesFrom (Rules.sound_below (tokens.length + 1)).declaration tokens.length []
  unfold parse
  simp only
  split
  · rename_i entries after hread
    obtain ⟨_, hnext, herrors⟩ := hreads.ok hspelled hread
    refine ⟨hnext, fun hnone => ?_⟩
    obtain ⟨_, hentries⟩ := herrors (List.reverse_eq_nil_iff.mp hnone)
    exact entries_numbered hentries.spread
  · rename_i e after hread
    refine ⟨(hreads.error hspelled hread).2, fun hnone => ?_⟩
    cases List.reverse_eq_nil_iff.mp hnone

variable {source : String} {firstId : Nat} {program : List Stmt}

/-- The tokens of a source are spelled as their kinds say. -/
theorem spelled_start (source : String) (firstId : Nat) :
    (State.start ((items source).filterMap Item.token?) firstId).Spelled := by
  intro t ht
  rw [rest_start] at ht
  exact tokens_spelled source t ((List.takeWhile_sublist _).subset ht)

/-- The numbers go up from the first one, also where an error is found. -/
theorem le_nextId (source : String) (firstId : Nat) :
    firstId ≤ (readSource source firstId).parsed.nextId :=
  (parse_numbered (spelled_start source firstId)).1

theorem Parsed.complete?_of_entries {parsed : Parsed} (h : parsed.entries = program.map some) :
    parsed.complete? = some program := by
  unfold Parsed.complete?
  rw [h, List.mapM_map]
  exact (List.mapM_pure (m := Option) (l := program) (f := id)).trans (congrArg some (List.map_id program))

theorem Parsed.program_of_entries {parsed : Parsed} (h : parsed.entries = program.map some) :
    parsed.program = program := by
  unfold Parsed.program
  rw [h, List.filterMap_map]
  exact List.filterMap_some

/-- Every declaration of a source without an error has been read. -/
theorem entries_of_read (h : (readSource source firstId).errors = []) :
    ∃ program, (readSource source firstId).parsed.entries = program.map some ∧
      Spread Stmt.Numbered program firstId (readSource source firstId).parsed.nextId := by
  obtain ⟨_, hgrammatical⟩ := List.append_eq_nil_iff.mp h
  exact (parse_numbered (spelled_start source firstId)).2 (List.map_eq_nil_iff.mp hgrammatical)

/-- What is read without an error is read as a whole. -/
theorem complete?_of_read (h : (readSource source firstId).errors = []) :
    (readSource source firstId).parsed.complete? = some (readSource source firstId).parsed.program := by
  obtain ⟨_, hentries, _⟩ := entries_of_read h
  rw [Parsed.complete?_of_entries hentries, Parsed.program_of_entries hentries]

/-- A source without an error is read as a proper program with numbers of its own. -/
theorem numbered_of_read (herrors : (readSource source firstId).errors = [])
    (hprogram : (readSource source firstId).parsed.complete? = some program) :
    Stmt.AllProper program ∧
      Fresh firstId (readSource source firstId).parsed.nextId (Stmt.idsAll program) := by
  obtain ⟨_, hentries, hspread⟩ := entries_of_read herrors
  cases (Parsed.complete?_of_entries hentries).symm.trans hprogram
  exact hspread.stmts

end Lox.Grammar
