import Lox.Proofs.Binding.Breaks
import Lox.Proofs.Grammar.Accounting
import Lox.Proofs.Grammar.Rereading

namespace Lox

/-- The mark of a token is told by its site. -/
theorem Site.ofMark_injective : Function.Injective Site.ofMark := by
  rintro ⟨_, _⟩ ⟨_, _⟩ h
  cases h
  rfl

/-- The tokens, each on a line of its own. The first line is left to what has no token. -/
def Token.apart (tokens : List Token) : List Token :=
  tokens.mapIdx fun i token => ⟨⟨token.lexeme, i + 2⟩, token.kind⟩

/-- From the lines that tell the tokens apart back to the lines that they are on. -/
def Token.back (tokens : List Token) : Relabeling :=
  .ofLine fun line => if line < 2 then line else tokens[line - 2]?.elim line fun token => token.line

/-- Tokens that are told apart can be told what they were. -/
theorem Token.map_back_apart (tokens : List Token) :
    (Token.apart tokens).map (Token.relabel (Token.back tokens)) = tokens := by
  apply List.ext_getElem (by simp [Token.apart])
  intro i hi hi'
  have hline : (Token.back tokens).line (i + 2) = tokens[i].line := by
    rw [Token.back, Relabeling.ofLine]
    dsimp only
    rw [if_neg (by omega : ¬ i + 2 < 2), Nat.add_sub_cancel, List.getElem?_eq_getElem hi']
    rfl
  simp [Token.apart, Token.relabel, Mark.relabel, hline]

/-- Every break is told apart by its place among the tokens. -/
theorem Token.mem_breakMarks_apart {tokens : List Token} {mark : Mark}
    (h : mark ∈ breakMarks (Token.apart tokens)) :
    ∃ i token, tokens[i]? = some token ∧ token.kind = .break ∧ mark = ⟨token.lexeme, i + 2⟩ := by
  simp only [breakMarks, Multiset.mem_coe, List.mem_map, List.mem_filter, Token.apart,
    List.mem_mapIdx, decide_eq_true_eq] at h
  obtain ⟨_, ⟨⟨i, hi, rfl⟩, hkind⟩, rfl⟩ := h
  exact ⟨i, tokens[i], List.getElem?_eq_getElem hi, hkind, rfl⟩

/-- No two breaks are one once they are told apart. -/
theorem Token.nodup_breakMarks_apart (tokens : List Token) :
    (breakMarks (Token.apart tokens)).Nodup := by
  have hlines : (Token.apart tokens).map (fun token => token.line) = List.range' 2 tokens.length := by
    apply List.ext_getElem (by simp [Token.apart])
    intro i hi hi'
    simp [Token.apart, Nat.add_comm]
  have hnodup : ((Token.apart tokens).map Token.toMark).Nodup := by
    refine List.Nodup.of_map Mark.line ?_
    rw [List.map_map]
    exact hlines ▸ List.nodup_range'
  exact hnodup.sublist (List.filter_sublist.map _)

namespace Grammar

/-- A break is reported by the reader if the error is among what it found. -/
theorem mem_breakSites {mark : Mark} {errors : List SyntaxError} :
    .ofMark mark ∈ breakSites errors ↔ ⟨.breakOutsideLoop, .ofMark mark⟩ ∈ errors := by
  simp only [breakSites, Multiset.mem_coe, List.mem_filterMap, SyntaxError.breakSite?]
  constructor
  · rintro ⟨⟨cause, site⟩, hmem, hsite⟩
    split at hsite
    · rename_i hcause
      cases hcause
      cases hsite
      exact hmem
    · cases hsite
  · exact fun hmem => ⟨_, hmem, rfl⟩

/-- A break is reported by binding if the error is among what it found. -/
theorem mem_breaks {mark : Mark} {errors : List ScopeError} :
    mark ∈ errors.filterMap ScopeError.break? ↔ ⟨.breakOutsideLoop, mark⟩ ∈ errors := by
  simp only [List.mem_filterMap, ScopeError.break?]
  constructor
  · rintro ⟨⟨cause, mark⟩, hmem, hmark⟩
    split at hmark
    · rename_i hcause
      cases hcause
      cases hmark
      exact hmem
    · cases hmark
  · exact fun hmem => ⟨_, hmem, rfl⟩

/-- Whatever breaks static binding reports, the reader has reported, each as often at least. -/
theorem strays_reported (tokens : List Token) (firstId : Nat) :
    (((resolve (parse tokens firstId).program).errors.filterMap ScopeError.break?).map Site.ofMark :
      Multiset Site) ≤ breakSites (parse tokens firstId).errors := by
  obtain ⟨l, -, -, -, herrors, hprogram⟩ := parse_accounts tokens firstId
  have hstrays (breaks : List Break) :
      ((Break.strays breaks).map Site.ofMark : Multiset Site) = straySites breaks := by
    simp [Break.strays, straySites, List.map_map, Function.comp_def]
  rw [breaks_reported, hstrays, herrors]
  exact Multiset.map_le_map (Multiset.filter_le_filter _ hprogram.2)

/-- Where the tokens tell the breaks apart, each of them is checked by what stands around it. -/
theorem reported_iff {tokens : List Token} {firstId : Nat} (hnodup : (breakMarks tokens).Nodup)
    {b : Break} (hb : b ∈ Stmt.breaksAll false (parse tokens firstId).program) :
    (⟨.breakOutsideLoop, .ofMark b.keyword⟩ ∈ (parse tokens firstId).errors ↔ b.stray) ∧
      (⟨.breakOutsideLoop, b.keyword⟩ ∈ (resolve (parse tokens firstId).program).errors ↔ b.stray) := by
  obtain ⟨l, -, -, hmarks, herrors, hprogram⟩ := parse_accounts tokens firstId
  have honce : (l.2.map Break.keyword).Nodup := Multiset.nodup_of_le hmarks hnodup
  have hsame {b' : Break} (hb' : b' ∈ l.2) (hkeyword : b'.keyword = b.keyword) : b' = b :=
    Multiset.inj_on_of_nodup_map honce b' hb' b (Multiset.mem_of_le hprogram.2 hb) hkeyword
  constructor
  · rw [← mem_breakSites, herrors]
    simp only [straySites, Multiset.mem_map, Multiset.mem_filter]
    constructor
    · rintro ⟨b', ⟨hb', hstray⟩, hsite⟩
      exact hsame hb' (Site.ofMark_injective hsite) ▸ hstray
    · exact fun hstray => ⟨b, ⟨Multiset.mem_of_le hprogram.2 hb, hstray⟩, rfl⟩
  · rw [← mem_breaks, breaks_reported, Break.mem_strays]
    constructor
    · intro hstray
      exact hsame (Multiset.mem_of_le hprogram.2 hstray) rfl ▸ rfl
    · intro hstray
      rwa [← hstray]

/-- The two checks for breaks agree. Whatever tokens are read, with or without errors, telling them apart
    by their lines changes nothing but the lines; every break of the program that comes out then stands at
    a token of its own, and the reader has reported it if and only if static binding does, in the same
    words. Without such lines static binding reports the same breaks, and none if nothing has been found
    wrong with the tokens. -/
theorem break_checks_agree (tokens : List Token) (firstId : Nat) :
    let read := parse tokens firstId
    let apart := parse (Token.apart tokens) firstId
    let breaks := Stmt.breaksAll false apart.program
    read = apart.relabel (Token.back tokens) ∧
    (breaks.map Break.keyword).Nodup ∧
    (∀ b ∈ breaks,
      let report : SyntaxError := ⟨.breakOutsideLoop, .ofMark b.keyword⟩
      let finding : ScopeError := ⟨.breakOutsideLoop, b.keyword⟩
      (∃ i token, tokens[i]? = some token ∧ token.kind = .break ∧ b.keyword = ⟨token.lexeme, i + 2⟩) ∧
        report.text = finding.text ∧
        (report ∈ apart.errors ↔ finding ∈ (resolve apart.program).errors)) ∧
    (resolve read.program).errors.filterMap ScopeError.break? =
      ((resolve apart.program).errors.filterMap ScopeError.break?).map (Mark.relabel (Token.back tokens)) ∧
    (read.errors = [] → ∀ e ∈ (resolve read.program).errors, e.cause ≠ .breakOutsideLoop) := by
  intro read apart breaks
  have hread : read = apart.relabel (Token.back tokens) := by
    have hrelabel := parse_relabel (f := Token.back tokens) (fun _ => rfl) rfl (Token.apart tokens) firstId
    rwa [Token.map_back_apart] at hrelabel
  have hprogram : read.program = Stmt.relabelAll (Token.back tokens) apart.program := by
    rw [hread, Stmt.relabelAll_eq_map, Parsed.program, Parsed.program, Parsed.relabel,
      List.filterMap_map, List.map_filterMap]
    rfl
  -- A break is recorded in the ledger once, so no token of a program is the keyword of two of them.
  obtain ⟨l, -, -, hmarks, -, hledger⟩ := parse_accounts (Token.apart tokens) firstId
  have hkeywords : (breaks.map Break.keyword : Multiset Mark) ≤ breakMarks (Token.apart tokens) :=
    (Multiset.map_le_map hledger.2).trans hmarks
  refine ⟨hread, Multiset.nodup_of_le hkeywords (Token.nodup_breakMarks_apart tokens),
    fun b hb => ⟨?_, rfl, ?_⟩, ?_, fun hnone e he hcause => ?_⟩
  · exact Token.mem_breakMarks_apart (Multiset.mem_of_le hkeywords (List.mem_map_of_mem hb))
  · have hb' := reported_iff (Token.nodup_breakMarks_apart tokens) hb
    exact hb'.1.trans hb'.2.symm
  · rw [breaks_reported, breaks_reported, hprogram, Stmt.breaksAll_relabel, Break.strays, Break.strays,
      List.filter_map, List.map_map, List.map_map]
    rfl
  · have hreported := strays_reported tokens firstId
    rw [show (parse tokens firstId).errors = [] from hnone] at hreported
    have hmark : e.mark ∈ (resolve read.program).errors.filterMap ScopeError.break? :=
      mem_breaks.mpr (hcause ▸ he)
    exact Multiset.notMem_zero _ (Multiset.mem_of_le hreported (List.mem_map_of_mem hmark))

/-- A loop with a function in its body that has a loop of its own: both breaks are caught. -/
theorem break_checks_agree_in_function :
    let source := "while (true) { var f = fun () { for (;;) break; }; break; }"
    let tokens := (items source).filterMap Item.token?
    (parse tokens 0).errors = [] ∧ (Stmt.breaksAll false (parse tokens 0).program).length = 2 ∧
      ∀ e ∈ (resolve (parse tokens 0).program).errors, e.cause ≠ .breakOutsideLoop := by
  intro source tokens
  have hnone : (parse tokens 0).errors = [] := by decide +kernel
  have hlength : (Stmt.breaksAll false (parse tokens 0).program).length = 2 := by decide +kernel
  exact ⟨hnone, hlength, (break_checks_agree tokens 0).2.2.2.2 hnone⟩

end Grammar

end Lox
