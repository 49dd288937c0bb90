import Lox.Grammar.Source
import Lox.Proofs.Grammar.Completeness.Statement
import Lox.Proofs.Grammar.Program
import Lox.Proofs.Grammar.Relabeling
import Lox.Proofs.Grammar.Soundness.Statement
import Lox.Proofs.Token.Joining

namespace Lox.Grammar

/-- What tokens say one after the other, they say together. -/
theorem Derives.append {c : Context} {first second : List Stmt} {ts ts' : List Token} {lo mid hi : Nat}
    (h : Derives c (.program first) ts lo mid) (h' : Derives c (.program second) ts' mid hi) :
    Derives c (.program (first ++ second)) (ts ++ ts') lo hi := by
  induction first generalizing ts lo with
  | nil =>
    cases h
    exact h'
  | cons s rest ih =>
    cases h with
    | cons hs hrest =>
      rw [List.append_assoc]
      exact .cons hs (ih hrest)

/-- The source is read as the program without an error, and the numbers go on from `nextId`. -/
def ReadsAs (source : String) (firstId : Nat) (program : List Stmt) (nextId : Nat) : Prop :=
  readSource source firstId = ⟨[], ⟨program.map some, [], nextId⟩⟩

variable {source : String} {firstId nextId : Nat} {program : List Stmt}

/-- Nothing comes behind the first end of a source. -/
theorem takeWhile_tokens (source : String) :
    ((items source).filterMap Item.token?).takeWhile (fun token => !isEnd token) =
      bodyTokens source := by
  have hbefore (t : Token) (ht : t ∈ bodyTokens source) : (!isEnd t) = true := by
    simp [isEnd, bodyTokens_not_end ht]
  change (tokens source).takeWhile _ = _
  rw [tokens_eq, List.takeWhile_append_of_pos hbefore]
  simp [isEnd]

/-- A source is read as the program that its tokens say. -/
theorem readsAs_iff : ReadsAs source firstId program nextId ↔
    lexErrors source = [] ∧
      Derives ⟨0, true⟩ (.program program) (bodyTokens source) firstId nextId := by
  constructor
  · intro h
    have hparsed : parse ((items source).filterMap Item.token?) firstId =
        ⟨program.map some, [], nextId⟩ := congrArg SourceTree.parsed h
    obtain ⟨read, hentries, hderives⟩ := derives_of_parse (congrArg Parsed.errors hparsed)
    rw [hparsed] at hentries hderives
    obtain rfl := (List.map_inj_right fun _ _ => Option.some.inj).mp hentries
    exact ⟨congrArg SourceTree.lexErrors h, takeWhile_tokens source ▸ hderives⟩
  · rintro ⟨hlex, hderives⟩
    rw [← takeWhile_tokens] at hderives
    exact congr (congrArg SourceTree.mk hlex) (parse_of_derives hderives)

/-- A source that is read as a program has no error. -/
theorem ReadsAs.errors (h : ReadsAs source firstId program nextId) :
    (readSource source firstId).errors = [] := by
  rw [h]
  rfl

/-- A source that is read as a program is complete. -/
theorem ReadsAs.complete? (h : ReadsAs source firstId program nextId) :
    (readSource source firstId).parsed.complete? = some program := by
  rw [h]
  exact Parsed.complete?_of_entries rfl

theorem ReadsAs.nextId_eq (h : ReadsAs source firstId program nextId) :
    (readSource source firstId).parsed.nextId = nextId := by
  rw [h]

/-- A source in which no error is found is read as the program that comes out. -/
theorem readsAs_of_errors (herrors : (readSource source firstId).errors = [])
    (hprogram : (readSource source firstId).parsed.complete? = some program) :
    ReadsAs source firstId program (readSource source firstId).parsed.nextId := by
  obtain ⟨hlex, hgrammatical⟩ := List.append_eq_nil_iff.mp herrors
  have hparsed : (readSource source firstId).parsed.errors = [] := List.map_eq_nil_iff.mp hgrammatical
  obtain ⟨read, hentries, hderives⟩ := derives_of_parse hparsed
  have hread : ReadsAs source firstId read (readSource source firstId).parsed.nextId :=
    readsAs_iff.mpr ⟨List.map_eq_nil_iff.mp hlex, takeWhile_tokens source ▸ hderives⟩
  obtain rfl := Option.some.inj (hread.complete?.symm.trans hprogram)
  exact hread

/-- Two sources are read one after the other as they are on their own. -/
theorem ReadsAs.join {first second : String} {lo mid hi : Nat} {program program' : List Stmt}
    (h : ReadsAs first lo program mid) (h' : ReadsAs second mid program' hi) :
    ReadsAs (first ++ "\n" ++ second) lo
      (program ++ Stmt.relabelAll (.ofLine (· + lineShift first)) program') hi := by
  obtain ⟨hlex, hderives⟩ := readsAs_iff.mp h
  obtain ⟨hlex', hderives'⟩ := readsAs_iff.mp h'
  refine readsAs_iff.mpr ⟨lexErrors_join hlex second hlex', ?_⟩
  rw [bodyTokens_join hlex]
  exact hderives.append (hderives'.relabel (f := .ofLine (· + lineShift first)) fun _ => rfl)

end Lox.Grammar
