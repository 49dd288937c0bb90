import Lox.Proofs.Grammar.Deepening
import Lox.Proofs.Grammar.Rereading
import Mathlib.Data.List.TakeWhile

namespace Lox.Grammar

/-- The readers of the grammar, from the declarations of a program down to primary expressions. -/
inductive Rules.Production (r : Rules) : {α : Type} → Reader α → Prop where
  | entries (count : Nat) (before : List (Option Stmt)) :
      r.Production (entriesFrom r.declarationRule count before)
  | declaration : r.Production r.declarationRule
  | declare : r.Production r.declare
  | class : r.Production r.readClass
  | methods (count : Nat) (before : List Definition) : r.Production (r.methods count before)
  | definition (role : CodeRole) (name : NameRole) : r.Production (r.definition role name)
  | code (role : CodeRole) : r.Production (r.code role)
  | var : r.Production r.readVar
  | statement : r.Production r.statementRule
  | block : r.Production r.block
  | declarations (count : Nat) (before : List Stmt) : r.Production (r.declarations count before)
  | for (line : Nat) : r.Production (r.readFor line)
  | while : r.Production r.readWhile
  | if : r.Production r.readIf
  | print (keyword : Mark) : r.Production (r.readPrint keyword)
  | return (keyword : Mark) : r.Production (r.readReturn keyword)
  | break (keyword : Mark) : r.Production (readBreak keyword)
  | expressionStatement : r.Production r.expressionStatement
  | expressionUnless (kind : TokenKind) : r.Production (r.expressionUnless kind)
  | expression (level : Level) : r.Production (r.expressionAt level)
  | call : r.Production r.call
  | callFrom (suffixes : Nat) (callee : Expr) : r.Production (r.callFrom suffixes callee)
  | arguments : r.Production r.arguments
  | primary : r.Production r.primary

variable {α : Type} {tokens : List Token} {firstId count n m : Nat} {entries : List (Option Stmt)}
  {s : State}

/-- The entries of a program are read the same if their declarations are. -/
theorem steady_entriesFrom {declaration declaration' : Reader (Option Stmt)}
    (h : Steady n declaration declaration') (count : Nat) (before : List (Option Stmt)) :
    Steady n (entriesFrom declaration count before) (entriesFrom declaration' count before) := by
  induction count generalizing before with
  | zero => exact steady_pure before.reverse
  | succ count ih =>
    refine steady_atEnd.bind fun ended => ?_
    split
    · exact steady_pure before.reverse
    · exact h.bind fun entry => ih (entry :: before)

/-- Every rule of the grammar is steady, whatever it is compared with. -/
theorem Rules.Production.steady {read : Reader α} (h : (Rules.below count).Production read) :
    ∃ (bound : Nat) (read' : Reader α), Steady bound read read' := by
  have hr := Rules.deepen_below count
  cases h with
  | entries count before => exact ⟨_, _, steady_entriesFrom (Rules.steady_declarationRule hr) count before⟩
  | declaration => exact ⟨_, _, Rules.steady_declarationRule hr⟩
  | declare => exact ⟨_, _, (Rules.proceeds_declare hr).steady⟩
  | «class» => exact ⟨_, _, (Rules.proceeds_readClass hr).steady⟩
  | methods count before =>
    exact ⟨_, _, Rules.steady_methods hr (Nat.zero_le _) count before (Nat.zero_le _)⟩
  | definition role name => exact ⟨_, _, (Rules.proceeds_definition hr role name).steady⟩
  | code role => exact ⟨_, _, Rules.steady_code hr role⟩
  | «var» => exact ⟨_, _, (Rules.proceeds_readVar hr).steady⟩
  | statement => exact ⟨_, _, (Rules.proceeds_statementRule hr).steady⟩
  | block => exact ⟨_, _, Rules.steady_block hr⟩
  | declarations count before =>
    exact ⟨_, _, Rules.steady_declarations hr (Nat.zero_le _) count before (Nat.zero_le _)⟩
  | «for» line => exact ⟨_, _, Rules.steady_readFor hr line⟩
  | «while» => exact ⟨_, _, Rules.steady_readWhile hr⟩
  | «if» => exact ⟨_, _, Rules.steady_readIf hr⟩
  | print keyword => exact ⟨_, _, Rules.steady_readPrint hr keyword⟩
  | «return» keyword => exact ⟨_, _, Rules.steady_readReturn hr keyword⟩
  | «break» keyword => exact ⟨0, _, Rules.steady_readBreak keyword⟩
  | expressionStatement => exact ⟨_, _, (Rules.proceeds_expressionStatement hr).steady⟩
  | expressionUnless kind => exact ⟨_, _, Rules.steady_expressionUnless hr kind⟩
  | expression level => exact ⟨_, _, Rules.steady_expressionAt hr level⟩
  | call => exact ⟨_, _, Rules.steady_call hr⟩
  | callFrom suffixes callee =>
    exact ⟨_, _, Rules.steady_callFrom hr suffixes callee (Nat.zero_le _) (Nat.zero_le _)⟩
  | arguments => exact ⟨_, _, Rules.steady_arguments hr⟩
  | primary => exact ⟨_, _, Rules.steady_primary hr⟩

/-- Every rule of the grammar comes back to the context that it found, whether it fails or not. -/
theorem Rules.Production.restores_context {read : Reader α} (h : (Rules.below count).Production read)
    (s : State) : (stateAfter read s).context = s.context := by
  obtain ⟨_, _, hsteady⟩ := h.steady
  exact (hsteady s).context

/-- No rule of the grammar goes back to a token that has been passed, or past an end. -/
theorem Rules.Production.passes {read : Reader α} (h : (Rules.below count).Production read)
    (s : State) : s.Passes (stateAfter read s) := by
  obtain ⟨_, _, hsteady⟩ := h.steady
  exact (hsteady s).passes

/-- The reader of declarations that `parse` starts with. -/
def topLevel (tokens : List Token) : Reader (Option Stmt) :=
  (Rules.below (tokens.length + 1)).declaration

/-- The states between the declarations of a program, with the entries for those before: each of them has
    been read, or else it has been reported and skipped. -/
inductive Boundary (tokens : List Token) (firstId : Nat) : List (Option Stmt) → State → Prop where
  | start : Boundary tokens firstId [] (State.start tokens firstId)
  | next {entries : List (Option Stmt)} {s s' : State} {entry : Option Stmt} :
      Boundary tokens firstId entries s → s.rest ≠ [] → topLevel tokens s = .ok entry s' →
      Boundary tokens firstId (entries ++ [entry]) s'

/-- The tokens that are left, with those from the first end on, at which no reader looks. -/
def State.remaining (tokens : List Token) (s : State) : List Token :=
  s.rest ++ tokens.dropWhile fun token => !isEnd token

/-- What has been read, and what has been read before it. -/
def Parsed.behind (entries : List (Option Stmt)) (errors : List SyntaxError) (p : Parsed) : Parsed :=
  ⟨entries ++ p.entries, errors ++ p.errors, p.nextId⟩

/-- Rules of any depth read a declaration the same if they are for the tokens that are left. -/
theorem declaration_below (hnm : n ≤ m) (hs : s.rest.length < n) :
    (Rules.below m).declaration s = (Rules.below n).declaration s := by
  induction hnm with
  | refl => rfl
  | @step m hle ih =>
    have hbound : s.rest.length < (Rules.below m).bound := by
      rw [Rules.bound_below]
      exact Nat.lt_of_lt_of_le hs hle
    rw [← ih]
    exact ((Rules.deepen_below m).declaration s).same hbound

/-- A declaration is read or skipped, but never fails. -/
theorem exists_declaration (n : Nat) (s : State) :
    ∃ entry s', (Rules.below (n + 1)).declaration s = .ok entry s' := by
  show ∃ entry s', (Rules.below n).declarationRule s = .ok entry s'
  unfold Rules.declarationRule
  cases (Rules.below n).declare s with
  | ok stmt after => exact ⟨some stmt, after, rfl⟩
  | error e after => exact ⟨none, _, rfl⟩

theorem steady_topLevel (tokens : List Token) : Steady 0 (topLevel tokens) (topLevel tokens) := by
  have hsteady := (Rules.deepen_below (tokens.length + 1)).declaration
  exact hsteady.of_none rfl

theorem entriesFrom_nil (declaration : Reader (Option Stmt)) (count : Nat)
    (before : List (Option Stmt)) (h : s.rest = []) :
    entriesFrom declaration count before s = .ok before.reverse s := by
  cases count with
  | zero => rfl
  | succ count =>
    rw [entriesFrom, bind_apply, atEnd_of_nil h]
    rfl

/-- A program goes on behind its first declaration. -/
theorem entriesFrom_cons (declaration : Reader (Option Stmt)) (count : Nat)
    (before : List (Option Stmt)) (h : s.rest ≠ []) :
    entriesFrom declaration (count + 1) before s =
      (declaration >>= fun entry => entriesFrom declaration count (entry :: before)) s := by
  obtain ⟨token, more, hrest⟩ := List.exists_cons_of_ne_nil h
  rw [entriesFrom, bind_apply, atEnd_of_rest hrest]
  rfl

/-- Every token may start a declaration; to look for more of them, with deeper rules, changes nothing. -/
theorem entriesFrom_below {k : Nat} (hnm : n ≤ m) (hs : s.rest.length < n) (hk : s.rest.length ≤ k)
    (hcount : k ≤ count) (before : List (Option Stmt)) :
    entriesFrom (Rules.below m).declaration count before s =
      entriesFrom (Rules.below n).declaration k before s := by
  induction k generalizing count s before with
  | zero =>
    have hnil := List.eq_nil_of_length_eq_zero (Nat.le_zero.mp hk)
    rw [entriesFrom_nil _ _ _ hnil, entriesFrom_nil _ _ _ hnil]
  | succ k ih =>
    by_cases hmore : s.rest = []
    · rw [entriesFrom_nil _ _ _ hmore, entriesFrom_nil _ _ _ hmore]
    · obtain ⟨count, rfl⟩ := Nat.exists_eq_add_of_lt hcount
      rw [entriesFrom_cons _ _ _ hmore, entriesFrom_cons _ _ _ hmore, bind_apply, bind_apply,
        declaration_below hnm hs]
      cases hread : (Rules.below n).declaration s with
      | ok entry s' =>
        have hless := (Rules.deepen_below n).shortens hmore hread
        exact ih (by omega) (by omega) (by omega) (entry :: before)
      | error e s' => rfl

/-- The entries that are there already stand in front of those to come. -/
theorem entriesFrom_before (n count : Nat) (s : State) : ∃ later after,
    ∀ before, entriesFrom (Rules.below (n + 1)).declaration count before s =
      .ok (before.reverse ++ later) after := by
  induction count generalizing s with
  | zero => exact ⟨[], s, fun before => by rw [List.append_nil]; rfl⟩
  | succ count ih =>
    by_cases hmore : s.rest = []
    · exact ⟨[], s, fun before => by rw [entriesFrom_nil _ _ _ hmore, List.append_nil]⟩
    · obtain ⟨entry, s', hread⟩ := exists_declaration n s
      obtain ⟨later, after, hlater⟩ := ih s'
      refine ⟨entry :: later, after, fun before => ?_⟩
      rw [entriesFrom_cons _ _ _ hmore, bind_apply, hread]
      simpa using hlater (entry :: before)

namespace Boundary

/-- At a boundary nothing is around, and the reader has only gone forwards. -/
theorem state (h : Boundary tokens firstId entries s) :
    s.context = ⟨0, true⟩ ∧ (State.start tokens firstId).Passes s := by
  induction h with
  | start => exact ⟨rfl, .refl _⟩
  | @next entries s s' entry _ _ hread ih =>
    obtain ⟨hcontext, hpasses⟩ := ih
    rw [← stateAfter_of_ok hread]
    exact ⟨(steady_topLevel tokens s).context.trans hcontext, hpasses.trans (steady_topLevel tokens s).passes⟩

theorem length_rest_le (h : Boundary tokens firstId entries s) : s.rest.length ≤ tokens.length :=
  h.state.2.suffix.length_le.trans (length_rest_start_le tokens firstId)

/-- What is read from a boundary on is what the program is read as. -/
theorem entriesFrom_eq (h : Boundary tokens firstId entries s) :
    entriesFrom (topLevel tokens) tokens.length [] (State.start tokens firstId) =
      entriesFrom (topLevel tokens) s.rest.length entries.reverse s := by
  induction h with
  | start =>
    have hlength := length_rest_start_le tokens firstId
    exact entriesFrom_below (Nat.le_refl _) (by omega) (Nat.le_refl _) hlength []
  | @next entries s s' entry hbefore hmore hread ih =>
    have hless := (Rules.deepen_below _).shortens hmore hread
    have hlength := hbefore.length_rest_le
    obtain ⟨k, hk⟩ := Nat.exists_eq_add_of_lt hless
    rw [ih, hk, entriesFrom_cons _ _ _ hmore, bind_apply, hread, List.reverse_append]
    exact entriesFrom_below (Nat.le_refl _) (by omega) (Nat.le_refl _) (by omega) _

/-- The tokens that are left end the list, and none of those before them ends the source. -/
theorem remaining_eq (h : Boundary tokens firstId entries s) :
    ∃ taken, tokens = taken ++ s.remaining tokens ∧ (∀ token ∈ taken, !isEnd token) ∧
      (s.remaining tokens).takeWhile (fun token => !isEnd token) = s.rest := by
  obtain ⟨taken, htaken, -⟩ := h.state.2.passed
  rw [rest_start] at htaken
  have hopen : ∀ token ∈ taken ++ s.rest, !isEnd token := by
    intro token htoken
    rw [← htaken] at htoken
    exact List.mem_takeWhile_imp (p := fun token => !isEnd token) htoken
  have hend : (tokens.dropWhile fun token => !isEnd token).takeWhile (fun token => !isEnd token) = [] :=
    List.takeWhile_eq_nil_iff.mpr (List.dropWhile_get_zero_not _ tokens)
  refine ⟨taken, ?_, fun token htoken => hopen token (List.mem_append_left _ htoken), ?_⟩
  · unfold State.remaining
    rw [← List.append_assoc, ← htaken]
    exact List.takeWhile_append_dropWhile.symm
  · unfold State.remaining
    rw [List.takeWhile_append_of_pos fun token htoken => hopen token (List.mem_append_right _ htoken),
      hend, List.append_nil]

end Boundary

/-- The end that is supplied does not depend on what stands in front. -/
theorem ended_append (taken : List Token) {rest : List Token} (hrest : rest ≠ []) :
    ended (taken ++ rest) = taken ++ ended rest := by
  unfold ended
  rw [List.getLast?_append, List.getLast?_eq_some_getLast hrest, Option.some_or]
  dsimp only
  split
  · rfl
  · rw [List.append_assoc]

namespace Boundary

/-- A reader that starts at the boundary has the same tokens left, but it knows of no error. -/
theorem start_remaining (h : Boundary tokens firstId entries s) (hmore : s.rest ≠ []) :
    (State.start (s.remaining tokens) s.nextId).Behind .same s.errors s := by
  obtain ⟨hcontext, hpasses⟩ := h.state
  obtain ⟨taken, htokens, htaken, hrest⟩ := h.remaining_eq
  have hsome : s.remaining tokens ≠ [] := fun hnil => hmore (by rw [← hrest, hnil]; rfl)
  have hbeyond : s.beyond = (State.start (s.remaining tokens) s.nextId).beyond := by
    rw [hpasses.beyond, beyond_start, beyond_start, congrArg ended htokens, ended_append taken hsome,
      List.dropWhile_append_of_pos htaken]
  refine ⟨?_, ?_, hcontext, rfl, rfl⟩
  · rw [rest_start, hrest]
    exact (List.map_id s.rest).symm
  · unfold State.endLine
    rw [hbeyond]
    rfl

end Boundary

/-- A list that is relabelled to what it was. -/
private theorem entries_relabel_same (entries : List (Option Stmt)) :
    entries.map (Option.map (Stmt.relabel .same)) = entries := by
  rw [show Stmt.relabel .same = id from funext Stmt.relabel_same, Option.map_id, List.map_id]

private theorem errors_relabel_same (errors : List SyntaxError) :
    errors.map (SyntaxError.relabel .same) = errors :=
  List.map_id errors

/-- Where the same tokens are left, the same entries are read, whatever was found before. -/
theorem exists_entries_behind {s' : State} {before : List SyntaxError} (h : s.Behind .same before s')
    (n count : Nat) : ∃ later after after',
      entriesFrom (Rules.below (n + 1)).declaration count [] s = .ok later after ∧
        entriesFrom (Rules.below (n + 1)).declaration count [] s' = .ok later after' ∧
        after'.errors = after.errors ++ before ∧ after'.nextId = after.nextId := by
  obtain ⟨later, after, hread⟩ := entriesFrom_before n count s
  have hrules : (Rules.below (n + 1)).Commute .same before := Rules.commute_below (fun _ => rfl) _
  have hcommute := commutes_entriesFrom hrules.declaration count [] s s' h
  rw [List.map_nil, hread []] at hcommute
  generalize hread' : entriesFrom (Rules.below (n + 1)).declaration count [] s' = result at hcommute
  cases hcommute with
  | ok hbehind =>
    rw [List.reverse_nil, List.nil_append, entries_relabel_same]
    have herrors := hbehind.errors
    rw [errors_relabel_same] at herrors
    exact ⟨later, after, _, hread [], rfl, herrors, hbehind.nextId⟩

/-- To look for no more declarations than there are tokens before the first end, with rules that nest no
    deeper, is enough. -/
theorem parse_of_entries {after : State}
    (h : entriesFrom (Rules.below ((State.start tokens firstId).rest.length + 1)).declaration
      (State.start tokens firstId).rest.length [] (State.start tokens firstId) = .ok entries after) :
    parse tokens firstId = ⟨entries, after.errors.reverse, after.nextId⟩ := by
  have hlength := length_rest_start_le tokens firstId
  unfold parse
  dsimp only
  rw [entriesFrom_below (Nat.add_le_add_right hlength 1) (Nat.lt_succ_self _) (Nat.le_refl _) hlength, h]

/-- A program is read as what stands before a boundary and what a fresh reader makes of the rest. -/
theorem Boundary.parse_eq (h : Boundary tokens firstId entries s) :
    parse tokens firstId =
      (parse (s.remaining tokens) s.nextId).behind entries s.errors.reverse := by
  obtain ⟨taken, -, -, hrest⟩ := h.remaining_eq
  have hstart : (State.start (s.remaining tokens) s.nextId).rest = s.rest :=
    (rest_start _ _).trans hrest
  obtain ⟨later, after, hlater⟩ := entriesFrom_before s.rest.length s.rest.length s
  obtain ⟨fresh, afterFresh, hfresh⟩ := entriesFrom_before s.rest.length s.rest.length
    (State.start (s.remaining tokens) s.nextId)
  have hlength := h.length_rest_le
  have hwhole := h.entriesFrom_eq
  unfold topLevel at hwhole
  rw [entriesFrom_below (by omega) (Nat.lt_succ_self s.rest.length) (Nat.le_refl _) (Nat.le_refl _),
    hlater, List.reverse_reverse] at hwhole
  have hall : parse tokens firstId = ⟨entries ++ later, after.errors.reverse, after.nextId⟩ := by
    unfold parse
    dsimp only
    rw [hwhole]
  have hrestRead : parse (s.remaining tokens) s.nextId =
      ⟨fresh, afterFresh.errors.reverse, afterFresh.nextId⟩ := by
    apply parse_of_entries
    rw [hstart]
    exact hfresh []
  -- The reader that starts afresh goes through the same tokens, without the errors found before.
  have hsame : later = fresh ∧ after.errors = afterFresh.errors ++ s.errors ∧
      after.nextId = afterFresh.nextId := by
    -- Where no token is left neither reader reads an entry; else both read the same ones.
    by_cases hmore : s.rest = []
    · have hnone := hlater []
      have hnoneFresh := hfresh []
      rw [entriesFrom_nil _ _ _ hmore] at hnone
      rw [entriesFrom_nil _ _ _ (hstart.trans hmore)] at hnoneFresh
      cases hnone
      cases hnoneFresh
      exact ⟨rfl, rfl, rfl⟩
    · obtain ⟨found, _, _, hread, hread', herrors, hnextId⟩ :=
        exists_entries_behind (h.start_remaining hmore) s.rest.length s.rest.length
      cases (hfresh []).symm.trans hread
      cases (hlater []).symm.trans hread'
      exact ⟨rfl, herrors, hnextId⟩
  obtain ⟨rfl, herrors, hnextId⟩ := hsame
  rw [hall, hrestRead, herrors, hnextId, List.reverse_append]
  rfl

/-- Recovery leaks no context. Where a declaration of a program ends, read or skipped, the reader is
    outside every loop and a comma joins expressions, and the entries and the errors for the rest are those of
    a reader that starts there. And every rule, from any state, comes back to the context it found. -/
theorem recovery_keeps_context (tokens : List Token) (firstId : Nat) :
    (∀ {entries s}, Boundary tokens firstId entries s →
      s.context = ⟨0, true⟩ ∧ s.remaining tokens <:+ tokens ∧
        parse tokens firstId =
          (parse (s.remaining tokens) s.nextId).behind entries s.errors.reverse) ∧
    ∀ {count : Nat} {α : Type} {read : Reader α}, (Rules.below count).Production read →
      ∀ s, (stateAfter read s).context = s.context := by
  refine ⟨fun h => ⟨h.state.1, ?_, h.parse_eq⟩, fun h => h.restores_context⟩
  obtain ⟨taken, htokens, -⟩ := h.remaining_eq
  exact ⟨taken, htokens.symm⟩

/-- `f(; x, y;`: the call is given up in its arguments, where a comma only separates; the comma of the
    next statement joins two expressions all the same. -/
theorem recovery_keeps_context_of_open_call :
    let name (text : String) : Token := ⟨⟨text, 1⟩, .identifier⟩
    let later : List Token := [name "x", ⟨⟨",", 1⟩, .comma⟩, name "y", ⟨⟨";", 1⟩, .semicolon⟩]
    let tokens := name "f" :: ⟨⟨"(", 1⟩, .leftParen⟩ :: ⟨⟨";", 1⟩, .semicolon⟩ :: later
    let s : State := ⟨ended tokens, 3, ⟨0, true⟩, 1, [⟨.expectedExpression, ⟨some ";", 1⟩⟩]⟩
    let inCall : State := { s with context := ⟨0, false⟩ }
    Boundary tokens 0 [none] s ∧
      (s.context = ⟨0, true⟩ ∧ s.remaining tokens <:+ tokens ∧
        parse tokens 0 = (parse (s.remaining tokens) 1).behind [none] s.errors.reverse) ∧
      (Rules.below 7).Production (Rules.below 7).arguments ∧
      (stateAfter (Rules.below 7).arguments inCall).context = inCall.context := by
  intro name later tokens s inCall
  have hboundary : Boundary tokens 0 [none] s := .next .start (by decide) rfl
  exact ⟨hboundary, (recovery_keeps_context tokens 0).1 hboundary, .arguments,
    (recovery_keeps_context tokens 0).2 .arguments inCall⟩

end Lox.Grammar
