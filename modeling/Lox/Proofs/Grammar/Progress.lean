import Mathlib.Logic.Relation
import Lox.Proofs.Grammar.Recovery

namespace Lox.Grammar

variable {α β γ : Type} {tokens : List Token} {firstId count : Nat} {s s' : State}

/-- The place of the first end, counted from the first token. -/
def firstEnd (tokens : List Token) : Nat :=
  (tokens.takeWhile fun token => !isEnd token).length

/-- All the tokens are there, and the cursor is at one of them: at one of those that are left, or else at
    the first end. -/
structure State.InRange (tokens : List Token) (s : State) : Prop where
  tokens_eq : s.tokens = ended tokens
  valid : s.current < s.tokens.length
  le_firstEnd : s.current ≤ firstEnd tokens
  ahead : ∃ last after, s.tokens.drop s.current = s.rest ++ last :: after ∧ isEnd last ∧
    ∀ token ∈ s.rest, !isEnd token

/-- Where tokens before the first end have been passed and no others, the cursor is in range. -/
theorem State.inRange_of_passes (h : (State.start tokens firstId).Passes s) : s.InRange tokens := by
  obtain ⟨taken, htaken, hcurrent⟩ := h.passed
  rw [rest_start] at htaken
  obtain ⟨last, after, hended, hlast⟩ := ended_eq tokens
  have htokens : s.tokens = ended tokens := h.tokens
  have hplace : s.current = taken.length := hcurrent.trans (Nat.zero_add _)
  have hlength : firstEnd tokens = taken.length + s.rest.length := by
    rw [firstEnd, htaken, List.length_append]
  refine ⟨htokens, ?_, by omega, last, after, ?_, hlast, fun _ => State.not_isEnd_of_mem_rest⟩
  · rw [htokens, hended, List.length_append, List.length_cons, hplace]
    change taken.length < firstEnd tokens + _
    omega
  · rw [htokens, hended, hplace, htaken, List.append_assoc, List.drop_left]

/-- Where none of the tokens is left, the cursor is at the first end. -/
theorem State.current_of_passes (h : (State.start tokens firstId).Passes s) (hdone : s.rest = []) :
    s.current = firstEnd tokens := by
  obtain ⟨taken, htaken, hcurrent⟩ := h.passed
  rw [rest_start, hdone, List.append_nil] at htaken
  rw [hcurrent, firstEnd, htaken]
  exact Nat.zero_add _

/-- Where fewer tokens are left, the cursor has moved on. -/
theorem State.Passes.lt (h : s.Passes s') (hless : s'.rest.length < s.rest.length) :
    s.current < s'.current := by
  obtain ⟨taken, htaken, hcurrent⟩ := h.passed
  rw [htaken, List.length_append] at hless
  omega

/-- The readers that the grammar is put together from. -/
inductive Primitive : {α : Type} → Reader α → Prop where
  | take? {α : Type} (choose : TokenKind → Option α) : Primitive (take? choose)
  | accept (kind : TokenKind) : Primitive (accept kind)
  | expect (place : Place) : Primitive (expect place)
  | expectName (role : NameRole) : Primitive (expectName role)
  | next (kind : TokenKind) : Primitive (next kind)
  | definesFunction : Primitive Rules.definesFunction
  | atEnd : Primitive atEnd
  | get : Primitive get
  | freshId : Primitive freshId
  | report (cause : SyntaxCause) (site : Site) : Primitive (report cause site)
  | reportHere (cause : SyntaxCause) : Primitive (reportHere cause)
  | fail {α : Type} (cause : SyntaxCause) : Primitive (fail cause : Reader α)

/-- A primitive step reads the same at every depth. -/
theorem Primitive.steady {read : Reader α} (h : Primitive read) : Steady 0 read read := by
  cases h with
  | take? choose => exact steady_take? choose
  | accept kind => exact steady_accept kind
  | expect place => exact steady_expect place
  | expectName role => exact steady_expectName role
  | next kind => exact steady_next kind
  | definesFunction => exact Rules.steady_definesFunction
  | atEnd => exact steady_atEnd
  | get => exact steady_get
  | freshId => exact steady_freshId
  | report cause site => exact steady_report cause site
  | reportHere cause => exact steady_reportHere cause
  | fail cause => exact steady_fail cause

/-- What can happen between two looks at the state: a step or a whole production, whether it fails or
    not, another context around, or the recovery from an error. -/
inductive Move : State → State → Prop where
  | step {α : Type} {read : Reader α} {s : State} :
      Primitive read → Move s (stateAfter read s)
  | production {α : Type} {read : Reader α} {count : Nat} {s : State} :
      (Rules.below count).Production read → Move s (stateAfter read s)
  | context {s : State} (context : Context) : Move s { s with context }
  | recovery {s : State} (e : SyntaxError) :
      Move s (synchronize { s with errors := e :: s.errors })

/-- The states that are reached from the start of a program, whatever rules are followed. -/
def Reached (tokens : List Token) (firstId : Nat) : State → Prop :=
  Relation.ReflTransGen Move (State.start tokens firstId)

/-- A move goes forwards and keeps the tokens. -/
theorem Move.passes (h : Move s s') : s.Passes s' := by
  cases h with
  | step hread => exact (hread.steady s).passes
  | production hread => exact hread.passes s
  | context => exact .of_same rfl rfl
  | recovery e =>
    have hnoted : s.Passes { s with errors := e :: s.errors } := .of_same rfl rfl
    exact hnoted.trans (passes_synchronize _)

/-- Moves in a row go forwards and keep the tokens. -/
theorem passes_of_moves (h : Relation.ReflTransGen Move s s') : s.Passes s' := by
  induction h with
  | refl => exact .refl s
  | tail _ hlast ih => exact ih.trans hlast.passes

theorem Reached.inRange (h : Reached tokens firstId s) : s.InRange tokens :=
  State.inRange_of_passes (passes_of_moves h)

theorem move_declaration (count : Nat) (s : State) :
    Move s (stateAfter (Rules.below (count + 1)).declaration s) :=
  have hproduction : (Rules.below count).Production (Rules.below count).declarationRule := .declaration
  .production hproduction

/-- A declaration moves the cursor, whether it has been read or skipped. -/
theorem exists_declaration_shorter (count : Nat) (hmore : s.rest ≠ []) :
    ∃ entry s', (Rules.below (count + 1)).declaration s = .ok entry s' ∧ Move s s' ∧
      s'.rest.length < s.rest.length := by
  obtain ⟨entry, s', hread⟩ := exists_declaration count s
  have hmove := move_declaration count s
  rw [stateAfter_of_ok hread] at hmove
  exact ⟨entry, s', hread, hmove, (Rules.deepen_below _).shortens hmore hread⟩

/-- What a loop comes to that goes on until it stops or fails, however many rounds that takes. -/
inductive Ends (stops : State → Prop) (finish : β → γ) (round : β → Reader β) :
    β → State → EStateM.Result SyntaxError State γ → Prop where
  | stopped {b : β} {s : State} : stops s → Ends stops finish round b s (.ok (finish b) s)
  | failed {b : β} {s s' : State} {e : SyntaxError} :
      ¬ stops s → round b s = .error e s' → Ends stops finish round b s (.error e s')
  | again {b b' : β} {s s' : State} {result : EStateM.Result SyntaxError State γ} :
      ¬ stops s → round b s = .ok b' s' → Ends stops finish round b' s' result →
      Ends stops finish round b s result

section

variable {stops : State → Prop} {finish : β → γ} {round : β → Reader β}

/-- What holds where the loop stops, and before a round if it holds after it, held at the start. -/
theorem Ends.of_ok {p : β → State → Prop} {b : β} {c : γ}
    (h : Ends stops finish round b s (.ok c s'))
    (hstop : ∀ b, stops s' → c = finish b → p b s')
    (hround : ∀ b s b₁ s₁, ¬ stops s → round b s = .ok b₁ s₁ → p b₁ s₁ → p b s) : p b s := by
  generalize hresult : EStateM.Result.ok c s' = result at h
  induction h with
  | stopped hstops =>
    cases hresult
    exact hstop _ hstops rfl
  | failed => cases hresult
  | again hopen hread _ ih => exact hround _ _ _ _ hopen hread (ih hresult)

/-- A loop whose rounds take tokens is the loop with a bound, if the bound allows for a round with
    every token. -/
theorem ends_of_bound {loop : Nat → β → Reader γ} (hnil : ∀ s, s.rest = [] → stops s)
    (hstop : ∀ count b s, stops s → loop count b s = .ok (finish b) s)
    (hround : ∀ count b s, ¬ stops s → loop (count + 1) b s = (round b >>= loop count) s)
    (hshort : ∀ b s b' s', ¬ stops s → round b s = .ok b' s' → s'.rest.length < s.rest.length)
    (b : β) (hcount : s.rest.length ≤ count) :
    Ends stops finish round b s (loop count b s) := by
  induction count generalizing b s with
  | zero =>
    have hstops := hnil s (List.eq_nil_of_length_eq_zero (Nat.le_zero.mp hcount))
    rw [hstop 0 b s hstops]
    exact .stopped hstops
  | succ count ih =>
    by_cases hstops : stops s
    · rw [hstop _ b s hstops]
      exact .stopped hstops
    · rw [hround count b s hstops, bind_apply]
      cases hread : round b s with
      | error e s' => exact .failed hstops hread
      | ok b' s' =>
        have hless := hshort b s b' s' hstops hread
        exact .again hstops hread (ih b' (by omega))

end

/-- No token is left, or a closing brace is next. -/
def State.Closed (s : State) : Prop :=
  s.rest = [] ∨ ∃ token rest, s.rest = token :: rest ∧ token.kind = .rightBrace

/-- At a closing brace or at the end the items are over. -/
theorem unlessClosed_of_closed {x : α} {read : Reader α} (h : s.Closed) :
    unlessClosed x read s = .ok x s := by
  obtain hrest | ⟨token, rest, hrest, hkind⟩ := h
  · exact unlessClosed_nil hrest
  · rw [unlessClosed_cons hrest, if_pos hkind]

/-- Before a closing brace and the end one more item is read. -/
theorem unlessClosed_of_open {x : α} {read : Reader α} (h : ¬ s.Closed) :
    unlessClosed x read s = read s := by
  cases hrest : s.rest with
  | nil => exact (h (.inl hrest)).elim
  | cons token rest =>
    rw [unlessClosed_cons hrest, if_neg]
    exact fun hkind => h (.inr ⟨token, rest, hrest, hkind⟩)

namespace Rules

/-- One more entry of a program, whose entries come last first. -/
def entryRound (r : Rules) (before : List (Option Stmt)) : Reader (List (Option Stmt)) := do
  return (← r.declaration) :: before

/-- One more declaration of a block; one that failed is left out. -/
def blockRound (r : Rules) (before : List Stmt) : Reader (List Stmt) := do
  match ← r.declaration with
  | .none => return before
  | some stmt => return stmt :: before

/-- One more method of a class. -/
def methodRound (r : Rules) (before : List Definition) : Reader (List Definition) := do
  return (← r.definition .method .method) :: before

/-- From the state on, the loops of the grammar are loops that have no bound. -/
structure LoopsEnd (r : Rules) (s : State) : Prop where
  program : ∀ count before, s.rest.length ≤ count →
    Ends (·.rest = []) List.reverse r.entryRound before s (entriesFrom r.declaration count before s)
  block : ∀ count before, s.rest.length ≤ count →
    Ends State.Closed List.reverse r.blockRound before s (r.declarations count before s)
  methods : ∀ count before, s.rest.length ≤ count →
    Ends State.Closed List.reverse r.methodRound before s (r.methods count before s)

theorem declarations_of_closed (r : Rules) (count : Nat) (before : List Stmt) (h : s.Closed) :
    r.declarations count before s = .ok before.reverse s := by
  cases count with
  | zero => rfl
  | succ count => exact unlessClosed_of_closed h

/-- Each round of a block reads one declaration. -/
theorem declarations_of_open (r : Rules) (count : Nat) (before : List Stmt) (h : ¬ s.Closed) :
    r.declarations (count + 1) before s = (r.blockRound before >>= r.declarations count) s := by
  refine (unlessClosed_of_open h).trans ?_
  unfold blockRound
  rw [bind_apply, bind_apply, bind_apply]
  cases r.declaration s with
  | error e s' => rfl
  | ok entry s' => cases entry <;> rfl

theorem methods_of_closed (r : Rules) (count : Nat) (before : List Definition) (h : s.Closed) :
    r.methods count before s = .ok before.reverse s := by
  cases count with
  | zero => rfl
  | succ count => exact unlessClosed_of_closed h

/-- Each round of a class body reads one method. -/
theorem methods_of_open (r : Rules) (count : Nat) (before : List Definition) (h : ¬ s.Closed) :
    r.methods (count + 1) before s = (r.methodRound before >>= r.methods count) s := by
  refine (unlessClosed_of_open h).trans ?_
  unfold methodRound
  rw [bind_apply, bind_apply, bind_apply]
  cases r.definition .method .method s <;> rfl

/-- Each round of a program reads one declaration. -/
theorem entriesFrom_round (r : Rules) (count : Nat) (before : List (Option Stmt))
    (h : s.rest ≠ []) :
    entriesFrom r.declaration (count + 1) before s =
      (r.entryRound before >>= entriesFrom r.declaration count) s := by
  rw [entriesFrom_cons _ _ _ h]
  unfold entryRound
  rw [bind_apply, bind_apply, bind_apply]
  cases r.declaration s <;> rfl

/-- A round of a program is one of its declarations. -/
theorem entryRound_ok {r : Rules} {before after : List (Option Stmt)}
    (h : r.entryRound before s = .ok after s') :
    ∃ entry, r.declaration s = .ok entry s' ∧ after = entry :: before := by
  unfold entryRound at h
  rw [bind_apply] at h
  cases hread : r.declaration s with
  | error e s₁ =>
    rw [hread] at h
    cases h
  | ok entry s₁ =>
    rw [hread] at h
    cases h
    exact ⟨entry, rfl, rfl⟩

theorem blockRound_ok {r : Rules} {before after : List Stmt}
    (h : r.blockRound before s = .ok after s') : ∃ entry, r.declaration s = .ok entry s' := by
  unfold blockRound at h
  rw [bind_apply] at h
  cases hread : r.declaration s with
  | error e s₁ =>
    rw [hread] at h
    cases h
  | ok entry s₁ =>
    rw [hread] at h
    cases entry <;> cases h <;> exact ⟨_, rfl⟩

theorem methodRound_ok {r : Rules} {before after : List Definition}
    (h : r.methodRound before s = .ok after s') :
    ∃ method, r.definition .method .method s = .ok method s' := by
  unfold methodRound at h
  rw [bind_apply] at h
  cases hread : r.definition .method .method s with
  | error e s₁ =>
    rw [hread] at h
    cases h
  | ok method s₁ =>
    rw [hread] at h
    cases h
    exact ⟨method, rfl⟩

/-- Every loop of the grammar ends, with rules of any depth: a round that goes on to another one has
    taken a token. -/
theorem loopsEnd (count : Nat) (s : State) : (below count).LoopsEnd s := by
  have hr := deepen_below count
  have hmore {s : State} (hopen : ¬ s.Closed) : s.rest ≠ [] := fun hrest => hopen (.inl hrest)
  constructor
  · intro bound before hbound
    refine ends_of_bound (fun _ hrest => hrest) ?_ ?_ ?_ before hbound
    · exact fun bound before s hrest => entriesFrom_nil _ bound before hrest
    · exact fun bound before s hrest => entriesFrom_round _ bound before hrest
    · intro before s after s' hrest hround
      obtain ⟨entry, hread, -⟩ := entryRound_ok hround
      exact hr.shortens hrest hread
  · intro bound before hbound
    refine ends_of_bound (fun _ hrest => .inl hrest) ?_ ?_ ?_ before hbound
    · exact fun bound before s hclosed => declarations_of_closed _ bound before hclosed
    · exact fun bound before s hopen => declarations_of_open _ bound before hopen
    · intro before s after s' hopen hround
      obtain ⟨entry, hread⟩ := blockRound_ok hround
      exact hr.shortens (hmore hopen) hread
  · intro bound before hbound
    refine ends_of_bound (fun _ hrest => .inl hrest) ?_ ?_ ?_ before hbound
    · exact fun bound before s hclosed => methods_of_closed _ bound before hclosed
    · exact fun bound before s hopen => methods_of_open _ bound before hopen
    · intro before s after s' _ hround
      obtain ⟨method, hread⟩ := methodRound_ok hround
      exact (proceeds_definition hr .method .method).shortens.ok hread trivial

end Rules

/-- The loop over the entries of a program leaves none of the tokens, it has an entry for one of them
    at least, and it is made of moves. -/
theorem entries_ok {before entries : List (Option Stmt)}
    (h : Ends (·.rest = []) List.reverse (Rules.below (count + 1)).entryRound before s
      (.ok entries s')) :
    s'.rest = [] ∧ entries.length ≤ before.length + s.rest.length ∧
      Relation.ReflTransGen Move s s' := by
  refine h.of_ok (p := fun before s => s'.rest = [] ∧
    entries.length ≤ before.length + s.rest.length ∧ Relation.ReflTransGen Move s s') ?_ ?_
  · rintro before hdone rfl
    exact ⟨hdone, by simp, .refl⟩
  · rintro before s after s₁ hmore hround ⟨hdone, hlength, hmoves⟩
    obtain ⟨entry, hread, rfl⟩ := Rules.entryRound_ok hround
    have hless := (Rules.deepen_below _).shortens hmore hread
    have hmove := move_declaration count s
    rw [stateAfter_of_ok hread] at hmove
    rw [List.length_cons] at hlength
    exact ⟨hdone, by omega, .head hmove hmoves⟩

/-- The loop that a program is read by, as one without a bound whose rules may nest as deep as they
    like. -/
def ProgramEnds (tokens : List Token) (firstId : Nat) (entries : List (Option Stmt)) (after : State) :
    Prop :=
  ∀ depth, firstEnd tokens < depth →
    Ends (·.rest = []) List.reverse (Rules.below depth).entryRound [] (State.start tokens firstId)
      (.ok entries after)

/-- Every program is read to its end. -/
theorem exists_programEnds (tokens : List Token) (firstId : Nat) :
    ∃ entries after, ProgramEnds tokens firstId entries after ∧
      parse tokens firstId = ⟨entries, after.errors.reverse, after.nextId⟩ := by
  have hstart : (State.start tokens firstId).rest.length = firstEnd tokens := by
    rw [rest_start, firstEnd]
  obtain ⟨entries, after, hread⟩ := entriesFrom_before (firstEnd tokens) (firstEnd tokens)
    (State.start tokens firstId)
  have hparse : parse tokens firstId = ⟨entries, after.errors.reverse, after.nextId⟩ := by
    apply parse_of_entries
    rw [hstart]
    exact hread []
  refine ⟨entries, after, fun depth hdepth => ?_, hparse⟩
  have hends := (Rules.loopsEnd depth (State.start tokens firstId)).program (firstEnd tokens) []
    (Nat.le_of_eq hstart)
  rw [entriesFrom_below (k := firstEnd tokens) hdepth (by omega) (by omega) (Nat.le_refl _),
    hread []] at hends
  exact hends

/-- Programs are read the same whose tokens before the first end are the same, if it is on the same line. -/
theorem parse_of_start {tokens' : List Token}
    (hrest : (State.start tokens' firstId).rest = (State.start tokens firstId).rest)
    (hline : (State.start tokens' firstId).endLine = (State.start tokens firstId).endLine) :
    parse tokens' firstId = parse tokens firstId := by
  have hbehind : (State.start tokens firstId).Behind .same [] (State.start tokens' firstId) :=
    ⟨hrest.trans (List.map_id _).symm, hline, rfl, rfl, rfl⟩
  obtain ⟨entries, after, after', hread, hread', herrors, hnextId⟩ :=
    exists_entries_behind hbehind (State.start tokens firstId).rest.length
      (State.start tokens firstId).rest.length
  rw [parse_of_entries hread, parse_of_entries (by rw [hrest]; exact hread'), herrors, hnextId,
    List.append_nil]

/-- Nothing behind an end is looked at. -/
theorem parse_of_end (before : List Token) {last : Token} (after : List Token) (hlast : isEnd last)
    (firstId : Nat) : parse (before ++ last :: after) firstId = parse (before ++ [last]) firstId := by
  have hstop (after : List Token) : (before ++ last :: after).takeWhile (fun token => !isEnd token) =
      before.takeWhile fun token => !isEnd token := by
    rw [List.takeWhile_append, List.takeWhile_cons_of_neg (by simpa using hlast), List.append_nil]
    split
    · rename_i hall
      exact ((List.takeWhile_prefix _).eq_of_length hall).symm
    · rfl
  have hline (after : List Token) : (State.start (before ++ last :: after) firstId).endLine =
      ((before ++ [last]).dropWhile fun token => !isEnd token).head?.elim 0 (·.line) := by
    obtain ⟨more, hmore⟩ := exists_ended_of_end before last after
    rw [State.endLine, beyond_start, hmore, List.dropWhile_append, List.dropWhile_append,
      List.dropWhile_cons_of_neg (by simpa using hlast), List.dropWhile_cons_of_neg (by simpa using hlast)]
    cases before.dropWhile (fun token => !isEnd token) <;> rfl
  refine parse_of_start ?_ ((hline after).trans (hline []).symm)
  rw [rest_start, rest_start, hstop, hstop]

/-- An end that is supplied is supplied once. -/
theorem ended_ended (tokens : List Token) : ended (ended tokens) = ended tokens := by
  cases hlast : tokens.getLast? with
  | none =>
    obtain rfl := List.getLast?_eq_none_iff.mp hlast
    rfl
  | some last =>
    by_cases hend : isEnd last
    · have hsame : ended tokens = tokens := by simp only [ended, hlast, if_pos hend]
      rw [hsame, hsame]
    · have hmore : ended tokens = tokens ++ [⟨⟨"", last.line⟩, .eof⟩] := by
        simp only [ended, hlast, if_neg hend]
      rw [hmore, ended, List.getLast?_concat]
      rfl

/-- The end that is supplied is where the parser supplies it. -/
theorem parse_ended (tokens : List Token) (firstId : Nat) :
    parse (ended tokens) firstId = parse tokens firstId := by
  have hstart : State.start (ended tokens) firstId = State.start tokens firstId := by
    rw [State.start, ended_ended]
    rfl
  exact parse_of_start (by rw [hstart]) (by rw [hstart])

/-- The parser always gets on and stays in range. In every state that it can reach the cursor is at a
    token and not behind the first end, it never goes back, and unless it is at the end, the next
    declaration moves it, read or skipped. The loops end by themselves, and so does the program, at its
    first end, with no more entries than tokens before. What follows the first end, and whether an end
    is there at all, makes no difference. -/
theorem parser_progresses (tokens : List Token) (firstId : Nat) :
    (∀ {s}, Reached tokens firstId s → s.InRange tokens ∧
      (∀ {s'}, Relation.ReflTransGen Move s s' → s.current ≤ s'.current) ∧
      (s.rest ≠ [] → ∀ count, ∃ entry s',
        (Rules.below (count + 1)).declaration s = .ok entry s' ∧ Move s s' ∧
          s.current < s'.current)) ∧
    (∀ count s, (Rules.below count).LoopsEnd s) ∧
    (∃ entries after, ProgramEnds tokens firstId entries after ∧ Reached tokens firstId after ∧
      after.current = firstEnd tokens ∧ entries.length ≤ firstEnd tokens ∧
      parse tokens firstId = ⟨entries, after.errors.reverse, after.nextId⟩) ∧
    parse (ended tokens) firstId = parse tokens firstId ∧
    ∀ before last after, isEnd last → before ++ last :: after = tokens →
      parse tokens firstId = parse (before ++ [last]) firstId := by
  refine ⟨fun {s} hreached => ⟨hreached.inRange, fun hmoves => ?_, fun hmore count => ?_⟩,
    Rules.loopsEnd, ?_, parse_ended tokens firstId, ?_⟩
  · exact (passes_of_moves hmoves).le
  · obtain ⟨entry, s', hread, hmove, hless⟩ := exists_declaration_shorter count hmore
    exact ⟨entry, s', hread, hmove, hmove.passes.lt hless⟩
  · obtain ⟨entries, after, hends, hparse⟩ := exists_programEnds tokens firstId
    have hloop := hends (firstEnd tokens + 1) (Nat.lt_succ_self _)
    obtain ⟨hdone, hlength, hmoves⟩ := entries_ok hloop
    refine ⟨entries, after, hends, hmoves, State.current_of_passes (passes_of_moves hmoves) hdone, ?_, hparse⟩
    rw [List.length_nil, Nat.zero_add, rest_start] at hlength
    exact hlength
  · rintro before last after hlast rfl
    exact parse_of_end before after hlast firstId

/-- `} f end ( end`: the brace is skipped with all that follows it before the first end. -/
theorem parser_progresses_past_brace :
    let brace : Token := ⟨⟨"\x7d", 1⟩, .rightBrace⟩
    let name : Token := ⟨⟨"f", 1⟩, .identifier⟩
    let last : Token := ⟨⟨"", 1⟩, .eof⟩
    let tokens := [brace, name, last, ⟨⟨"(", 2⟩, .leftParen⟩, last]
    firstEnd tokens = 2 ∧ (State.start tokens 0).rest ≠ [] ∧
      (∃ entry s', (Rules.below 3).declaration (State.start tokens 0) = .ok entry s' ∧
        entry = none ∧ 0 < s'.current) ∧
      parse tokens 0 = parse [brace, name, last] 0 := by
  intro brace name last tokens
  obtain ⟨hstates, -, -, -, hafter⟩ := parser_progresses tokens 0
  obtain ⟨entry, s', hread, -, hcursor⟩ := (hstates .refl).2.2 (by decide) 2
  refine ⟨by decide, by decide, ⟨entry, s', hread, ?_, hcursor⟩, hafter [brace, name] last _ rfl rfl⟩
  cases hread
  rfl

end Lox.Grammar
