import Lox.Grammar.Program
import Mathlib.Data.List.DropRight
import Mathlib.Data.List.TakeWhile

namespace Lox.Grammar

namespace State

/-- The tokens that are left before the next end. -/
def rest (s : State) : List Token :=
  (s.tokens.drop s.current).takeWhile fun token => !isEnd token

/-- The next end and what stands behind it. -/
def beyond (s : State) : List Token :=
  (s.tokens.drop s.current).dropWhile fun token => !isEnd token

/-- What is left of the tokens is what comes before the next end, and the end with what is behind
    it. -/
theorem rest_append_beyond (s : State) : s.rest ++ s.beyond = s.tokens.drop s.current :=
  List.takeWhile_append_dropWhile

theorem not_isEnd_of_mem_rest {s : State} {token : Token} (h : token ∈ s.rest) : !isEnd token :=
  List.mem_takeWhile_imp (p := fun token => !isEnd token) h

/-- Nothing but an end follows the tokens that are left. -/
theorem isEnd_of_beyond {s : State} {token : Token} {more : List Token} (h : s.beyond = token :: more) :
    isEnd token := by
  have hhead := List.head?_dropWhile_not (fun token => !isEnd token) (s.tokens.drop s.current)
  have hbeyond : (s.tokens.drop s.current).dropWhile (fun token => !isEnd token) = token :: more := h
  rw [hbeyond] at hhead
  simpa using hhead

/-- The first token of a list, unless it is an end. -/
private theorem filter_head? (tokens : List Token) :
    tokens.head?.filter (fun token => !isEnd token) =
      (tokens.takeWhile fun token => !isEnd token).head? := by
  cases tokens with
  | nil => rfl
  | cons token rest =>
    rw [List.head?_cons, Option.filter_some, List.takeWhile_cons]
    split <;> rfl

theorem next?_eq (s : State) : s.next? = s.rest.head? := by
  rw [next?, ← List.head?_drop, filter_head?]
  rfl

theorem next?_of_rest {s : State} {token : Token} {more : List Token} (h : s.rest = token :: more) :
    s.next? = some token := by
  rw [next?_eq, h, List.head?_cons]

theorem next?_of_nil {s : State} (h : s.rest = []) : s.next? = none := by
  rw [next?_eq, h, List.head?_nil]

/-- Passing tokens that are left leaves the others, and what stands behind them. -/
theorem passing {s s' : State} {taken more : List Token} (htokens : s'.tokens = s.tokens)
    (hcurrent : s'.current = s.current + taken.length) (h : s.rest = taken ++ more) :
    s'.rest = more ∧ s'.beyond = s.beyond := by
  have hopen : ∀ token ∈ more, !isEnd token := fun token htoken =>
    not_isEnd_of_mem_rest (h ▸ List.mem_append_right taken htoken)
  have hbeyond : s.beyond.takeWhile (fun token => !isEnd token) = [] := by
    cases hnext : s.beyond with
    | nil => rfl
    | cons token rest => rw [List.takeWhile_cons_of_neg (by simp [isEnd_of_beyond hnext])]
  have hleft : s'.tokens.drop s'.current = more ++ s.beyond := by
    rw [htokens, hcurrent, ← List.drop_drop, ← rest_append_beyond, h, List.append_assoc, List.drop_left]
  constructor
  · rw [rest, hleft, List.takeWhile_append_of_pos hopen, hbeyond, List.append_nil]
  · rw [beyond, hleft, List.dropWhile_append_of_pos hopen, beyond, List.dropWhile_idempotent]

theorem rest_succ {s : State} {token : Token} {more : List Token} (h : s.rest = token :: more) :
    State.rest { s with current := s.current + 1 } = more :=
  (@passing s { s with current := s.current + 1 } [token] more rfl rfl h).1

/-- Behind the next token stands the second that is left. -/
theorem second?_of_rest {s : State} {token : Token} {more : List Token} (h : s.rest = token :: more) :
    s.second? = more.head? := by
  rw [← rest_succ h, ← next?_eq]
  rfl

/-- The line on which an error at the end is reported. -/
def endLine (s : State) : Nat :=
  s.beyond.head?.elim 0 (·.line)

theorem site_of_rest {s : State} {token : Token} {more : List Token} (h : s.rest = token :: more) :
    s.site = .ofMark token.toMark := by
  have hopen : !isEnd token := not_isEnd_of_mem_rest (h ▸ List.mem_cons_self)
  have hhead : s.tokens[s.current]? = some token := by
    rw [← List.head?_drop, ← rest_append_beyond, h]
    rfl
  rw [site, hhead]
  simp only [Bool.not_eq_true'] at hopen
  simp [hopen]

/-- At the end an error has no token to point at. -/
theorem site_of_nil {s : State} (h : s.rest = []) : s.site = ⟨none, s.endLine⟩ := by
  have hhead : s.tokens[s.current]? = s.beyond.head? := by
    rw [← List.head?_drop, ← rest_append_beyond, h, List.nil_append]
  rw [site, hhead, endLine]
  cases hbeyond : s.beyond with
  | nil => rfl
  | cons token more => simp [isEnd_of_beyond hbeyond]

/-- From one state to another the cursor has passed tokens that were left, and no others. -/
structure Passes (s s' : State) : Prop where
  tokens : s'.tokens = s.tokens
  passed : ∃ taken, s.rest = taken ++ s'.rest ∧ s'.current = s.current + taken.length

namespace Passes

variable {s s₁ s' : State}

/-- To stay among the tokens is to pass nothing. -/
theorem of_same (htokens : s'.tokens = s.tokens) (hcurrent : s'.current = s.current) : s.Passes s' := by
  have hrest : s'.rest = s.rest := by
    rw [State.rest, htokens, hcurrent]
    rfl
  exact ⟨htokens, [], hrest.symm, hcurrent⟩

theorem refl (s : State) : s.Passes s :=
  .of_same rfl rfl

/-- What is passed in two steps. -/
theorem trans (h : s.Passes s₁) (h' : s₁.Passes s') : s.Passes s' where
  tokens := h'.tokens.trans h.tokens
  passed := by
    obtain ⟨taken, hrest, hcurrent⟩ := h.passed
    obtain ⟨taken', hrest', hcurrent'⟩ := h'.passed
    refine ⟨taken ++ taken', by rw [hrest, hrest', List.append_assoc], ?_⟩
    rw [hcurrent', hcurrent, List.length_append, Nat.add_assoc]

theorem of_rest {taken more : List Token} (htokens : s'.tokens = s.tokens)
    (hcurrent : s'.current = s.current + taken.length) (h : s.rest = taken ++ more) : s.Passes s' :=
  ⟨htokens, taken, by rw [(passing htokens hcurrent h).1, h], hcurrent⟩

theorem suffix (h : s.Passes s') : s'.rest <:+ s.rest := by
  obtain ⟨taken, hrest, -⟩ := h.passed
  exact ⟨taken, hrest.symm⟩

theorem le (h : s.Passes s') : s.current ≤ s'.current := by
  obtain ⟨taken, -, hcurrent⟩ := h.passed
  omega

theorem beyond (h : s.Passes s') : s'.beyond = s.beyond := by
  obtain ⟨taken, hrest, hcurrent⟩ := h.passed
  exact (passing h.tokens hcurrent hrest).2

end Passes

end State

theorem take?_of_nil {α : Type} {choose : TokenKind → Option α} {s : State} (h : s.rest = []) :
    take? choose s = .ok none s := by
  rw [take?, State.next?_of_nil h]

theorem atEnd_of_nil {s : State} (h : s.rest = []) : atEnd s = .ok true s := by
  rw [atEnd, State.next?_of_nil h, Option.isNone_none]

theorem atEnd_of_rest {s : State} {token : Token} {more : List Token} (h : s.rest = token :: more) :
    atEnd s = .ok false s := by
  rw [atEnd, State.next?_of_rest h, Option.isNone_some]

/-- What `take?` does with the next token. -/
theorem take?_cases {α : Type} (choose : TokenKind → Option α) (s : State) :
    take? choose s = .ok none s ∨
      ∃ a token more, s.rest = token :: more ∧ choose token.kind = some a ∧
        take? choose s = .ok (some (a, token.toMark)) { s with current := s.current + 1 } := by
  unfold take?
  rw [State.next?_eq]
  cases hrest : s.rest with
  | nil => exact .inl rfl
  | cons token more =>
    rw [List.head?_cons]
    cases hchoose : choose token.kind with
    | none => exact .inl (by simp only [hchoose])
    | some a => exact .inr ⟨a, token, more, rfl, hchoose, by simp only [hchoose]⟩

/-- A definition is announced where a function keyword is next and then a name. -/
theorem definesFunction_cases (s : State) :
    (Rules.definesFunction s = .ok true s ∧ ∃ first second more, s.rest = first :: second :: more ∧
      first.kind = .fun ∧ second.kind = .identifier) ∨
    (Rules.definesFunction s = .ok false s ∧ ∀ first second more, s.rest = first :: second :: more →
      first.kind = .fun → second.kind ≠ .identifier) := by
  unfold Rules.definesFunction
  cases hrest : s.rest with
  | nil =>
    rw [State.next?_of_nil hrest]
    exact .inr ⟨rfl, fun _ _ _ h => nomatch h⟩
  | cons first more =>
    rw [State.next?_of_rest hrest, State.second?_of_rest hrest]
    cases more with
    | nil => exact .inr ⟨by simp, fun _ _ _ h => nomatch h⟩
    | cons second more =>
      by_cases hkinds : first.kind = .fun ∧ second.kind = .identifier
      · exact .inl ⟨by simp [hkinds], first, second, more, rfl, hkinds⟩
      · refine .inr ⟨?_, ?_⟩
        · simpa using hkinds
        · rintro _ _ _ ⟨⟩ hfun hname
          exact hkinds ⟨hfun, hname⟩

/-- What is skipped are tokens before the next end. -/
theorem exists_skipped (last : TokenKind) (tokens : List Token) :
    ∃ taken more, (tokens.takeWhile fun token => !isEnd token) = taken ++ more ∧
      skipped last tokens = taken.length := by
  induction tokens generalizing last with
  | nil => exact ⟨[], [], rfl, rfl⟩
  | cons token rest ih =>
    unfold skipped
    split
    · exact ⟨[], _, rfl, rfl⟩
    · rename_i hgo
      have hopen : !isEnd token := by simp only [Bool.or_eq_true, not_or] at hgo; simp [hgo.1.1]
      obtain ⟨taken, more, hrest, hcount⟩ := ih token.kind
      refine ⟨token :: taken, more, ?_, congrArg (· + 1) hcount⟩
      rw [List.takeWhile_cons, if_pos hopen, hrest, List.cons_append]

/-- Recovery passes tokens before the next end, the next one in any case. -/
theorem exists_synchronized (s : State) :
    s.Passes (synchronize s) ∧ (synchronize s).rest <:+ s.rest.tail := by
  cases hrest : s.rest with
  | nil =>
    have hsame : synchronize s = s := by rw [synchronize, State.next?_of_nil hrest]
    rw [hsame, hrest]
    exact ⟨.refl s, List.suffix_refl []⟩
  | cons token more =>
    have hnext := State.rest_succ hrest
    obtain ⟨taken, left, htaken, hcount⟩ := exists_skipped token.kind (s.tokens.drop (s.current + 1))
    have hmore : more = taken ++ left := hnext.symm.trans htaken
    have hcurrent : (synchronize s).current = s.current + (token :: taken).length := by
      rw [synchronize, State.next?_of_rest hrest]
      dsimp only
      rw [hcount, List.length_cons]
      omega
    have htokens : (synchronize s).tokens = s.tokens := by
      rw [synchronize, State.next?_of_rest hrest]
    have hall : s.rest = (token :: taken) ++ left := by rw [hrest, hmore, List.cons_append]
    refine ⟨.of_rest htokens hcurrent hall, ?_⟩
    rw [(State.passing htokens hcurrent hall).1, List.tail_cons, hmore]
    exact List.suffix_append taken left

theorem passes_synchronize (s : State) : s.Passes (synchronize s) :=
  (exists_synchronized s).1

/-- Recovery passes the token at which the error was found, unless it is the end. -/
theorem synchronize_suffix (s : State) : (synchronize s).rest <:+ s.rest.tail :=
  (exists_synchronized s).2

/-- Recovery changes nothing but the place. -/
theorem synchronize_same (s : State) : (synchronize s).context = s.context ∧
    (synchronize s).nextId = s.nextId ∧ (synchronize s).errors = s.errors := by
  unfold synchronize
  split <;> exact ⟨rfl, rfl, rfl⟩

/-- There always is a first end, behind all that is read. -/
theorem ended_eq (tokens : List Token) : ∃ last after,
    ended tokens = (tokens.takeWhile fun token => !isEnd token) ++ last :: after ∧ isEnd last := by
  have hsplit := List.takeWhile_append_dropWhile (p := fun token => !isEnd token) (l := tokens)
  -- Without an end among the tokens one is put behind them; else the first that is there is split
  -- off.
  cases hdrop : tokens.dropWhile fun token => !isEnd token with
  | nil =>
    rw [hdrop, List.append_nil] at hsplit
    have hopen : ∀ token ∈ tokens, isEnd token = false := by
      intro token htoken
      rw [← hsplit] at htoken
      simpa using List.mem_takeWhile_imp htoken
    rw [hsplit]
    unfold ended
    cases hlast : tokens.getLast? with
    | none =>
      obtain rfl := List.getLast?_eq_none_iff.mp hlast
      exact ⟨_, [], rfl, rfl⟩
    | some last =>
      have hno := hopen last (List.mem_of_getLast? hlast)
      exact ⟨⟨⟨"", last.line⟩, .eof⟩, [], by simp [hno], rfl⟩
  | cons first rest =>
    have hfirst : isEnd first := by
      have hhead := List.head?_dropWhile_not (fun token => !isEnd token) tokens
      rw [hdrop] at hhead
      simpa using hhead
    unfold ended
    cases hlast : tokens.getLast? with
    | none =>
      obtain rfl := List.getLast?_eq_none_iff.mp hlast
      cases hdrop
    | some last =>
      by_cases hend : isEnd last
      · exact ⟨first, rest, by rw [← hdrop, hsplit]; simp [hend], hfirst⟩
      · refine ⟨first, rest ++ [⟨⟨"", last.line⟩, .eof⟩], ?_, hfirst⟩
        rw [← List.cons_append, ← hdrop, ← List.append_assoc, hsplit]
        simp [hend]

/-- Where an end is among the tokens, one that is supplied stands behind it. -/
theorem exists_ended_of_end (before : List Token) (last : Token) (after : List Token) :
    ∃ more, ended (before ++ last :: after) = before ++ last :: more := by
  unfold ended
  cases hlast : (before ++ last :: after).getLast? with
  | none => simp at hlast
  | some final =>
    dsimp only
    split
    · exact ⟨after, rfl⟩
    · exact ⟨after ++ [_], by rw [List.append_assoc, List.cons_append]⟩

/-- Before the first token, the tokens in front of the first end are left. -/
theorem rest_start (tokens : List Token) (firstId : Nat) :
    (State.start tokens firstId).rest = tokens.takeWhile fun token => !isEnd token := by
  obtain ⟨last, after, hended, hlast⟩ := ended_eq tokens
  have hopen : ∀ token ∈ tokens.takeWhile fun token => !isEnd token, !isEnd token := fun token htoken =>
    List.mem_takeWhile_imp (p := fun token => !isEnd token) htoken
  rw [State.rest, State.start, List.drop_zero, hended, List.takeWhile_append_of_pos hopen,
    List.takeWhile_cons, if_neg (by simp [hlast]), List.append_nil]

/-- No more is left at the start than there are tokens. -/
theorem length_rest_start_le (tokens : List Token) (firstId : Nat) :
    (State.start tokens firstId).rest.length ≤ tokens.length := by
  rw [rest_start]
  exact (List.takeWhile_sublist _).length_le

theorem beyond_start (tokens : List Token) (firstId : Nat) :
    (State.start tokens firstId).beyond = (ended tokens).dropWhile fun token => !isEnd token :=
  rfl

/-- There is always an end ahead. -/
theorem exists_beyond_start (tokens : List Token) (firstId : Nat) :
    ∃ last after, (State.start tokens firstId).beyond = last :: after := by
  obtain ⟨last, after, hended, -⟩ := ended_eq tokens
  have hleft := (State.start tokens firstId).rest_append_beyond
  rw [rest_start] at hleft
  exact ⟨last, after, List.append_cancel_left (hleft.trans hended)⟩

end Lox.Grammar
