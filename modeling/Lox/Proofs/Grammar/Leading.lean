import Lox.Proofs.Grammar.State

namespace Lox.Grammar

/-- Where these tokens are next in the context, the reader comes, with numbers from the first one up to the
    second one, to what the other reader makes of the tokens that are left. -/
structure Leads {α : Type} (read next : Reader α) (c : Context) (ts : List Token) (lo hi : Nat)
    (rest : List Token) : Prop where
  run : ∀ s : State, s.rest = ts ++ rest → s.context = c → s.nextId = lo →
    read s = next { s with current := s.current + ts.length, nextId := hi }

/-- The reader takes these tokens for this result. -/
abbrev Yields {α : Type} (read : Reader α) (c : Context) (ts : List Token) (a : α) (lo hi : Nat)
    (rest : List Token) : Prop :=
  Leads read (pure a) c ts lo hi rest

namespace Leads

variable {α β : Type} {read : Reader α} {next last : Reader β} {c : Context} {ts ts' rest : List Token}
  {lo mid hi : Nat} {a : α} {b : β} {token : Token}

/-- A reader leads to itself by no token. -/
theorem refl {n : Nat} : Leads next next c [] n n rest where
  run s _ _ hid := by
    subst hid
    rfl

/-- Readers lead on from one to the next. -/
theorem trans {first : Reader β} (h : Leads first next c ts lo mid (ts' ++ rest))
    (hnext : Leads next last c ts' mid hi rest) : Leads first last c (ts ++ ts') lo hi rest where
  run s hrest hcontext hid := by
    rw [List.append_assoc] at hrest
    have hmore :=
      (@State.passing s { s with current := s.current + ts.length, nextId := mid } ts (ts' ++ rest)
        rfl rfl hrest).1
    rw [h.run s hrest hcontext hid, hnext.run _ hmore hcontext rfl, List.length_append, Nat.add_assoc]

/-- A reader that yields something leads to what is done with it. -/
theorem bind {f : α → Reader β} (h : Yields read c ts a lo mid (ts' ++ rest))
    (hnext : Leads (f a) last c ts' mid hi rest) : Leads (read >>= f) last c (ts ++ ts') lo hi rest := by
  have hfirst : Leads (read >>= f) (f a) c ts lo mid (ts' ++ rest) := by
    refine ⟨fun s hrest hcontext hid => ?_⟩
    simp only [Bind.bind, EStateM.bind]
    rw [h.run s hrest hcontext hid]
    rfl
  exact hfirst.trans hnext

/-- The last tokens of a row. -/
theorem bind_last {f : α → Reader β} (h : Yields read c ts a lo mid rest)
    (hnext : Leads (f a) last c [] mid hi rest) : Leads (read >>= f) last c ts lo hi rest := by
  rw [← List.append_nil ts]
  exact bind h hnext

theorem bind_pure {f : α → Reader β} (h : Yields read c ts a lo hi rest) (hf : f a = pure b) :
    Yields (read >>= f) c ts b lo hi rest :=
  bind_last h (hf ▸ refl)

theorem some (h : Yields read c ts a lo hi rest) :
    Yields (Option.some <$> read) c ts (some a) lo hi rest := by
  rw [← bind_pure_comp]
  exact bind_pure h rfl

/-- A fresh number is given out on the way. -/
theorem freshId {f : Nat → Reader β} (h : Leads (f lo) last c ts (lo + 1) hi rest) :
    Leads (Grammar.freshId >>= f) last c ts lo hi rest where
  run s hrest hcontext hid := by
    subst hid
    exact h.run { s with nextId := s.nextId + 1 } hrest hcontext rfl

theorem get {f : State → Reader β} (h : ∀ s, s.context = c → Leads (f s) last c ts lo hi rest) :
    Leads (MonadState.get >>= f) last c ts lo hi rest :=
  ⟨fun s hrest hcontext hid => (h s hcontext).run s hrest hcontext hid⟩

/-- A token of another kind is seen, and not taken. -/
theorem next_false {kind : TokenKind} {f : Bool → Reader β}
    (hhead : ∀ token ∈ (ts ++ rest).head?, token.kind ≠ kind)
    (h : Leads (f false) last c ts lo hi rest) :
    Leads (Grammar.next kind >>= f) last c ts lo hi rest where
  run s hrest hcontext hid := by
    have hnext : s.next?.any (·.kind = kind) = false := by
      rw [State.next?_eq, hrest]
      cases htoken : (ts ++ rest).head? with
      | none => rfl
      | some token => simpa using hhead token htoken
    rw [← h.run s hrest hcontext hid]
    simp only [Bind.bind, EStateM.bind, Grammar.next, hnext]

/-- A token of the kind is seen, and not taken. -/
theorem next_true {kind : TokenKind} {f : Bool → Reader β} (htoken : token ∈ (ts ++ rest).head?)
    (hkind : token.kind = kind) (h : Leads (f true) last c ts lo hi rest) :
    Leads (Grammar.next kind >>= f) last c ts lo hi rest where
  run s hrest hcontext hid := by
    have hnext : s.next?.any (·.kind = kind) = true := by
      rw [State.next?_eq, hrest, Option.mem_def.mp htoken]
      simpa using hkind
    rw [← h.run s hrest hcontext hid]
    simp only [Bind.bind, EStateM.bind, Grammar.next, hnext]

/-- The end is seen just if no token is left. -/
theorem atEnd {f : Bool → Reader β} (h : Leads (f (ts ++ rest).isEmpty) last c ts lo hi rest) :
    Leads (Grammar.atEnd >>= f) last c ts lo hi rest where
  run s hrest hcontext hid := by
    have hnone : s.next?.isNone = (ts ++ rest).isEmpty := by
      rw [State.next?_eq, hrest]
      cases ts ++ rest <;> rfl
    rw [← h.run s hrest hcontext hid]
    simp only [Bind.bind, EStateM.bind, Grammar.atEnd, hnone]

/-- A token that is chosen is taken on the way. -/
theorem take? {choose : TokenKind → Option α} {f : Option (α × Mark) → Reader β}
    (htoken : choose token.kind = Option.some a)
    (h : Leads (f (Option.some (a, token.toMark))) last c ts lo hi rest) :
    Leads (Grammar.take? choose >>= f) last c (token :: ts) lo hi rest where
  run s hrest hcontext hid := by
    have hmore := State.rest_succ hrest
    rw [List.length_cons, Nat.add_comm ts.length, ← Nat.add_assoc,
      ← h.run { s with current := s.current + 1 } hmore hcontext hid]
    simp only [Bind.bind, EStateM.bind, Grammar.take?, State.next?_of_rest hrest, htoken]

/-- Where no token is chosen none is taken. -/
theorem take?_none {choose : TokenKind → Option α} {f : Option (α × Mark) → Reader β}
    (hhead : ∀ token ∈ (ts ++ rest).head?, choose token.kind = none)
    (h : Leads (f none) last c ts lo hi rest) :
    Leads (Grammar.take? choose >>= f) last c ts lo hi rest where
  run s hrest hcontext hid := by
    have htake : Grammar.take? choose s = .ok none s := by
      rcases take?_cases choose s with hnone | ⟨a, token, more, htoken, hchoose, -⟩
      · exact hnone
      · rw [hhead token (by rw [← hrest, htoken]; rfl)] at hchoose
        cases hchoose
    rw [← h.run s hrest hcontext hid]
    simp only [Bind.bind, EStateM.bind, htake]

theorem accept {kind : TokenKind} {f : Option Mark → Reader β} (hkind : token.kind = kind)
    (h : Leads (f (Option.some token.toMark)) last c ts lo hi rest) :
    Leads (Grammar.accept kind >>= f) last c (token :: ts) lo hi rest := by
  unfold Grammar.accept
  rw [bind_assoc]
  exact take? (a := ()) (if_pos hkind) h

theorem accept_none {kind : TokenKind} {f : Option Mark → Reader β}
    (hhead : ∀ token ∈ (ts ++ rest).head?, token.kind ≠ kind) (h : Leads (f none) last c ts lo hi rest) :
    Leads (Grammar.accept kind >>= f) last c ts lo hi rest := by
  unfold Grammar.accept
  rw [bind_assoc]
  exact take?_none (fun token htoken => if_neg (hhead token htoken)) h

theorem expect {place : Place} {f : Mark → Reader β} (hkind : token.kind = place.kind)
    (h : Leads (f token.toMark) last c ts lo hi rest) :
    Leads (Grammar.expect place >>= f) last c (token :: ts) lo hi rest := by
  unfold Grammar.expect
  rw [bind_assoc]
  exact accept hkind h

theorem expectName {role : NameRole} {f : Mark → Reader β} (hkind : token.kind = .identifier)
    (h : Leads (f token.toMark) last c ts lo hi rest) :
    Leads (Grammar.expectName role >>= f) last c (token :: ts) lo hi rest := by
  unfold Grammar.expectName
  rw [bind_assoc]
  exact accept hkind h

/-- What is read in a changed context is yielded from the context before. -/
theorem within {change : Change} (h : Yields read (change.enter c) ts a lo hi rest) :
    Yields (within change read) c ts a lo hi rest where
  run s hrest hcontext hid := by
    subst hcontext
    unfold Grammar.within
    simp only [h.run { s with context := change.enter s.context } hrest rfl hid]
    show EStateM.Result.ok a _ = EStateM.Result.ok a _
    simp only [change.leave_enter]

end Leads

end Lox.Grammar
