import Lox.Proofs.Grammar.State

namespace Lox.Grammar

/-- What is said of a reading: the context, what has been read, the tokens taken, the numbers before and
    after, and the tokens left. -/
abbrev Account (α : Type) :=
  Context → α → List Token → Nat → Nat → List Token → Prop

/-- Where fewer than `bound` tokens are left and no error is found, the reader keeps the context and takes
    tokens from the front, as the account says. -/
structure Takes {α : Type} (bound : Nat) (read : Reader α) (Q : Account α) : Prop where
  ok : ∀ {s a s'}, read s = .ok a s' → s'.errors = [] → s.errors = [] ∧ (s.rest.length < bound →
    s'.context = s.context ∧
      ∃ ts, s.rest = ts ++ s'.rest ∧ Q s.context a ts s.nextId s'.nextId s'.rest)

namespace Takes

variable {α β : Type} {bound inner : Nat} {read : Reader α} {f : α → Reader β} {Q R : Account α}
  {S S' : Account β}

/-- What is said of the tokens taken may be said less of. -/
theorem mono (h : Takes bound read Q)
    (hQ : ∀ {c a ts lo hi rest}, Q c a ts lo hi rest → R c a ts lo hi rest) :
    Takes bound read R where
  ok hread hnone := by
    obtain ⟨hbefore, htakes⟩ := h.ok hread hnone
    refine ⟨hbefore, fun hbound => ?_⟩
    obtain ⟨hcontext, ts, hrest, hts⟩ := htakes hbound
    exact ⟨hcontext, ts, hrest, hQ hts⟩

/-- A reader that is for more tokens is for fewer as well. -/
theorem less (h : Takes bound read Q) (hinner : inner ≤ bound) : Takes inner read Q where
  ok hread hnone := by
    obtain ⟨hbefore, htakes⟩ := h.ok hread hnone
    exact ⟨hbefore, fun hshort => htakes (Nat.lt_of_lt_of_le hshort hinner)⟩

/-- No more tokens are taken than there are. -/
theorem short (h : Takes bound read Q) :
    Takes bound read fun c a ts lo hi rest => Q c a ts lo hi rest ∧ ts.length < bound where
  ok {s a s'} hread hnone := by
    obtain ⟨hbefore, htakes⟩ := h.ok hread hnone
    refine ⟨hbefore, fun hbound => ?_⟩
    obtain ⟨hcontext, ts, hrest, hQ⟩ := htakes hbound
    have hlength := congrArg List.length hrest
    rw [List.length_append] at hlength
    exact ⟨hcontext, ts, hrest, hQ, by omega⟩

/-- What is read next starts where this reader stops. -/
theorem bind (h : Takes bound read Q)
    (hf : ∀ a, Takes bound (f a) fun c b ts' mid hi rest =>
      ∀ ts lo, Q c a ts lo mid (ts' ++ rest) → S c b (ts ++ ts') lo hi rest) :
    Takes bound (read >>= f) S where
  ok {s b s'} hboth hnone := by
    simp only [Bind.bind, EStateM.bind] at hboth
    cases hread : read s with
    | error e s₁ =>
      rw [hread] at hboth
      cases hboth
    | ok a s₁ =>
      rw [hread] at hboth
      obtain ⟨hnone₁, hnext⟩ := (hf a).ok hboth hnone
      obtain ⟨hnone₀, hfirst⟩ := h.ok hread hnone₁
      refine ⟨hnone₀, fun hbound => ?_⟩
      obtain ⟨hcontext, ts, hrest, hQ⟩ := hfirst hbound
      have hlength := congrArg List.length hrest
      rw [List.length_append] at hlength
      obtain ⟨hcontext', ts', hrest', hS⟩ := hnext (by omega)
      rw [hcontext] at hcontext' hS
      exact ⟨hcontext', ts ++ ts', by rw [hrest, hrest', List.append_assoc], hS ts _ (hrest' ▸ hQ)⟩

/-- A result takes no tokens. -/
theorem pure {a : α} (h : ∀ c n rest, Q c a [] n n rest) : Takes bound (pure a) Q where
  ok hread hnone := by
    cases hread
    exact ⟨hnone, fun _ => ⟨rfl, [], rfl, h _ _ _⟩⟩

theorem fail (cause : SyntaxCause) : Takes bound (fail cause) Q where
  ok hread := nomatch hread

/-- A reader that goes on after a report does not end without an error. -/
theorem report {cause : SyntaxCause} {site : Site} {next : Reader β} (h : Takes bound next S') :
    Takes bound (Grammar.report cause site >>= fun _ => next) S where
  ok hread hnone := nomatch (h.ok hread hnone).1

theorem reportHere {cause : SyntaxCause} {next : Reader β} (h : Takes bound next S') :
    Takes bound (Grammar.reportHere cause >>= fun _ => next) S where
  ok hread hnone := nomatch (h.ok hread hnone).1

/-- A fresh number is the one that the tokens taken are numbered from. -/
theorem freshId {f : Nat → Reader β}
    (h : ∀ n, Takes bound (f n) fun c b ts mid hi rest => mid = n + 1 → S c b ts n hi rest) :
    Takes bound (Grammar.freshId >>= f) S where
  ok {s b s'} hread hnone := by
    obtain ⟨hbefore, htakes⟩ := (h s.nextId).ok hread hnone
    refine ⟨hbefore, fun hbound => ?_⟩
    obtain ⟨hcontext, ts, hrest, hS⟩ := htakes hbound
    exact ⟨hcontext, ts, hrest, hS rfl⟩

/-- The context is the one in which the tokens are taken. -/
theorem get {f : State → Reader β}
    (h : ∀ s, Takes bound (f s) fun c b ts lo hi rest => c = s.context → S c b ts lo hi rest) :
    Takes bound (MonadState.get >>= f) S where
  ok {s b s'} hread hnone := by
    obtain ⟨hbefore, htakes⟩ := (h s).ok hread hnone
    refine ⟨hbefore, fun hbound => ?_⟩
    obtain ⟨hcontext, ts, hrest, hS⟩ := htakes hbound
    exact ⟨hcontext, ts, hrest, hS rfl⟩

theorem next {kind : TokenKind} {f : Bool → Reader β} (h : ∀ found, Takes bound (f found) S) :
    Takes bound (Grammar.next kind >>= f) S where
  ok hread hnone := (h _).ok hread hnone

/-- At the end no token is left, neither here nor behind. -/
theorem atEnd {f : Bool → Reader β} (hend : Takes bound (f true) fun c b ts lo hi rest =>
      ts ++ rest = [] → S c b ts lo hi rest) (hmore : Takes bound (f false) S) :
    Takes bound (Grammar.atEnd >>= f) S where
  ok {s b s'} hread hnone := by
    simp only [Bind.bind, EStateM.bind, Grammar.atEnd, State.next?_eq] at hread
    cases hleft : s.rest with
    | cons token more =>
      rw [hleft] at hread
      exact hleft ▸ hmore.ok hread hnone
    | nil =>
      rw [hleft] at hread
      obtain ⟨hbefore, htakes⟩ := hend.ok hread hnone
      refine ⟨hbefore, fun hbound => ?_⟩
      obtain ⟨hcontext, ts, hrest, hS⟩ := htakes (hleft ▸ hbound)
      exact ⟨hcontext, ts, hleft ▸ hrest, hS (hrest.symm.trans hleft)⟩

/-- The step behind `take?`, within the bounds of what is left. -/
private theorem take?_of_le {choose : TokenKind → Option α} {f : Option (α × Mark) → Reader β}
    (hnone : Takes bound (f none) fun c b ts lo hi rest =>
      (∀ token ∈ (ts ++ rest).head?, choose token.kind = none) → S c b ts lo hi rest)
    (hsome : ∀ a (token : Token), choose token.kind = some a →
      Takes inner (f (some (a, token.toMark))) fun c b ts lo hi rest => S c b (token :: ts) lo hi rest)
    (hinner : bound ≤ inner + 1) : Takes bound (Grammar.take? choose >>= f) S where
  ok {s b s'} hread herrors := by
    have hskip (hf : f none s = .ok b s') (hhead : ∀ token ∈ s.rest.head?, choose token.kind = none) :
        s.errors = [] ∧ (s.rest.length < bound → s'.context = s.context ∧
          ∃ ts, s.rest = ts ++ s'.rest ∧ S s.context b ts s.nextId s'.nextId s'.rest) := by
      obtain ⟨hbefore, htakes⟩ := hnone.ok hf herrors
      refine ⟨hbefore, fun hbound => ?_⟩
      obtain ⟨hcontext, ts, hrest, hS⟩ := htakes hbound
      exact ⟨hcontext, ts, hrest, hS (hrest ▸ hhead)⟩
    simp only [Bind.bind, EStateM.bind, Grammar.take?, State.next?_eq] at hread
    cases hrest : s.rest with
    | nil =>
      rw [hrest] at hread
      exact hrest ▸ hskip hread (by simp [hrest])
    | cons token rest =>
      rw [hrest] at hread
      cases hchoose : choose token.kind with
      | none =>
        simp only [List.head?_cons, hchoose] at hread
        exact hrest ▸ hskip hread (by simp [hrest, hchoose])
      | some a =>
        simp only [List.head?_cons, hchoose] at hread
        obtain ⟨hbefore, htakes⟩ := (hsome a token hchoose).ok hread herrors
        rw [State.rest_succ hrest] at htakes
        refine ⟨hbefore, fun hbound => ?_⟩
        obtain ⟨hcontext, ts, hts, hS⟩ := htakes (by simp only [List.length_cons] at hbound ⊢; omega)
        exact ⟨hcontext, token :: ts, congrArg (token :: ·) hts, hS⟩

/-- Taking a token leaves one token less to read from. -/
theorem take?_succ {choose : TokenKind → Option α} {f : Option (α × Mark) → Reader β}
    (hnone : Takes (bound + 1) (f none) fun c b ts lo hi rest =>
      (∀ token ∈ (ts ++ rest).head?, choose token.kind = none) → S c b ts lo hi rest)
    (hsome : ∀ a (token : Token), choose token.kind = some a →
      Takes bound (f (some (a, token.toMark))) fun c b ts lo hi rest =>
        S c b (token :: ts) lo hi rest) :
    Takes (bound + 1) (Grammar.take? choose >>= f) S :=
  take?_of_le hnone hsome (Nat.le_refl _)

/-- A token that is chosen comes before those that the rest takes. Otherwise none of that choice is
    next. -/
theorem take? {choose : TokenKind → Option α} {f : Option (α × Mark) → Reader β}
    (hnone : Takes bound (f none) fun c b ts lo hi rest =>
      (∀ token ∈ (ts ++ rest).head?, choose token.kind = none) → S c b ts lo hi rest)
    (hsome : ∀ a (token : Token), choose token.kind = some a →
      Takes bound (f (some (a, token.toMark))) fun c b ts lo hi rest =>
        S c b (token :: ts) lo hi rest) :
    Takes bound (Grammar.take? choose >>= f) S :=
  take?_of_le hnone hsome (Nat.le_succ _)

private theorem accept_of_le {kind : TokenKind} {f : Option Mark → Reader β}
    (hnone : Takes bound (f none) fun c b ts lo hi rest =>
      (∀ token ∈ (ts ++ rest).head?, token.kind ≠ kind) → S c b ts lo hi rest)
    (hsome : ∀ token : Token, token.kind = kind →
      Takes inner (f (some token.toMark)) fun c b ts lo hi rest => S c b (token :: ts) lo hi rest)
    (hinner : bound ≤ inner + 1) : Takes bound (Grammar.accept kind >>= f) S := by
  unfold Grammar.accept
  rw [bind_assoc]
  refine take?_of_le ?_ (fun a token htoken => ?_) hinner
  · refine hnone.mono fun hS hhead => hS fun token htoken hkind => ?_
    have hchoose := hhead token htoken
    rw [if_pos hkind] at hchoose
    cases hchoose
  · split at htoken
    · rename_i hkind
      exact hsome token hkind
    · cases htoken

/-- A token that is accepted leaves one token fewer within bounds. -/
theorem accept_succ {kind : TokenKind} {f : Option Mark → Reader β}
    (hnone : Takes (bound + 1) (f none) fun c b ts lo hi rest =>
      (∀ token ∈ (ts ++ rest).head?, token.kind ≠ kind) → S c b ts lo hi rest)
    (hsome : ∀ token : Token, token.kind = kind →
      Takes bound (f (some token.toMark)) fun c b ts lo hi rest => S c b (token :: ts) lo hi rest) :
    Takes (bound + 1) (Grammar.accept kind >>= f) S :=
  accept_of_le hnone hsome (Nat.le_refl _)

/-- A token that is accepted comes before those that the rest takes. Otherwise another one is next.
    -/
theorem accept {kind : TokenKind} {f : Option Mark → Reader β}
    (hnone : Takes bound (f none) fun c b ts lo hi rest =>
      (∀ token ∈ (ts ++ rest).head?, token.kind ≠ kind) → S c b ts lo hi rest)
    (hsome : ∀ token : Token, token.kind = kind →
      Takes bound (f (some token.toMark)) fun c b ts lo hi rest => S c b (token :: ts) lo hi rest) :
    Takes bound (Grammar.accept kind >>= f) S :=
  accept_of_le hnone hsome (Nat.le_succ _)

/-- The mark that is asked for comes before the tokens that the rest takes. -/
theorem expect {place : Place} {f : Mark → Reader β}
    (h : ∀ token : Token, token.kind = place.kind →
      Takes bound (f token.toMark) fun c b ts lo hi rest => S c b (token :: ts) lo hi rest) :
    Takes bound (Grammar.expect place >>= f) S := by
  unfold Grammar.expect
  rw [bind_assoc]
  exact accept ⟨nofun⟩ h

theorem expectName {role : NameRole} {f : Mark → Reader β}
    (h : ∀ token : Token, token.kind = .identifier →
      Takes bound (f token.toMark) fun c b ts lo hi rest => S c b (token :: ts) lo hi rest) :
    Takes bound (Grammar.expectName role >>= f) S := by
  unfold Grammar.expectName
  rw [bind_assoc]
  exact accept ⟨nofun⟩ h

/-- Tokens are taken in a changed context, which is left behind with its change undone. -/
theorem within {change : Change} (h : Takes bound read Q) :
    Takes bound (within change read) fun c => Q (change.enter c) where
  ok {s a s'} hread hnone := by
    unfold Grammar.within at hread
    split at hread
    · rename_i hinner
      cases hread
      obtain ⟨hbefore, htakes⟩ := h.ok hinner hnone
      refine ⟨hbefore, fun hbound => ?_⟩
      obtain ⟨hcontext, ts, hrest, hQ⟩ := htakes hbound
      refine ⟨?_, ts, hrest, hQ⟩
      rw [hcontext]
      exact change.leave_enter s.context
    · cases hread

theorem some (h : Takes bound read Q) :
    Takes bound (Option.some <$> read) fun c found ts lo hi rest =>
      ∃ a, found = Option.some a ∧ Q c a ts lo hi rest := by
  rw [← bind_pure_comp]
  refine h.bind fun a => pure fun c n rest ts lo hQ => ?_
  rw [List.append_nil]
  exact ⟨a, rfl, hQ⟩

end Takes

end Lox.Grammar
