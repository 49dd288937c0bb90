import Lox.Proofs.Grammar.State
import Lox.Proofs.Token.Spelling

namespace Lox.Grammar

/-- The tokens that are left are spelled as their kinds say. -/
def State.Spelled (s : State) : Prop :=
  ∀ t ∈ s.rest, t.Spelled

/-- A reader numbers upwards and takes no error back. Without an error, what it reads is as `Q` says
    of the tree and of the numbers before and after it. -/
structure Reads {α : Type} (read : Reader α) (Q : α → Nat → Nat → Prop) : Prop where
  ok : ∀ {s a s'}, s.Spelled → read s = .ok a s' →
    s'.Spelled ∧ s.nextId ≤ s'.nextId ∧
      (s'.errors = [] → s.errors = [] ∧ Q a s.nextId s'.nextId)
  error : ∀ {s e s'}, s.Spelled → read s = .error e s' → s'.Spelled ∧ s.nextId ≤ s'.nextId

variable {α β : Type} {read : Reader α} {Q R : α → Nat → Nat → Prop}

/-- What is read may be said less of. -/
theorem Reads.mono (h : Reads read Q) (hQ : ∀ {a lo hi}, lo ≤ hi → Q a lo hi → R a lo hi) :
    Reads read R where
  ok hs hread := by
    obtain ⟨hspelled, hnext, herrors⟩ := h.ok hs hread
    exact ⟨hspelled, hnext, fun hnone => (herrors hnone).imp id (hQ hnext)⟩
  error := h.error

/-- A sequence of readers, as the state goes through it. -/
theorem bind_apply (read : Reader α) (f : α → Reader β) (s : State) :
    (read >>= f) s = match read s with
      | .ok a s' => f a s'
      | .error e s' => .error e s' := by
  simp only [bind, EStateM.bind]
  cases read s <;> rfl

/-- What is read next is read with the numbers that are left. -/
theorem Reads.bind {f : α → Reader β} {S : β → Nat → Nat → Prop} (h : Reads read Q)
    (hnext : ∀ a lo, Reads (f a) fun b mid hi => lo ≤ mid → mid ≤ hi → Q a lo mid → S b lo hi) :
    Reads (read >>= f) S where
  ok {s b s'} hs hboth := by
    rw [bind_apply] at hboth
    cases hread : read s with
    | error e s₁ =>
      rw [hread] at hboth
      cases hboth
    | ok a s₁ =>
      rw [hread] at hboth
      obtain ⟨hspelled, hlo, herrors⟩ := h.ok hs hread
      obtain ⟨hspelled', hhi, herrors'⟩ := (hnext a s.nextId).ok hspelled hboth
      refine ⟨hspelled', Nat.le_trans hlo hhi, fun hnone => ?_⟩
      obtain ⟨hnone₁, hS⟩ := herrors' hnone
      obtain ⟨hnone₀, hQ⟩ := herrors hnone₁
      exact ⟨hnone₀, hS hlo hhi hQ⟩
  error {s e s'} hs hboth := by
    rw [bind_apply] at hboth
    cases hread : read s with
    | error e s₁ =>
      rw [hread] at hboth
      cases hboth
      exact h.error hs hread
    | ok a s₁ =>
      rw [hread] at hboth
      obtain ⟨hspelled, hlo, _⟩ := h.ok hs hread
      obtain ⟨hspelled', hhi⟩ := (hnext a s.nextId).error hspelled hboth
      exact ⟨hspelled', Nat.le_trans hlo hhi⟩

/-- What is read may be put into an option. -/
theorem Reads.some (h : Reads read Q) :
    Reads (Option.some <$> read) fun found lo hi => ∀ a, found = Option.some a → Q a lo hi where
  ok {s found s'} hs hread := by
    simp only [Functor.map, EStateM.map] at hread
    cases hfirst : read s with
    | error e s₁ =>
      rw [hfirst] at hread
      cases hread
    | ok a s₁ =>
      rw [hfirst] at hread
      cases hread
      obtain ⟨hspelled, hnext, herrors⟩ := h.ok hs hfirst
      refine ⟨hspelled, hnext, fun hnone => (herrors hnone).imp id fun hQ a' ha => ?_⟩
      cases ha
      exact hQ
  error {s e s'} hs hread := by
    simp only [Functor.map, EStateM.map] at hread
    cases hfirst : read s with
    | ok a s₁ =>
      rw [hfirst] at hread
      cases hread
    | error e s₁ =>
      rw [hfirst] at hread
      cases hread
      exact h.error hs hfirst

theorem reads_pure {a : α} (h : ∀ n, Q a n n) : Reads (pure a) Q where
  ok hs hread := by
    cases hread
    exact ⟨hs, Nat.le_refl _, fun hnone => ⟨hnone, h _⟩⟩
  error _ hread := nomatch hread

/-- Where reading fails there is nothing to say of what is read. -/
theorem reads_fail (cause : SyntaxCause) : Reads (fail cause : Reader α) Q where
  ok _ hread := nomatch hread
  error hs hread := by
    cases hread
    exact ⟨hs, Nat.le_refl _⟩

/-- After a report nothing is said about what is read. -/
theorem reads_report (cause : SyntaxCause) (site : Site) :
    Reads (report cause site) fun _ _ _ => False where
  ok hs hread := by
    cases hread
    exact ⟨hs, Nat.le_refl _, fun hnone => nomatch hnone⟩
  error _ hread := nomatch hread

/-- An error that is noted leaves nothing to say of a program without errors. -/
theorem reads_reportHere (cause : SyntaxCause) : Reads (reportHere cause) fun _ _ _ => False where
  ok hs hread := by
    cases hread
    exact ⟨hs, Nat.le_refl _, fun hnone => nomatch hnone⟩
  error _ hread := nomatch hread

/-- A number that is given out is the next one. -/
theorem reads_freshId : Reads freshId fun id lo hi => id = lo ∧ hi = lo + 1 where
  ok hs hread := by
    cases hread
    exact ⟨hs, Nat.le_succ _, fun hnone => ⟨hnone, rfl, rfl⟩⟩
  error _ hread := nomatch hread

theorem reads_next (kind : TokenKind) : Reads (next kind) fun _ _ _ => True where
  ok hs hread := by
    cases hread
    exact ⟨hs, Nat.le_refl _, fun hnone => ⟨hnone, trivial⟩⟩
  error _ hread := nomatch hread

theorem reads_atEnd : Reads atEnd fun _ _ _ => True where
  ok hs hread := by
    cases hread
    exact ⟨hs, Nat.le_refl _, fun hnone => ⟨hnone, trivial⟩⟩
  error _ hread := nomatch hread

theorem reads_get : Reads (get : Reader State) fun _ _ _ => True where
  ok hs hread := by
    cases hread
    exact ⟨hs, Nat.le_refl _, fun hnone => ⟨hnone, trivial⟩⟩
  error _ hread := nomatch hread

/-- What is taken was chosen by the kind of a token that is spelled as its kind says. -/
theorem reads_take? (choose : TokenKind → Option α) :
    Reads (take? choose) fun found _ _ => ∀ a mark, found = some (a, mark) →
      ∃ kind, choose kind = some a ∧ Token.Spelled ⟨mark, kind⟩ where
  ok {s found s'} hs hread := by
    rcases take?_cases choose s with hnone | ⟨a, token, more, hrest, hchoose, hsome⟩
    · rw [hnone] at hread
      cases hread
      exact ⟨hs, Nat.le_refl _, fun hnone => ⟨hnone, fun _ _ h => nomatch h⟩⟩
    · rw [hsome] at hread
      cases hread
      have htoken : token.Spelled := hs token (hrest ▸ List.mem_cons_self)
      refine ⟨fun t ht => hs t ?_, Nat.le_refl _, fun hnone => ⟨hnone, fun a' mark hfound => ?_⟩⟩
      · rw [State.rest_succ hrest] at ht
        exact hrest ▸ List.mem_cons_of_mem _ ht
      · cases hfound
        exact ⟨token.kind, hchoose, htoken⟩
  error {s e s'} _ hread := by
    rcases take?_cases choose s with hnone | ⟨_, _, _, -, -, hsome⟩
    · rw [hnone] at hread
      cases hread
    · rw [hsome] at hread
      cases hread

theorem reads_accept (kind : TokenKind) :
    Reads (accept kind) fun found _ _ => ∀ mark, found = some mark →
      Token.Spelled ⟨mark, kind⟩ := by
  refine (reads_take? _).bind fun found _ => reads_pure fun _ _ _ hspelled mark hmark => ?_
  obtain ⟨⟨_, _⟩, hfound, rfl⟩ := Option.map_eq_some_iff.mp hmark
  obtain ⟨other, hchoose, hother⟩ := hspelled _ _ hfound
  split at hchoose
  · rename_i hkind
    exact hkind ▸ hother
  · cases hchoose

theorem reads_expect (place : Place) : Reads (expect place) fun _ _ _ => True := by
  apply (reads_accept _).bind
  intro found _
  cases found with
  | none => exact reads_fail _
  | some mark => exact reads_pure fun _ _ _ _ => trivial

/-- A name that is read is none of the language's own. -/
theorem reads_expectName (role : NameRole) : Reads (expectName role) fun name _ _ => name.Plain := by
  apply (reads_accept _).bind
  intro found _
  cases found with
  | none => exact reads_fail _
  | some mark => exact reads_pure fun _ _ _ hspelled => (hspelled mark rfl).identifier rfl

/-- A changed context does not change what is read. -/
theorem Reads.within (h : Reads read Q) (change : Change) :
    Reads (within change read) Q where
  ok {s a s'} hs hread := by
    unfold Grammar.within at hread
    have hs' : State.Spelled { s with context := change.enter s.context } := hs
    split at hread
    · rename_i hinner
      cases hread
      have hrun := h.ok hs' hinner
      exact ⟨hrun.1, hrun.2.1, hrun.2.2⟩
    · cases hread
  error {s e s'} hs hread := by
    unfold Grammar.within at hread
    have hs' : State.Spelled { s with context := change.enter s.context } := hs
    split at hread
    · cases hread
    · rename_i hinner
      cases hread
      have hrun := h.error hs' hinner
      exact ⟨hrun.1, hrun.2⟩

end Lox.Grammar
