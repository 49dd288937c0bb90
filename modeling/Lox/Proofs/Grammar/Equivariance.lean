import Lox.Proofs.Grammar.Reading
import Lox.Proofs.Grammar.Relabeling

namespace Lox

namespace Grammar

variable {f : Relabeling} {before : List SyntaxError} {α α' β β' : Type}

/-- The second state has the tokens of the first one left, with other labels, and stands behind errors that
    were found before. The tokens passed may be others, and so may those beyond the next end. -/
structure State.Behind (f : Relabeling) (before : List SyntaxError) (s s' : State) : Prop where
  rest : s'.rest = s.rest.map (Token.relabel f)
  endLine : s'.endLine = f.line s.endLine
  context : s'.context = s.context
  nextId : s'.nextId = f.id s.nextId
  errors : s'.errors = s.errors.map (SyntaxError.relabel f) ++ before

/-- The second result is the first one with other labels, behind errors that were found before. -/
inductive ResultBehind (f : Relabeling) (before : List SyntaxError) (g : α → α') :
    EStateM.Result SyntaxError State α → EStateM.Result SyntaxError State α' → Prop where
  | ok {a : α} {s s' : State} (h : s.Behind f before s') : ResultBehind f before g (.ok a s) (.ok (g a) s')
  | error {e : SyntaxError} {s s' : State} (h : s.Behind f before s') :
      ResultBehind f before g (.error e s) (.error (e.relabel f) s')

/-- The second reader reads, behind other errors and with other labels, what the first one reads. -/
def Commutes (f : Relabeling) (before : List SyntaxError) (g : α → α') (read : Reader α)
    (read' : Reader α') : Prop :=
  ∀ s s', s.Behind f before s' → ResultBehind f before g (read s) (read' s')

namespace State.Behind

variable {s s' : State}

/-- An error is found at the same place on its other line. -/
theorem site (h : s.Behind f before s') : s'.site = s.site.relabel f := by
  cases hrest : s.rest with
  | nil =>
    have hrest' : s'.rest = [] := by rw [h.rest, hrest, List.map_nil]
    rw [site_of_nil hrest, site_of_nil hrest', h.endLine]
    rfl
  | cons token more =>
    have hrest' : s'.rest = token.relabel f :: more.map (Token.relabel f) := by
      rw [h.rest, hrest, List.map_cons]
    rw [site_of_rest hrest, site_of_rest hrest']
    rfl

theorem next? (h : s.Behind f before s') : s'.next? = s.next?.map (Token.relabel f) := by
  rw [next?_eq, next?_eq, h.rest, List.head?_map]

theorem second? (h : s.Behind f before s') (hopen : s.next?.isSome) :
    s'.second? = s.second?.map (Token.relabel f) := by
  rw [next?_eq, List.isSome_head?] at hopen
  obtain ⟨token, more, hrest⟩ := List.exists_cons_of_ne_nil (by simpa using hopen)
  have hrest' : s'.rest = token.relabel f :: more.map (Token.relabel f) := by
    rw [h.rest, hrest, List.map_cons]
  rw [second?_of_rest hrest, second?_of_rest hrest', List.head?_map]

/-- Both states go on past tokens that are left. -/
theorem forward (h : s.Behind f before s') {count : Nat} (hcount : count ≤ s.rest.length) :
    Behind f before { s with current := s.current + count } { s' with current := s'.current + count } := by
  have hlength : (s.rest.take count).length = count := List.length_take_of_le hcount
  have hlength' : ((s.rest.take count).map (Token.relabel f)).length = count := by
    rw [List.length_map, hlength]
  have hrest' : s'.rest = (s.rest.take count).map (Token.relabel f) ++
      (s.rest.drop count).map (Token.relabel f) := by
    rw [← List.map_append, List.take_append_drop, h.rest]
  obtain ⟨hleft, hbeyond⟩ := @passing s { s with current := s.current + count } (s.rest.take count)
    (s.rest.drop count) rfl (by rw [hlength]) (List.take_append_drop _ _).symm
  obtain ⟨hleft', hbeyond'⟩ := @passing s' { s' with current := s'.current + count } _ _
    rfl (by rw [hlength']) hrest'
  refine ⟨by rw [hleft, hleft'], ?_, h.context, h.nextId, h.errors⟩
  rw [State.endLine, State.endLine, hbeyond, hbeyond']
  exact h.endLine

end State.Behind

theorem commutes_pure {g : α → α'} (a : α) : Commutes f before g (pure a) (pure (g a)) :=
  fun _ _ hs => .ok hs

/-- Readers that commute can go on one after the other. -/
theorem Commutes.bind {g : α → α'} {k : β → β'} {read : Reader α} {read' : Reader α'}
    {next : α → Reader β} {next' : α' → Reader β'} (h : Commutes f before g read read')
    (hnext : ∀ a, Commutes f before k (next a) (next' (g a))) :
    Commutes f before k (read >>= next) (read' >>= next') := by
  intro s s' hs
  have hread := h s s' hs
  rw [bind_apply, bind_apply]
  generalize read s = result at hread ⊢
  generalize read' s' = result' at hread ⊢
  cases hread with
  | ok hafter => exact hnext _ _ _ hafter
  | error hafter => exact .error hafter

theorem Commutes.some {g : α → α'} {read : Reader α} {read' : Reader α'}
    (h : Commutes f before g read read') :
    Commutes f before (Option.map g) (Option.some <$> read) (Option.some <$> read') := by
  rw [← bind_pure_comp, ← bind_pure_comp]
  exact h.bind fun a => commutes_pure (Option.some a)

theorem commutes_fail (g : α → α') (cause : SyntaxCause) :
    Commutes f before g (fail cause) (fail cause) := by
  intro s s' hs
  unfold fail
  rw [hs.site]
  exact .error hs

theorem commutes_report (cause : SyntaxCause) (site : Site) :
    Commutes f before (fun a => a) (report cause site) (report cause (site.relabel f)) :=
  fun _ _ hs => .ok ⟨hs.rest, hs.endLine, hs.context, hs.nextId, congrArg (_ :: ·) hs.errors⟩

theorem commutes_reportHere (cause : SyntaxCause) :
    Commutes f before (fun a => a) (reportHere cause) (reportHere cause) := by
  intro s s' hs
  unfold reportHere
  rw [hs.site]
  exact .ok ⟨hs.rest, hs.endLine, hs.context, hs.nextId, congrArg (_ :: ·) hs.errors⟩

/-- A number is given out as the next one on both sides, if the numbers go up together. -/
theorem commutes_freshId (hid : ∀ n, f.id (n + 1) = f.id n + 1) :
    Commutes f before f.id freshId freshId := by
  intro s s' hs
  unfold freshId
  rw [hs.nextId]
  exact .ok ⟨hs.rest, hs.endLine, hs.context, (hid s.nextId).symm, hs.errors⟩

theorem commutes_next (kind : TokenKind) : Commutes f before (fun a => a) (next kind) (next kind) := by
  intro s s' hs
  have hsame : s'.next?.any (·.kind = kind) = s.next?.any (·.kind = kind) := by
    rw [hs.next?]
    cases s.next? <;> rfl
  unfold next
  rw [hsame]
  exact .ok hs

theorem commutes_atEnd : Commutes f before (fun a => a) atEnd atEnd := by
  intro s s' hs
  unfold atEnd
  rw [hs.next?, Option.isNone_map]
  exact .ok hs

/-- What is looked at in a state is the same in both. -/
theorem commutes_get {k : β → β'} {next : State → Reader β} {next' : State → Reader β'}
    (h : ∀ s s', s.Behind f before s' → Commutes f before k (next s) (next' s')) :
    Commutes f before k (MonadState.get >>= next) (MonadState.get >>= next') :=
  fun s s' hs => h s s' hs s s' hs

/-- A token is taken on both sides, and its mark is on its other line. -/
theorem commutes_take? (choose : TokenKind → Option α) :
    Commutes f before (Option.map (Prod.map id (Mark.relabel f))) (take? choose) (take? choose) := by
  intro s s' hs
  cases hrest : s.rest with
  | nil =>
    have hnext : s.next? = none := State.next?_of_nil hrest
    have hnext' : s'.next? = none := by rw [hs.next?, hnext, Option.map_none]
    unfold take?
    rw [hnext, hnext']
    exact .ok hs
  | cons token more =>
    have hnext : s.next? = some token := State.next?_of_rest hrest
    have hnext' : s'.next? = some (token.relabel f) := by rw [hs.next?, hnext, Option.map_some]
    have hkind : (token.relabel f).kind = token.kind := rfl
    unfold take?
    simp only [hnext, hnext', hkind]
    cases choose token.kind with
    | none => exact .ok hs
    | some a =>
      exact .ok (a := Option.some (a, token.toMark))
        (hs.forward (by rw [hrest, List.length_cons]; exact Nat.le_add_left 1 _))

theorem commutes_accept (kind : TokenKind) :
    Commutes f before (Option.map (Mark.relabel f)) (accept kind) (accept kind) := by
  refine (commutes_take? _).bind fun found => ?_
  cases found with
  | none => exact commutes_pure Option.none
  | some found => exact commutes_pure (Option.some found.2)

theorem commutes_expect (place : Place) :
    Commutes f before (Mark.relabel f) (expect place) (expect place) := by
  refine (commutes_accept _).bind fun found => ?_
  cases found with
  | none => exact commutes_fail _ _
  | some mark => exact commutes_pure mark

theorem commutes_expectName (role : NameRole) :
    Commutes f before (Mark.relabel f) (expectName role) (expectName role) := by
  refine (commutes_accept _).bind fun found => ?_
  cases found with
  | none => exact commutes_fail _ _
  | some mark => exact commutes_pure mark

/-- Readers commute in a changed context, which they come back from alike. -/
theorem Commutes.within {g : α → α'} {read : Reader α} {read' : Reader α'}
    (h : Commutes f before g read read') (change : Change) :
    Commutes f before g (within change read) (within change read') := by
  intro s s' hs
  have hinner : State.Behind f before { s with context := change.enter s.context }
      { s' with context := change.enter s'.context } :=
    ⟨hs.rest, hs.endLine, congrArg change.enter hs.context, hs.nextId, hs.errors⟩
  have hread := h _ _ hinner
  unfold Grammar.within
  generalize read { s with context := change.enter s.context } = result at hread ⊢
  generalize read' { s' with context := change.enter s'.context } = result' at hread ⊢
  cases hread with
  | ok hafter | error hafter =>
    constructor
    exact ⟨hafter.rest, hafter.endLine, by rw [hs.context, hafter.context], hafter.nextId, hafter.errors⟩

/-- A list that is gathered with the last item first is turned round in the end. -/
theorem commutes_pure_reverse (g : α → α') (items : List α) :
    Commutes f before (List.map g) (pure items.reverse) (pure (items.map g).reverse) := by
  rw [← List.map_reverse]
  exact commutes_pure _

/-- One item more is read on both sides. -/
theorem commutes_oneMore {g : α → α'} {item : Reader α} {item' : Reader α'} (tooMany : SyntaxCause)
    (h : Commutes f before g item item') (items : List α) :
    Commutes f before (Prod.map (List.map g) id) (oneMore tooMany item items)
      (oneMore tooMany item' (items.map g)) := by
  have hrest : Commutes f before (Prod.map (List.map g) id)
      (do let x ← item; return (x :: items, (← accept .comma).isSome))
      (do let x ← item'; return (x :: items.map g, (← accept .comma).isSome)) := by
    refine h.bind fun x => (commutes_accept _).bind fun comma => ?_
    cases comma <;> exact commutes_pure _
  unfold oneMore
  rw [List.length_map]
  split
  · exact (commutes_reportHere _).bind fun _ => hrest
  · exact hrest

/-- Items in a row are read on both sides. -/
theorem commutes_separated {g : α → α'} {item : Reader α} {item' : Reader α'} (tooMany : SyntaxCause)
    (h : Commutes f before g item item') (commas : Nat) (items : List α) :
    Commutes f before (List.map g) (separated tooMany item commas items)
      (separated tooMany item' commas (items.map g)) := by
  induction commas generalizing items with
  | zero => exact (commutes_oneMore tooMany h items).bind fun found => commutes_pure_reverse g found.1
  | succ commas ih =>
    refine (commutes_oneMore tooMany h items).bind fun found => ?_
    obtain ⟨items, comma⟩ := found
    cases comma with
    | true => exact ih items
    | false => exact commutes_pure_reverse g items

/-- A chain of operators is read on both sides. -/
theorem commutes_chainFrom {op : Type} {operand : Reader Expr} {operator? : TokenKind → Option op}
    {join : op → Mark → Expr → Expr → Expr}
    (hoperand : Commutes f before (Expr.relabel f) operand operand)
    (hjoin : ∀ o mark left right, (join o mark left right).relabel f =
      join o (mark.relabel f) (left.relabel f) (right.relabel f))
    (operators : Nat) (left : Expr) :
    Commutes f before (Expr.relabel f) (chainFrom operand operator? join operators left)
      (chainFrom operand operator? join operators (left.relabel f)) := by
  induction operators generalizing left with
  | zero => exact commutes_pure left
  | succ operators ih =>
    refine (commutes_take? _).bind fun found => ?_
    cases found with
    | none => exact commutes_pure left
    | some found =>
      obtain ⟨o, mark⟩ := found
      refine hoperand.bind fun right => ?_
      have hmore := ih (join o mark left right)
      rwa [hjoin] at hmore

theorem commutes_chain {op : Type} {operand : Reader Expr} {operator? : TokenKind → Option op}
    {join : op → Mark → Expr → Expr → Expr} (operators : Nat)
    (hoperand : Commutes f before (Expr.relabel f) operand operand)
    (hjoin : ∀ o mark left right, (join o mark left right).relabel f =
      join o (mark.relabel f) (left.relabel f) (right.relabel f)) :
    Commutes f before (Expr.relabel f) (chain operators operand operator? join)
      (chain operators operand operator? join) :=
  hoperand.bind fun first => commutes_chainFrom hoperand hjoin operators first

end Grammar

end Lox
