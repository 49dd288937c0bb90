import Lox.Proofs.Binding.Outline
import Lox.Proofs.Table

namespace Lox

open Occurrence (ReadAt)

/-- The line of a local name, and how it came to be there. -/
def Local.source (l : Local) : Nat × Origin :=
  (l.line, l.origin)

namespace Scope

/-- The name is in the scope, and has been read. -/
def Uses (s : Scope) (name : String) : Prop :=
  ∃ l, s.locals.find? name = some l ∧ l.used

/-- What becomes of a scope with `level` scopes around it behind landmarks of its own: the first
    declaration of a name stays, and the reads that resolve to the scope are noted. -/
structure Grows (landmarks : List Landmark) (os : List Occurrence) (level : Nat) (s s' : Scope) : Prop where
  nodup : s.locals.names.Nodup → s'.locals.names.Nodup
  source : ∀ name, (s'.locals.find? name).map Local.source =
    ((s.locals.find? name).map Local.source).or (Landmark.first? name landmarks)
  uses : ∀ name, IsPlain name → (s'.Uses name ↔ s.Uses name ∨ ReadAt os level name)

variable {landmarks more : List Landmark} {os others : List Occurrence} {level : Nat} {s s' s'' : Scope}

/-- What a scope becomes behind landmarks in two parts. -/
theorem Grows.trans (h : s.Grows landmarks os level s') (h' : s'.Grows more others level s'') :
    s.Grows (landmarks ++ more) (os ++ others) level s'' where
  nodup := h'.nodup ∘ h.nodup
  source name := by rw [h'.source, h.source, Landmark.first?_append, Option.or_assoc]
  uses name hplain := by
    rw [h'.uses name hplain, h.uses name hplain, Occurrence.readAt_append, or_assoc]

/-- Nothing becomes of a scope where nothing is declared in it and no read resolves to it. -/
theorem Grows.still (hnone : ∀ name, Landmark.first? name landmarks = none)
    (hunread : ∀ name, IsPlain name → ¬ ReadAt os level name) : s.Grows landmarks os level s where
  nodup := id
  source name := by rw [hnone, Option.or_none]
  uses name hplain := by simp [hunread name hplain]

/-- A local name may change, but for where it comes from. -/
theorem source_update (s : Scope) (name : String) {change : Local → Local}
    (h : ∀ l, (change l).source = l.source) (other : String) :
    ((s.update name change).locals.find? other).map Local.source =
      (s.locals.find? other).map Local.source := by
  unfold update
  split
  · rfl
  · rename_i l hfind
    rw [Table.find?_insert]
    split
    · rename_i hsame
      rw [hsame, hfind, Option.map_some, h, Option.map_some]
    · rfl

/-- A change of what is known about a name brings in no name. -/
theorem nodup_update (h : s.locals.names.Nodup) (name : String) (change : Local → Local) :
    (s.update name change).locals.names.Nodup := by
  unfold update
  split
  · exact h
  · exact Table.nodup_insert h name _

/-- An insertion changes only whether the inserted name is read. -/
theorem uses_insert (s : Scope) (name : String) (l : Local) (other : String) :
    ({ s with locals := s.locals.insert name l } : Scope).Uses other ↔
      if other = name then l.used = true else s.Uses other := by
  unfold Uses
  rw [Table.find?_insert]
  split <;> simp

/-- What happens to a name that is not read is of no account. -/
theorem grows_update (s : Scope) (name : String) {change : Local → Local}
    (hsource : ∀ l, (change l).source = l.source) (hused : ∀ l, (change l).used = l.used) :
    s.Grows [] [] level (s.update name change) where
  nodup h := nodup_update h name change
  source other := by rw [source_update s name hsource, Landmark.first?, List.findSome?_nil, Option.or_none]
  uses other _ := by
    simp only [Occurrence.readAt_nil, or_false]
    unfold update
    split
    · rfl
    · rename_i l hfind
      rw [uses_insert]
      split
      · rename_i hsame
        simp [Uses, hsame, hfind, hused]
      · rfl

/-- A name that is there is noted as read. -/
theorem grows_use (hnone : ∀ name, Landmark.first? name landmarks = none) {name : String}
    (hname : s.locals.contains name)
    (hread : ∀ other, IsPlain other → (ReadAt os level other ↔ other = name)) :
    s.Grows landmarks os level (s.update name fun l => { l with used := true }) where
  nodup h := nodup_update h name _
  source other := by
    rw [hnone, Option.or_none]
    refine source_update s name (fun l => ?_) other
    rfl
  uses other hplain := by
    obtain ⟨l, hfind⟩ := Option.isSome_iff_exists.mp hname
    rw [hread other hplain, update, hfind]
    dsimp only
    rw [uses_insert]
    split
    · rename_i hsame
      simp [hsame]
    · rename_i hother
      simp [hother]

/-- A new name comes in unread. -/
theorem grows_insert {name : String} (hnew : s.locals.find? name = none) (mark : Mark) (l : Local)
    (hmark : mark.lexeme = name) (hline : l.line = mark.line) (hused : l.used = false) :
    s.Grows [.declare mark l.origin] [] level { s with locals := s.locals.insert name l } where
  nodup h := Table.nodup_insert h name l
  source other := by
    rw [Table.find?_insert]
    split
    · rename_i hother
      rw [hother, hnew]
      simp [Landmark.first?, Landmark.declared?, hmark, Local.source, hline]
    · rename_i hother
      have hne : mark.lexeme ≠ other := fun hsame => hother (hsame.symm.trans hmark)
      simp [Landmark.first?, Landmark.declared?, hne]
  uses other _ := by
    rw [uses_insert]
    split
    · rename_i hother
      simp [Uses, hother, hnew, hused, Occurrence.readAt_nil]
    · simp [Occurrence.readAt_nil]

/-- A name that is there already stays as it is. -/
theorem grows_redeclare {mark : Mark} (h : s.locals.contains mark.lexeme) (origin : Origin) :
    s.Grows [.declare mark origin] [] level s where
  nodup := id
  source name := by
    by_cases hname : mark.lexeme = name
    · obtain ⟨l, hfind⟩ := Option.isSome_iff_exists.mp h
      rw [← hname, hfind]
      rfl
    · simp [Landmark.first?, Landmark.declared?, hname]
  uses name _ := by simp [Occurrence.readAt_nil]

end Scope

/-- What becomes of all scopes, innermost first; the landmarks are those of the innermost one. -/
inductive Scope.Grown (os : List Occurrence) : List Landmark → List Scope → List Scope → Prop
  | nil (landmarks : List Landmark) : Grown os landmarks [] []
  | cons {landmarks : List Landmark} {s s' : Scope} {outer outer' : List Scope} :
    s.Grows landmarks os outer.length s' → Grown os [] outer outer' →
      Grown os landmarks (s :: outer) (s' :: outer')

/-- The scope has the names that have been declared in it. -/
def Around.Shows (a : Around) (s : Scope) : Prop :=
  ∀ name, s.locals.contains name ↔ name ∈ a.names

namespace Scope.Grown

variable {landmarks more : List Landmark} {os others : List Occurrence} {scopes scopes' scopes'' : List Scope}
  {around : List Around} {name : String}

/-- The number of scopes stays. -/
theorem length (h : Grown os landmarks scopes scopes') : scopes'.length = scopes.length := by
  induction h with
  | nil => rfl
  | cons _ _ ih => rw [List.length_cons, List.length_cons, ih]

/-- What the scopes become behind landmarks in two parts. -/
theorem trans (h : Grown os landmarks scopes scopes') (h' : Grown others more scopes' scopes'') :
    Grown (os ++ others) (landmarks ++ more) scopes scopes'' := by
  induction h generalizing more scopes'' with
  | nil =>
    cases h'
    exact .nil _
  | cons hhead houter ih =>
    cases h' with
    | cons hhead' houter' =>
      rw [houter.length] at hhead'
      exact .cons (hhead.trans hhead') (ih houter')

/-- Where nothing is declared and nothing is read the scopes stay as they are. -/
theorem still (hnone : ∀ name, Landmark.first? name landmarks = none)
    (hunread : ∀ level < scopes.length, ∀ name, IsPlain name → ¬ ReadAt os level name) :
    Grown os landmarks scopes scopes := by
  induction scopes generalizing landmarks with
  | nil => exact .nil _
  | cons s outer ih =>
    refine .cons (.still hnone (hunread outer.length (Nat.lt_succ_self _))) (ih (fun _ => rfl) ?_)
    exact fun level hlevel => hunread level (Nat.lt_succ_of_lt hlevel)

/-- Only the declarations among the landmarks count. -/
theorem congr (h : Grown os landmarks scopes scopes')
    (hfirst : ∀ name, Landmark.first? name more = Landmark.first? name landmarks) :
    Grown os more scopes scopes' := by
  cases h with
  | nil => exact .nil more
  | cons hhead houter =>
    exact .cons ⟨hhead.nodup, fun name => (hhead.source name).trans (by rw [hfirst]), hhead.uses⟩ houter

theorem refl (scopes : List Scope) : Grown [] [] scopes scopes :=
  still (fun _ => rfl) fun level _ name _ => Occurrence.readAt_nil level name

/-- A change in the innermost scope. -/
theorem modifyHead {change : Scope → Scope}
    (h : ∀ s outer, scopes = s :: outer → s.Grows landmarks [] outer.length (change s)) :
    Grown [] landmarks scopes (scopes.modifyHead change) := by
  cases scopes with
  | nil => exact .nil _
  | cons s outer => exact .cons (h s outer rfl) (refl outer)

/-- A read is noted in the scope that it resolves to. -/
theorem modify {depth : Nat} (hnone : ∀ name, Landmark.first? name landmarks = none)
    (hname : ∀ s, scopes[depth]? = some s → s.locals.contains name)
    (hread : ∀ level other, IsPlain other →
      (ReadAt os level other ↔ other = name ∧ scopes.length = level + depth + 1)) :
    Grown os landmarks scopes
      (scopes.modify depth fun s => s.update name fun l => { l with used := true }) := by
  induction scopes generalizing depth landmarks with
  | nil => simpa using nil landmarks
  | cons s outer ih =>
    cases depth with
    | zero =>
      refine .cons (grows_use hnone (hname s rfl) fun other hplain => ?_) (still (fun _ => rfl) ?_)
      · rw [hread _ other hplain]
        simp
      · intro level hlevel other hplain hreads
        have hlength := ((hread level other hplain).mp hreads).2
        rw [List.length_cons] at hlength
        omega
    | succ depth =>
      refine .cons (.still hnone fun other hplain hreads => ?_) (ih (fun _ => rfl) hname ?_)
      · have hlength := ((hread _ other hplain).mp hreads).2
        rw [List.length_cons] at hlength
        omega
      · intro level other hplain
        rw [hread level other hplain, List.length_cons]
        refine and_congr_right fun _ => ?_
        omega

end Scope.Grown

/-- There is nothing to declare a name in outside of every scope. -/
theorem Landmark.pastAll_nil (landmarks : List Landmark) : pastAll [] landmarks = [] := by
  unfold pastAll
  induction landmarks with
  | nil => rfl
  | cons l rest ih =>
    have hpast : past [] l = [] := by cases l <;> rfl
    rw [List.foldl_cons, hpast, ih]

/-- Declarations bring their names into the innermost scope. -/
theorem Landmark.pastAll_cons (a : Around) (rest : List Around) (landmarks : List Landmark) :
    ∃ names, pastAll (a :: rest) landmarks = { a with names } :: rest ∧
      ∀ name, name ∈ names ↔ name ∈ a.names ∨ (first? name landmarks).isSome := by
  unfold pastAll
  induction landmarks generalizing a with
  | nil => exact ⟨a.names, rfl, fun name => by simp [first?]⟩
  | cons l landmarks ih =>
    rw [List.foldl_cons]
    cases l with
    | declare mark origin =>
      obtain ⟨names, hpast, hnames⟩ := ih { a with names := [mark.lexeme] ++ a.names }
      refine ⟨names, hpast, fun name => ?_⟩
      rw [hnames]
      by_cases hname : mark.lexeme = name
      · simp [first?, declared?, hname]
      · simp [first?, declared?, hname, Ne.symm hname]
    | read ref => exact ih a
    | receiver ref => exact ih a
    | scope kind inside => exact ih a

/-- Where scopes show the names around them a name is found at the depth that these tell. -/
theorem Around.depth?_eq {around : List Around} {scopes : List Scope}
    (h : List.Forall₂ Shows around scopes) (name : String) :
    Resolver.depth? scopes name = depth? around name := by
  unfold Resolver.depth? depth?
  induction h with
  | nil => rfl
  | @cons a s around scopes hhead _ ih =>
    have hname : s.locals.contains name = decide (name ∈ a.names) :=
      Bool.eq_iff_iff.mpr (by simpa using hhead name)
    rw [List.findIdx?_cons, List.findIdx?_cons, hname, ih]

/-- Scopes that show the names around them still do so when they have grown. -/
theorem Scope.Grown.shows {os : List Occurrence} {landmarks : List Landmark} {scopes scopes' : List Scope}
    {around : List Around} (h : Grown os landmarks scopes scopes')
    (hshows : List.Forall₂ Around.Shows around scopes) :
    List.Forall₂ Around.Shows (Landmark.pastAll around landmarks) scopes' := by
  induction h generalizing around with
  | nil landmarks =>
    cases hshows
    rw [Landmark.pastAll_nil]
    exact .nil
  | @cons landmarks s s' outer outer' hhead houter ih =>
    cases hshows with
    | @cons a _ rest _ hfirst hrest =>
      obtain ⟨names, hpast, hnames⟩ := Landmark.pastAll_cons a rest landmarks
      rw [hpast]
      refine .cons (fun name => ?_) (ih hrest)
      rw [hnames, ← hfirst, Table.contains, ← Option.isSome_map (f := Local.source), hhead.source,
        Option.isSome_or, Option.isSome_map, Bool.or_eq_true]
      rfl

end Lox
