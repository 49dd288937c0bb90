import Lox.Proofs.Renaming.Store
import Lox.Proofs.Run.Keeping

namespace Lox

variable {ρ : Renaming} {F F' : World} {marks : List Bool}

/-- Machines that see the same frames, those of scopes of which these are renamed, and are the same but for
    their stores. -/
structure Machine.Alike (ρ : Renaming) (F : World) (marks : List Bool) (m m' : Machine) : Prop where
  store : m.store.Alike ρ F m'.store
  line : F.InLine marks m.chain
  depths : m.depths = ρ.depths
  same : m' = { m with store := m'.store }

/-- The same halt, but for the name of a variable that is missing. -/
def Halt.Alike (ρ : Renaming) (e e' : Halt) : Prop :=
  e' = e ∨ ∃ line, e = .error ⟨.undefinedVariable ρ.old, line⟩ ∧ e' = .error ⟨.undefinedVariable ρ.new, line⟩

namespace Machine.Alike

variable {m m' : Machine}

/-- A store that is alike may take the place of the one before. -/
theorem restore (h : m.Alike ρ F marks m') (hF : F <+: F') {s s' : Store} (hs : s.Alike ρ F' s') :
    Machine.Alike ρ F' marks { m with store := s } { m' with store := s' } :=
  ⟨hs, h.line.mono hF, h.depths, by rw [h.same]⟩

/-- A chain in line may take the place of the one before. -/
theorem rechain (h : m.Alike ρ F marks m') {marks₁ : List Bool} {chain : Chain}
    (hline : F.InLine marks₁ chain) :
    Machine.Alike ρ F marks₁ { m with chain } { m' with chain } :=
  ⟨h.store, hline, h.depths, by rw [h.same]⟩

theorem recount (h : m.Alike ρ F marks m') (calls : Nat) :
    Machine.Alike ρ F marks { m with calls } { m' with calls } :=
  ⟨h.store, h.line, h.depths, by rw [h.same]⟩

theorem chain (h : m.Alike ρ F marks m') : m'.chain = m.chain := by
  rw [h.same]

theorem calls (h : m.Alike ρ F marks m') : m'.calls = m.calls := by
  rw [h.same]

end Machine.Alike

namespace Run

variable {α β γ δ : Type} {P : World → α → β → Prop} {Q : World → γ → δ → Prop}

/-- Runs that have come from alike machines to alike ones, perhaps with more frames, and with results of
    which `P` holds. -/
inductive Matches (ρ : Renaming) (F : World) (marks : List Bool) (P : World → α → β → Prop) :
    EStateM.Result Halt Machine α → EStateM.Result Halt Machine β → Prop
  | ok {F' a a' m m'} (hF : F <+: F') (ha : P F' a a') (hm : m.Alike ρ F' marks m') :
    Matches ρ F marks P (.ok a m) (.ok a' m')
  | error {F' e e' m m'} (hF : F <+: F') (he : e.Alike ρ e') (hm : m.Alike ρ F' marks m') :
    Matches ρ F marks P (.error e m) (.error e' m')

/-- From now on the runs come from alike machines to alike ones. -/
structure Alike (ρ : Renaming) (F : World) (marks : List Bool) (P : World → α → β → Prop) (x : Run α)
    (x' : Run β) : Prop where
  step : ∀ {F' m m'}, F <+: F' → m.Alike ρ F' marks m' → Matches ρ F' marks P (x m) (x' m')

/-- They do, and have the same result. -/
abbrev SameAlike (ρ : Renaming) (F : World) (marks : List Bool) (x x' : Run α) : Prop :=
  Alike ρ F marks (fun _ a a' => a' = a) x x'

theorem Alike.later {x : Run α} {x' : Run β} (h : Alike ρ F marks P x x') (hF : F <+: F') :
    Alike ρ F' marks P x x' :=
  ⟨fun hF' hm => h.step (hF.trans hF') hm⟩

/-- What matches with frames that were added matched before. -/
theorem Matches.earlier {r : EStateM.Result Halt Machine α} {r' : EStateM.Result Halt Machine β}
    (h : Matches ρ F' marks P r r') (hF : F <+: F') : Matches ρ F marks P r r' := by
  cases h with
  | ok hF' ha hm => exact .ok (hF.trans hF') ha hm
  | error hF' he hm => exact .error (hF.trans hF') he hm

/-- Runs that are alike can go on one after the other. -/
theorem Alike.bind {x : Run α} {x' : Run β} {k : α → Run γ} {k' : β → Run δ} (hx : Alike ρ F marks P x x')
    (hk : ∀ {F' a a'}, F <+: F' → P F' a a' → Alike ρ F' marks Q (k a) (k' a')) :
    Alike ρ F marks Q (x >>= k) (x' >>= k') := by
  refine ⟨fun {F₁ m m'} hF hm => ?_⟩
  have hmatch := hx.step hF hm
  rw [bind_apply, bind_apply]
  generalize x m = r at hmatch
  generalize x' m' = r' at hmatch
  cases hmatch with
  | ok hF₂ ha hm₂ => exact ((hk (hF.trans hF₂) ha).step (List.prefix_refl _) hm₂).earlier hF₂
  | error hF₂ he hm₂ => exact .error hF₂ he hm₂

/-- What comes after the same result. -/
theorem Alike.next {x x' : Run α} {k : α → Run γ} {k' : α → Run δ} (hx : SameAlike ρ F marks x x')
    (hk : ∀ a, Alike ρ F marks Q (k a) (k' a)) : Alike ρ F marks Q (x >>= k) (x' >>= k') := by
  refine hx.bind fun {F' a a'} hF ha => ?_
  rw [ha]
  exact (hk a).later hF

theorem alike_pure {a : α} {a' : β} (h : ∀ {F'}, F <+: F' → P F' a a') :
    Alike ρ F marks P (pure a) (pure a') :=
  ⟨fun hF hm => .ok (List.prefix_refl _) (h hF) hm⟩

theorem same_pure (a : α) : SameAlike ρ F marks (pure a : Run α) (pure a) :=
  alike_pure fun _ => rfl

theorem alike_fault (f : Fault) (line : Nat) : Alike ρ F marks P (fault f line) (fault f line) :=
  ⟨fun _ hm => .error (List.prefix_refl _) (.inl rfl) hm⟩

theorem alike_outOfFuel : Alike ρ F marks P outOfFuel outOfFuel :=
  ⟨fun _ hm => .error (List.prefix_refl _) (.inl rfl) hm⟩

theorem same_orFault (line : Nat) (result : Except Fault α) :
    SameAlike ρ F marks (orFault line result) (orFault line result) := by
  cases result with
  | ok a => exact same_pure a
  | error f => exact alike_fault f line

/-- What is looked up in stores that are alike is related. -/
theorem alike_query {find : Store → α} {find' : Store → β}
    (h : ∀ {F' s s'}, F <+: F' → s.Alike ρ F' s' → P F' (find s) (find' s')) :
    Alike ρ F marks P (query find) (query find') :=
  ⟨fun hF hm => .ok (List.prefix_refl _) (h hF hm.store) hm⟩

theorem alike_chain : Alike ρ F marks (fun F chain chain' => chain' = chain ∧ F.InLine marks chain)
    Run.chain Run.chain :=
  ⟨fun _ hm => .ok (List.prefix_refl _) ⟨hm.chain, hm.line⟩ hm⟩

/-- What is added to stores that are alike leaves them alike. -/
theorem alike_allocate {add : Store → α × Store} {add' : Store → β × Store}
    (h : ∀ {F' s s'}, F <+: F' → s.Alike ρ F' s' →
      ∃ F'', F' <+: F'' ∧ P F'' (add s).1 (add' s').1 ∧ (add s).2.Alike ρ F'' (add' s').2) :
    Alike ρ F marks P (allocate add) (allocate add') := by
  refine ⟨fun hF hm => ?_⟩
  obtain ⟨F'', hF', ha, hs⟩ := h hF hm.store
  exact .ok hF' ha (hm.restore hF' hs)

theorem same_setField (id : Nat) (name : String) (value : Value) :
    SameAlike ρ F marks (modifyStore (·.setField id name value)) (modifyStore (·.setField id name value)) :=
  ⟨fun _ hm => .ok (List.prefix_refl _) rfl
    (hm.restore (List.prefix_refl _) (hm.store.setField id name value))⟩

/-- A definition goes with that of the name that the variable has in the innermost frame. -/
theorem alike_define {name : String} (hfree : ρ.Free (marks.headD false) name) (value : Value) :
    SameAlike ρ F marks (define name value) (define (ρ.name (marks.headD false) name) value) := by
  refine ⟨fun _ hm => .ok (List.prefix_refl _) rfl (hm.restore (List.prefix_refl _) ?_)⟩
  rw [hm.chain]
  exact hm.store.define hm.line hfree value

/-- A declaration goes with that of the name that the variable has in the innermost frame. -/
theorem alike_declare {name : String} (hfree : ρ.Free (marks.headD false) name) :
    SameAlike ρ F marks (declare name) (declare (ρ.name (marks.headD false) name)) := by
  refine ⟨fun _ hm => .ok (List.prefix_refl _) rfl (hm.restore (List.prefix_refl _) ?_)⟩
  rw [hm.chain]
  exact hm.store.declare hm.line hfree

theorem same_define {name : String} (hapart : ρ.Apart (marks.headD false) name) (value : Value) :
    SameAlike ρ F marks (define name value) (define name value) := by
  have hdefine := alike_define (F := F) (Renaming.free_of_apart hapart) value
  rwa [Renaming.name_of_apart hapart] at hdefine

theorem same_readClock : SameAlike ρ F marks readClock readClock := by
  refine ⟨fun _ hm => ?_⟩
  unfold readClock
  rw [hm.same]
  exact .ok (List.prefix_refl _) rfl ⟨hm.store, hm.line, hm.depths, rfl⟩

theorem same_exhausted : SameAlike ρ F marks exhausted exhausted := by
  refine ⟨fun _ hm => ?_⟩
  unfold exhausted
  rw [hm.same]
  exact .ok (List.prefix_refl _) rfl ⟨hm.store, hm.line, hm.depths, rfl⟩

/-- A host answers alike on both sides. -/
theorem same_callHost (name : String) (arguments : List Value) (line : Nat) :
    SameAlike ρ F marks (callHost name arguments line) (callHost name arguments line) := by
  refine ⟨fun {F' m m'} _ hm => ?_⟩
  have hanswer : m'.answer name arguments = m.answer name arguments := by rw [hm.same]; rfl
  unfold callHost
  rw [hanswer]
  exact (same_orFault line _).step (List.prefix_refl _) hm

/-- The same is written on both sides. -/
theorem same_write (pieces : List String) (line : Nat) :
    SameAlike ρ F marks (write pieces line) (write pieces line) := by
  refine ⟨fun {F' m m'} _ hm => ?_⟩
  unfold write
  rw [hm.same]
  dsimp only
  rcases m.sink.put pieces with ⟨sink, _ | message⟩
  · exact .ok (List.prefix_refl _) rfl ⟨hm.store, hm.line, hm.depths, rfl⟩
  · exact .error (List.prefix_refl _) (.inl rfl) ⟨hm.store, hm.line, hm.depths, rfl⟩

theorem same_print (value : Value) (line : Nat) :
    SameAlike ρ F marks (print value line) (print value line) := by
  have hpieces : SameAlike ρ F marks (query (·.pieces value)) (query (·.pieces value)) :=
    alike_query fun _ hs => hs.pieces value
  exact hpieces.next fun _ => same_write _ line

/-- An undefined variable is told under the name that it has. -/
theorem alike_undefined (renamed : Bool) (name : String) (line : Nat) :
    Halt.Alike ρ (.error ⟨.undefinedVariable name, line⟩)
      (.error ⟨.undefinedVariable (ρ.name renamed name), line⟩) := by
  unfold Renaming.name
  split
  · rename_i h
    exact .inr ⟨line, by rw [h.2], rfl⟩
  · exact .inl rfl

/-- A read comes to the same under the name that the variable has. -/
theorem alike_read {ref : Ref} (hfree : ρ.Free (ρ.isRenamed marks ref) ref.mark.lexeme) :
    SameAlike ρ F marks (read ref) (read (ρ.ref marks ref)) := by
  refine ⟨fun {F' m m'} _ hm => ?_⟩
  show Matches _ _ _ _ (orFault ref.mark.line (m.lookUp ref) m)
    (orFault ref.mark.line (m'.lookUp (ρ.ref marks ref)) m')
  have hdepths : m'.depths = ρ.depths := by rw [hm.same, ← hm.depths]
  unfold Machine.lookUp
  dsimp only [Renaming.ref, Renaming.mark]
  rw [hm.depths, hdepths, hm.chain]
  cases hdepth : ρ.depths[ref.id]? with
  | none =>
    rw [Renaming.isRenamed_of_none hdepth, ρ.name_false]
    dsimp only
    rw [hm.store.get_global]
    exact (same_orFault ref.mark.line _).step (List.prefix_refl _) hm
  | some depth =>
    rw [Renaming.isRenamed_of_some hdepth] at hfree ⊢
    dsimp only
    rw [hm.store.getAt? hm.line hfree]
    cases m.store.getAt? m.chain depth ref.mark.lexeme with
    | none => exact .error (List.prefix_refl _) (alike_undefined _ _ _) hm
    | some value => exact .ok (List.prefix_refl _) rfl hm

/-- An assignment comes to the same in the frame that owns the variable. -/
theorem matches_assignIn {m m' : Machine} (hm : m.Alike ρ F marks m') {owner : Option Nat} {renamed : Bool}
    {name : Mark} (howner : ∀ frame, owner = some frame → F[frame]? = some renamed)
    (hfree : ρ.Free renamed name.lexeme) (value : Value) :
    Matches ρ F marks (fun _ a a' => a' = a) (assignIn owner name value m)
      (assignIn owner (ρ.mark renamed name) value m') := by
  cases owner with
  | none => exact .error (List.prefix_refl _) (alike_undefined renamed name.lexeme name.line) hm
  | some frame =>
    exact .ok (List.prefix_refl _) rfl
      (hm.restore (List.prefix_refl _) (hm.store.setSlot (howner frame rfl) hfree _))

/-- An assignment comes to the same under the name that the variable has. -/
theorem alike_assign {ref : Ref} (hfree : ρ.Free (ρ.isRenamed marks ref) ref.mark.lexeme) (value : Value) :
    SameAlike ρ F marks (assign ref value) (assign (ρ.ref marks ref) value) := by
  refine ⟨fun {F' m m'} _ hm => ?_⟩
  have hdepths : m'.depths = ρ.depths := by rw [hm.same, ← hm.depths]
  have howner : m'.owner? (ρ.ref marks ref) = m.owner? ref ∧
      ∀ frame, m.owner? ref = some frame → F'[frame]? = some (ρ.isRenamed marks ref) := by
    unfold Machine.owner?
    dsimp only [Renaming.ref, Renaming.mark]
    rw [hm.depths, hdepths, hm.chain]
    cases hdepth : ρ.depths[ref.id]? with
    | none =>
      rw [Renaming.isRenamed_of_none hdepth, ρ.name_false]
      refine ⟨hm.store.owner?_global _, fun frame hframe => ?_⟩
      obtain rfl : frame = globalFrame := by
        simpa [Chain.global] using List.mem_of_find?_eq_some hframe
      exact hm.store.global
    | some depth =>
      rw [Renaming.isRenamed_of_some hdepth] at hfree ⊢
      exact ⟨hm.store.ownerAt? hm.line hfree,
        fun frame hframe => hm.line.at (Store.ownerAt?_eq_some_iff.mp hframe).1⟩
  unfold assign
  rw [howner.1]
  exact matches_assignIn hm howner.2 hfree value

/-- Runs that are alike in a chain are alike from outside of it. -/
theorem Alike.inChain {x : Run α} {x' : Run β} {marks₁ : List Bool} {chain : Chain}
    (hx : Alike ρ F marks₁ P x x') (hline : F.InLine marks₁ chain) :
    Alike ρ F marks P (inChain chain x) (inChain chain x') := by
  refine ⟨fun {F' m m'} hF hm => ?_⟩
  have hmatch := hx.step hF (hm.rechain (hline.mono hF))
  unfold Run.inChain
  rw [hm.chain]
  generalize x { m with chain } = r at hmatch
  generalize x' { m' with chain } = r' at hmatch
  cases hmatch with
  | ok hF' ha hm₁ => exact .ok hF' ha (hm₁.rechain (hm.line.mono hF'))
  | error hF' he hm₁ => exact .error hF' he (hm₁.rechain (hm.line.mono hF'))

/-- Runs that are alike still are so as one more active call. -/
theorem Alike.counted {x : Run α} {x' : Run β} (hx : Alike ρ F marks P x x') :
    Alike ρ F marks P (counted x) (counted x') := by
  refine ⟨fun {F' m m'} hF hm => ?_⟩
  have hmatch := hx.step hF (hm.recount (m.calls + 1))
  unfold Run.counted
  rw [hm.calls]
  generalize x { m with calls := m.calls + 1 } = r at hmatch
  generalize x' { m' with calls := m.calls + 1 } = r' at hmatch
  cases hmatch with
  | ok hF' ha hm₁ =>
    dsimp only
    rw [hm₁.calls]
    exact .ok hF' ha (hm₁.recount _)
  | error hF' he hm₁ =>
    dsimp only
    rw [hm₁.calls]
    exact .error hF' he (hm₁.recount _)

/-- A new frame is that of a scope that is renamed, or not, as it is taken for. -/
theorem alike_newFrame (renamed : Bool) (kind : FrameKind) (birth birth' : Option Birth) :
    Alike ρ F marks (fun F' frame frame' => frame' = frame ∧ F'[frame]? = some renamed)
      (allocate (·.newFrame kind birth)) (allocate (·.newFrame kind birth')) := by
  refine alike_allocate fun {F' s s'} _ hs => ⟨F' ++ [renamed], List.prefix_append _ _, ?_⟩
  exact ⟨⟨hs.newFrame_fst kind birth birth', hs.getElem?_newFrame renamed kind birth⟩,
    hs.newFrame renamed kind birth birth'⟩

end Run

end Lox
