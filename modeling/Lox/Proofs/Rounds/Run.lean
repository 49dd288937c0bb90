import Lox.Proofs.Alignment.Situation
import Lox.Proofs.Rounds.Store
import Lox.Proofs.Run.Keeping

namespace Lox

open Folding

/-- Where static binding has been, and the depths that it has decided there. -/
structure Course where
  visits : Visit → Prop
  depths : Std.TreeMap Nat Nat

variable {C : Course} {F F' : Folding} {marks : List Bool}

/-- Binding has been at the code with such scopes around it, of which that of the `this` of an
    initializer is not that of a round. -/
def Course.Fits (C : Course) (code : Lambda) (initializer : Bool) (marks : List Bool) : Prop :=
  ∃ role r, C.visits ⟨.code role code, r⟩ ∧ Placed marks r.shapes ∧
    (initializer = true → marks.headD false = false)

/-- Machines that are the same but for the frames of rounds. -/
structure Machine.Folds (C : Course) (F : Folding) (marks : List Bool) (m m' : Machine) : Prop where
  store : m.store.Folds C.Fits F m'.store
  line : F.InLine marks m.chain m'.chain
  depths : m.depths = C.depths
  same : m' = { m with store := m'.store, chain := m'.chain }

namespace Machine.Folds

variable {m m' : Machine} (h : m.Folds C F marks m')
include h

/-- A store that folds may take the place of the one before. -/
theorem restore (hF : F <+: F') {s s' : Store} (hs : s.Folds C.Fits F' s') :
    Machine.Folds C F' marks { m with store := s } { m' with store := s' } :=
  ⟨hs, h.line.mono hF, h.depths, by rw [h.same]⟩

/-- Chains that are in line may take the place of the ones before. -/
theorem rechain {marks₁ : List Bool} {chain chain' : Chain} (hline : F.InLine marks₁ chain chain') :
    Machine.Folds C F marks₁ { m with chain } { m' with chain := chain' } :=
  ⟨h.store, hline, h.depths, by rw [h.same]⟩

theorem recount (calls : Nat) : Machine.Folds C F marks { m with calls } { m' with calls } :=
  ⟨h.store, h.line, h.depths, by rw [h.same]⟩

theorem calls : m'.calls = m.calls := by
  rw [h.same]

theorem depths' : m'.depths = C.depths := by
  rw [h.same, ← h.depths]

end Machine.Folds

namespace Run

variable {α β γ δ : Type} {P : Folding → α → β → Prop} {Q : Folding → γ → δ → Prop}

/-- Runs that have come from folded machines to folded ones, perhaps with more frames, and with results of
    which `P` holds. -/
inductive FoldsTo (C : Course) (F : Folding) (marks : List Bool) (P : Folding → α → β → Prop) :
    EStateM.Result Halt Machine α → EStateM.Result Halt Machine β → Prop
  | ok {F' a a' m m'} (hF : F <+: F') (ha : P F' a a') (hm : m.Folds C F' marks m') :
    FoldsTo C F marks P (.ok a m) (.ok a' m')
  | error {F' e m m'} (hF : F <+: F') (hm : m.Folds C F' marks m') :
    FoldsTo C F marks P (.error e m) (.error e m')

/-- From now on the runs come from folded machines to folded ones. -/
structure Folds (C : Course) (F : Folding) (marks : List Bool) (P : Folding → α → β → Prop)
    (x : Run α) (x' : Run β) : Prop where
  step : ∀ {F' m m'}, F <+: F' → m.Folds C F' marks m' → FoldsTo C F' marks P (x m) (x' m')

/-- They do, and have the same result. -/
abbrev SameFolds (C : Course) (F : Folding) (marks : List Bool) (x x' : Run α) : Prop :=
  Folds C F marks (fun _ a a' => a' = a) x x'

theorem Folds.later {x : Run α} {x' : Run β} (h : Folds C F marks P x x') (hF : F <+: F') :
    Folds C F' marks P x x' :=
  ⟨fun hF' hm => h.step (hF.trans hF') hm⟩

/-- What folds with frames that were added folded before. -/
theorem FoldsTo.earlier {r : EStateM.Result Halt Machine α} {r' : EStateM.Result Halt Machine β}
    (h : FoldsTo C F' marks P r r') (hF : F <+: F') : FoldsTo C F marks P r r' := by
  cases h with
  | ok hF' ha hm => exact .ok (hF.trans hF') ha hm
  | error hF' hm => exact .error (hF.trans hF') hm

/-- Runs that fold can go on one after the other. -/
theorem Folds.bind {x : Run α} {x' : Run β} {k : α → Run γ} {k' : β → Run δ}
    (hx : Folds C F marks P x x')
    (hk : ∀ {F' a a'}, F <+: F' → P F' a a' → Folds C F' marks Q (k a) (k' a')) :
    Folds C F marks Q (x >>= k) (x' >>= k') := by
  refine ⟨fun {F₁ m m'} hF hm => ?_⟩
  have hmatch := hx.step hF hm
  rw [bind_apply, bind_apply]
  generalize x m = r at hmatch
  generalize x' m' = r' at hmatch
  cases hmatch with
  | ok hF₂ ha hm₂ => exact ((hk (hF.trans hF₂) ha).step (List.prefix_refl _) hm₂).earlier hF₂
  | error hF₂ hm₂ => exact .error hF₂ hm₂

/-- What comes after the same result. -/
theorem Folds.next {x x' : Run α} {k : α → Run γ} {k' : α → Run δ} (hx : SameFolds C F marks x x')
    (hk : ∀ a, Folds C F marks Q (k a) (k' a)) : Folds C F marks Q (x >>= k) (x' >>= k') := by
  refine hx.bind fun {F' a a'} hF ha => ?_
  rw [ha]
  exact (hk a).later hF

theorem folds_pure {a : α} {a' : β} (h : ∀ {F'}, F <+: F' → P F' a a') :
    Folds C F marks P (pure a) (pure a') :=
  ⟨fun hF hm => .ok (List.prefix_refl _) (h hF) hm⟩

theorem sameFolds_pure (a : α) : SameFolds C F marks (pure a : Run α) (pure a) :=
  folds_pure fun _ => rfl

theorem folds_fault (f : Fault) (line : Nat) : Folds C F marks P (fault f line) (fault f line) :=
  ⟨fun _ hm => .error (List.prefix_refl _) hm⟩

theorem folds_outOfFuel : Folds C F marks P outOfFuel outOfFuel :=
  ⟨fun _ hm => .error (List.prefix_refl _) hm⟩

theorem sameFolds_orFault (line : Nat) (result : Except Fault α) :
    SameFolds C F marks (orFault line result) (orFault line result) := by
  cases result with
  | ok a => exact sameFolds_pure a
  | error f => exact folds_fault f line

/-- What is looked up in stores that fold is related. -/
theorem folds_query {find : Store → α} {find' : Store → β}
    (h : ∀ {F' s s'}, F <+: F' → s.Folds C.Fits F' s' → P F' (find s) (find' s')) :
    Folds C F marks P (query find) (query find') :=
  ⟨fun hF hm => .ok (List.prefix_refl _) (h hF hm.store) hm⟩

theorem folds_chain : Folds C F marks (fun F chain chain' => F.InLine marks chain chain')
    Run.chain Run.chain :=
  ⟨fun _ hm => .ok (List.prefix_refl _) hm.line hm⟩

/-- What is added to stores that fold leaves them folding. -/
theorem folds_allocate {add : Store → α × Store} {add' : Store → β × Store}
    (h : ∀ {F' s s'}, F <+: F' → s.Folds C.Fits F' s' →
      ∃ F'', F' <+: F'' ∧ P F'' (add s).1 (add' s').1 ∧ (add s).2.Folds C.Fits F'' (add' s').2) :
    Folds C F marks P (allocate add) (allocate add') := by
  refine ⟨fun hF hm => ?_⟩
  obtain ⟨F'', hF', ha, hs⟩ := h hF hm.store
  exact .ok hF' ha (hm.restore hF' hs)

theorem sameFolds_setField (id : Nat) (name : String) (value : Value) :
    SameFolds C F marks (modifyStore (·.setField id name value)) (modifyStore (·.setField id name value)) :=
  ⟨fun _ hm => .ok (List.prefix_refl _) rfl
    (hm.restore (List.prefix_refl _) (hm.store.setField id name value))⟩

/-- A definition comes to the same where the innermost frame is none of a round. -/
theorem sameFolds_define (hmark : marks.headD false = false) (name : String) (value : Value) :
    SameFolds C F marks (define name value) (define name value) :=
  ⟨fun _ hm => .ok (List.prefix_refl _) rfl
    (hm.restore (List.prefix_refl _) (hm.store.define hm.line hmark name value))⟩

/-- A declaration comes to the same where the innermost frame is none of a round. -/
theorem sameFolds_declare (hmark : marks.headD false = false) (name : String) :
    SameFolds C F marks (declare name) (declare name) :=
  ⟨fun _ hm => .ok (List.prefix_refl _) rfl
    (hm.restore (List.prefix_refl _) (hm.store.declare hm.line hmark name))⟩

theorem sameFolds_readClock : SameFolds C F marks readClock readClock := by
  refine ⟨fun _ hm => ?_⟩
  unfold readClock
  rw [hm.same]
  exact .ok (List.prefix_refl _) rfl ⟨hm.store, hm.line, hm.depths, rfl⟩

theorem sameFolds_exhausted : SameFolds C F marks exhausted exhausted := by
  refine ⟨fun _ hm => ?_⟩
  unfold exhausted
  rw [hm.same]
  exact .ok (List.prefix_refl _) rfl ⟨hm.store, hm.line, hm.depths, rfl⟩

/-- A host answers alike on both sides. -/
theorem sameFolds_callHost (name : String) (arguments : List Value) (line : Nat) :
    SameFolds C F marks (callHost name arguments line) (callHost name arguments line) := by
  refine ⟨fun {F' m m'} _ hm => ?_⟩
  have hanswer : m'.answer name arguments = m.answer name arguments := by rw [hm.same]; rfl
  unfold callHost
  rw [hanswer]
  exact (sameFolds_orFault line _).step (List.prefix_refl _) hm

/-- The same is written on both sides. -/
theorem sameFolds_write (pieces : List String) (line : Nat) :
    SameFolds C F marks (write pieces line) (write pieces line) := by
  refine ⟨fun {F' m m'} _ hm => ?_⟩
  unfold write
  rw [hm.same]
  dsimp only
  rcases m.sink.put pieces with ⟨sink, _ | message⟩
  · exact .ok (List.prefix_refl _) rfl ⟨hm.store, hm.line, hm.depths, rfl⟩
  · exact .error (List.prefix_refl _) ⟨hm.store, hm.line, hm.depths, rfl⟩

theorem sameFolds_print (value : Value) (line : Nat) :
    SameFolds C F marks (print value line) (print value line) := by
  have hpieces : SameFolds C F marks (query (·.pieces value)) (query (·.pieces value)) :=
    folds_query fun _ hs => hs.pieces value
  exact hpieces.next fun _ => sameFolds_write _ line

variable {shapes : List Shape}

/-- The depth of an occurrence is that of a scope with its name, and the scope of a round has no name. -/
theorem sameFolds_read (hplaced : Placed marks shapes) {ref : Ref}
    (hdepth : C.depths[ref.id]? = Shape.depth? shapes ref.mark.lexeme) :
    SameFolds C F marks (read ref) (read ref) := by
  refine ⟨fun {F' m m'} _ hm => ?_⟩
  show FoldsTo _ _ _ _ (orFault ref.mark.line (m.lookUp ref) m)
    (orFault ref.mark.line (m'.lookUp ref) m')
  have hsame : m'.lookUp ref = m.lookUp ref := by
    unfold Machine.lookUp
    rw [hm.depths, hm.depths']
    cases hfound : C.depths[ref.id]? with
    | none => exact hm.store.get_global _
    | some depth =>
      dsimp only
      rw [hm.store.getAt? hm.line (hplaced.unmarked_depth (hdepth ▸ hfound))]
  rw [hsame]
  exact (sameFolds_orFault ref.mark.line _).step (List.prefix_refl _) hm

/-- An assignment comes to the same if its owners are one frame. -/
theorem foldsTo_assignIn {m m' : Machine} (hm : m.Folds C F marks m') {owner owner' : Option Nat}
    (howner : Option.Rel F.Keeps owner owner') (name : Mark) (value : Value) :
    FoldsTo C F marks (fun _ a a' => a' = a) (assignIn owner name value m)
      (assignIn owner' name value m') := by
  cases howner with
  | none => exact .error (List.prefix_refl _) hm
  | some hkept =>
    exact .ok (List.prefix_refl _) rfl
      (hm.restore (List.prefix_refl _) (hm.store.setSlot hkept name.lexeme _))

/-- An assignment comes to the same, since its name is in no frame of a round. -/
theorem sameFolds_assign (hplaced : Placed marks shapes) {ref : Ref}
    (hdepth : C.depths[ref.id]? = Shape.depth? shapes ref.mark.lexeme) (value : Value) :
    SameFolds C F marks (assign ref value) (assign ref value) := by
  refine ⟨fun {F' m m'} _ hm => foldsTo_assignIn hm ?_ ref.mark value⟩
  unfold Machine.owner?
  rw [hm.depths, hm.depths']
  cases hfound : C.depths[ref.id]? with
  | none => exact hm.store.owner?_global _
  | some depth => exact hm.store.ownerAt? hm.line (hplaced.unmarked_depth (hdepth ▸ hfound)) _

/-- Runs that fold in chains that are in line do so from outside of these. -/
theorem Folds.inChain {x : Run α} {x' : Run β} {marks₁ : List Bool} {chain chain' : Chain}
    (hx : Folds C F marks₁ P x x') (hline : F.InLine marks₁ chain chain') :
    Folds C F marks P (inChain chain x) (inChain chain' x') := by
  refine ⟨fun {F' m m'} hF hm => ?_⟩
  have hmatch := hx.step hF (hm.rechain (hline.mono hF))
  unfold Run.inChain
  generalize x { m with chain } = r at hmatch
  generalize x' { m' with chain := chain' } = r' at hmatch
  cases hmatch with
  | ok hF' ha hm₁ => exact .ok hF' ha (hm₁.rechain (hm.line.mono hF'))
  | error hF' hm₁ => exact .error hF' (hm₁.rechain (hm.line.mono hF'))

/-- Runs that fold still do so as one more active call. -/
theorem Folds.counted {x : Run α} {x' : Run β} (hx : Folds C F marks P x x') :
    Folds C F marks P (counted x) (counted x') := by
  refine ⟨fun {F' m m'} hF hm => ?_⟩
  have hmatch := hx.step hF (hm.recount (m.calls + 1))
  unfold Run.counted
  rw [hm.calls]
  generalize x { m with calls := m.calls + 1 } = r at hmatch
  generalize x' { m' with calls := m.calls + 1 } = r' at hmatch
  cases hmatch with
  | ok hF' ha hm₁ =>
    dsimp only
    rw [hm₁.calls]
    exact .ok hF' ha (hm₁.recount _)
  | error hF' hm₁ =>
    dsimp only
    rw [hm₁.calls]
    exact .error hF' (hm₁.recount _)

/-- A new frame that both runs make. -/
theorem folds_newFrame (kind : FrameKind) (birth birth' : Option Birth) :
    Folds C F marks (fun F' frame frame' => F'.Keeps frame frame')
      (allocate (·.newFrame kind birth)) (allocate (·.newFrame kind birth')) :=
  folds_allocate fun {F' _ s'} _ hs => ⟨F' ++ [some s'.frames.size], List.prefix_append _ _,
    hs.keeps_newFrame kind birth birth', hs.newFrame kind birth birth'⟩

end Run

end Lox
