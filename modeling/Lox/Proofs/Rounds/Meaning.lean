import Lox.Proofs.Grammar.Derivation
import Lox.Proofs.Rounds.Loop

namespace Lox

open Folding

/-- All frames of a store, as they are. -/
def Store.unfolded (s : Store) : Folding :=
  (List.range s.frames.size).map some

variable {s : Store} {frame frame' : Nat}

/-- At first every frame is on both sides under its own number. -/
theorem Store.keeps_unfolded (hlt : frame < s.frames.size) : s.unfolded.Keeps frame frame := by
  unfold Folding.Keeps unfolded
  rw [List.getElem?_map, List.getElem?_range hlt]
  rfl

theorem Store.keeps_unfolded_of_kind? (hkind : (s.kind? frame).isSome) :
    s.unfolded.Keeps frame frame := by
  obtain ⟨kind, hkind⟩ := Option.isSome_iff_exists.mp hkind
  obtain ⟨f, hf, -⟩ := Option.map_eq_some_iff.mp hkind
  exact keeps_unfolded (Array.getElem?_eq_some_iff.mp hf).1

/-- At first a store folds to itself. -/
theorem Store.foldsFrames_self (hglobal : s.kind? globalFrame = some .global) :
    s.FoldsFrames s.unfolded s where
  size := by simp [unfolded]
  order := by simp [unfolded, List.filterMap_map]
  global := keeps_unfolded_of_kind? (by rw [hglobal]; rfl)
  kept {frame frame'} hkept := by
    unfold Folding.Keeps unfolded at hkept
    rw [List.getElem?_map] at hkept
    obtain ⟨found, hfound, hsome⟩ := Option.map_eq_some_iff.mp hkept
    obtain ⟨hlt, rfl⟩ := List.getElem?_eq_some_iff.mp hfound
    rw [List.getElem_range] at hsome
    rw [Option.some.inj hsome]
  dropped hdropped := by
    obtain ⟨_, -, hsome⟩ := List.mem_map.mp (List.mem_of_getElem? hdropped)
    cases hsome

/-- There are no rounds around a place where there are only the frames of its scopes. -/
theorem Store.Aligned.inLine_self (hglobal : s.kind? globalFrame = some .global) {shapes : List Shape}
    {chain : Chain} (h : s.Aligned shapes chain) :
    s.unfolded.InLine (List.replicate shapes.length false) chain chain := by
  induction shapes generalizing chain with
  | nil =>
    rw [show chain = .global from h]
    exact .global (foldsFrames_self hglobal).global
  | cons shape shapes ih =>
    cases chain with
    | nil => exact h.elim
    | cons frame chain =>
      exact .frame (keeps_unfolded_of_kind? (by rw [h.1.kind]; rfl)) (ih h.2.2)

/-- At first no scope is one of a round. -/
theorem Folding.placed_replicate (shapes : List Shape) :
    Placed (List.replicate shapes.length false) shapes := by
  induction shapes with
  | nil => exact List.Forall₂.nil
  | cons shape shapes ih => exact ih.cons shape

variable {visits : Visit → Prop} {depths : Std.TreeMap Nat Nat} {m : Machine} {shapes : List Shape}

/-- A sound store is like itself. -/
theorem Store.Sound.folds_self (h : s.Sound visits) :
    s.Folds (Course.mk visits depths).Fits s.unfolded s where
  toFoldsFrames := foldsFrames_self h.global
  functions id := by
    cases hc : s.functions[id]? with
    | none => exact .none
    | some c =>
      obtain ⟨role, r, hvisit, haligned, -⟩ := h.functions hc
      -- A closure goes on in the frames that it was made in, of which none is a frame of a round.
      refine .some ⟨rfl, rfl, rfl, _, haligned.inLine_self h.global, role, r, hvisit,
        placed_replicate _, fun _ => ?_⟩
      cases r.shapes <;> rfl
  classes id := by
    cases hrecord : s.classes[id]? with
    | none => exact .none
    | some record =>
      refine .some ⟨rfl, rfl, fun name => ?_⟩
      cases hc : record.methods.find? name with
      | none => exact .none
      | some c =>
        obtain ⟨role, r, _, around, hvisit, -, hshapes, haligned⟩ := h.methods hrecord hc
        refine .some ⟨rfl, rfl, rfl, _, haligned.inLine_self h.global, role, r, hvisit, ?_, fun _ => rfl⟩
        rw [hshapes]
        exact (placed_replicate around).cons _
  instances := rfl

theorem Machine.Situated.folds_self (h : m.Situated visits depths shapes) :
    m.Folds ⟨visits, depths⟩ m.store.unfolded (List.replicate shapes.length false) m :=
  ⟨h.store.folds_self, h.aligned.inLine_self h.store.global, h.known, rfl⟩

/-- Machines that are the same but for the frames of rounds, of which the second has none. These are
    blocks without a name. All else has the same number, value and output in both, and functions are made
    in the same frames, where the frame around a round stands in for that of the round. -/
structure Machine.SameButRounds (F : Folding) (m m' : Machine) : Prop where
  store : m.store.Folds (fun _ _ _ => True) F m'.store
  same : m' = { m with store := m'.store }

/-- The same result or the same halt, where all that was there in the machine before is still the same. -/
inductive Run.SameButRounds {α : Type} (before : Machine) :
    EStateM.Result Halt Machine α → EStateM.Result Halt Machine α → Prop
  | ok {F a m m'} (hF : before.store.unfolded <+: F) (hm : m.SameButRounds F m') :
    SameButRounds before (.ok a m) (.ok a m')
  | error {F e m m'} (hF : before.store.unfolded <+: F) (hm : m.SameButRounds F m') :
    SameButRounds before (.error e m) (.error e m')

namespace Run

/-- Both machines are back in the frames in which they were. -/
theorem FoldsTo.sameButRounds {C : Course} {marks : List Bool} {α : Type} {x : Run α}
    {new : List String} (hkeeps : x.Keeps new) {r' : EStateM.Result Halt Machine α}
    (hbefore : m.store.unfolded.InLine marks m.chain m.chain)
    (h : FoldsTo C m.store.unfolded marks (fun _ a a' => a' = a) (x m) r') :
    SameButRounds m (x m) r' := by
  have hback {F : Folding} {m₁ m₁' : Machine} (hF : m.store.unfolded <+: F)
      (hchain : m₁.chain = m.chain) (hm : m₁.Folds C F marks m₁') : m₁.SameButRounds F m₁' := by
    have hline := hm.line
    rw [hchain] at hline
    refine ⟨hm.store.weaken fun _ => trivial, ?_⟩
    rw [hm.same, (hbefore.mono hF).unique hline, ← hchain]
  generalize hrun : x m = r at h
  cases h with
  | ok hF ha hm =>
    subst ha
    exact .ok hF (hback hF (hkeeps.ok hrun).chain hm)
  | error hF hm => exact .error hF (hback hF (hkeeps.error hrun).chain hm)

/-- Runs that fold are over on both sides or on neither. -/
theorem FoldsTo.over {C : Course} {F : Folding} {marks : List Bool} {α β : Type}
    {P : Folding → α → β → Prop} {r : EStateM.Result Halt Machine α}
    {r' : EStateM.Result Halt Machine β} (h : FoldsTo C F marks P r r') (hover : Over r') : Over r := by
  cases h with
  | ok => nofun
  | @error _ e m m' =>
    rintro _ h
    cases h
    exact absurd rfl (hover m')

end Run

open Run

/-- What cannot be a declaration brings in no name. -/
theorem Stmt.Proper.declares_eq_nil {s : Stmt} (h : s.Proper) (hplain : s.isDeclaration = false) :
    s.declares = [] := by
  cases s with
  | var | function | «class» => cases hplain
  | «if» condition yes no =>
    cases no with
    | none => exact h.2.2
    | some no =>
      obtain ⟨_, _, _, hyes, hno⟩ := h
      simp [Stmt.declares, hyes, hno]
  | «while» condition body => exact h.2.2
  | _ => rfl

variable {line : Nat} {initial : Option Stmt} {condition increment : Option Expr} {body : Stmt}

/-- The body of a loop that is proper as a tree is proper. -/
theorem Grammar.Rules.proper_body
    (h : (Grammar.Rules.forLoop line initial condition increment body).Proper) : body.Proper := by
  have hloop (h : (Stmt.while (condition.getD (.literal (.bool true) line))
      (Grammar.Rules.iteration increment body)).Proper) : body.Proper := by
    cases increment with
    | none => exact h.2.1
    | some e => exact h.2.1.1
  cases initial with
  | none => exact hloop h
  | some s => exact hloop h.2.1

/-- How a loop ends, and what it leaves behind, in the syntax tree and as it is meant. -/
def ForLoopMeant (line : Nat) (initial : Option Stmt) (condition increment : Option Expr) (body : Stmt)
    (m : Machine) : Prop :=
  let stmt := Grammar.Rules.forLoop line initial condition increment body
  let meant := fun fuel => forLoop (eval fuel) (exec fuel) fuel initial condition increment body
  (∀ fuel, Over (exec fuel stmt m) → SameButRounds m (exec fuel stmt m) (meant fuel m)) ∧
    ∀ fuel, Over (meant fuel m) → SameButRounds m (exec (fuel + 4) stmt m) (meant fuel m)

/-- Where binding has been at a loop, the loop that is meant folds to the one in the tree. -/
theorem Machine.Situated.forLoopMeant (hcovers : Covers visits depths) {r : Resolver}
    (hv : visits ⟨.stmt (Grammar.Rules.forLoop line initial condition increment body), r⟩)
    (hm : m.Situated visits depths r.shapes) (hplain : body.isDeclaration = false) :
    ForLoopMeant line initial condition increment body m := by
  have hproper := Grammar.Rules.proper_body (hcovers.sound hv).proper
  have hfolds (fuel : Nat) : FoldsTo ⟨visits, depths⟩ m.store.unfolded
      (List.replicate r.shapes.length false) (fun _ a a' => a' = a)
      (forLoopInBlocks (eval fuel) (exec fuel) fuel line initial condition increment body m)
      (forLoop (eval fuel) (exec fuel) fuel initial condition increment body m) :=
    (sameFolds_forLoop hcovers hv (placed_replicate r.shapes) (hproper.declares_eq_nil hplain)).step
      (List.prefix_refl _) hm.folds_self
  have hline := hm.folds_self.line
  refine ⟨fun fuel hover => ?_, fun fuel hover => ?_⟩
  · have hsame := hfolds fuel
    rw [forLoopInBlocks_extends (Nat.le_refl fuel) m hover] at hsame
    exact hsame.sameButRounds (exec_keeps fuel _) hline
  · have hsame := hfolds fuel
    rw [← extends_forLoopInBlocks (Nat.le_refl (fuel + 4)) m (hsame.over hover)] at hsame
    exact hsame.sameButRounds (exec_keeps (fuel + 4) _) hline

end Lox
