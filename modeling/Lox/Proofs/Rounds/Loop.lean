import Lox.Proofs.Evaluation.ForLoop
import Lox.Proofs.Rounds.Evaluation

namespace Lox

open Folding
open Grammar.Rules (iteration)

variable {C : Course} {F : Folding} {marks : List Bool} {r : Resolver}

namespace Run

variable {α β : Type} {P : Folding → α → β → Prop}

/-- A block that both runs make. -/
theorem Folds.inBlock {x : Run α} {x' : Run β} (hx : Folds C F (false :: marks) P x x')
    (body body' : Option (List Stmt)) : Folds C F marks P (inBlock body x) (inBlock body' x') :=
  folds_chain.bind fun hF hline => (folds_newFrame .block _ _).bind fun hF' hframe =>
    (hx.later (hF.trans hF')).inChain (.frame hframe (hline.mono hF'))

/-- The block of a round, which only the first run makes. -/
theorem Folds.inRound {x : Run α} {x' : Run β} (hx : Folds C F (true :: marks) P x x')
    (body : Option (List Stmt)) :
    Folds C F marks P (Run.inBlock body x) (twice x') := by
  refine ⟨fun {F' m m'} hF hm => ?_⟩
  obtain ⟨frame, rest, frame', rest', hchain, hchain', -⟩ := hm.line.head
  have hround : F' <+: F' ++ [none] := List.prefix_append _ _
  let birth : Option Birth := body.map fun body => ⟨.block body, m.chain⟩
  have hmade : Machine.Folds C (F' ++ [none]) marks
      { m with store := (m.store.newFrame .block birth).2 } m' :=
    hm.restore hround (hm.store.newRound birth)
  have hline := hmade.line
  rw [hchain'] at hline
  have hinside : Folds C (F' ++ [none]) marks P
      (Run.inChain ((m.store.newFrame .block birth).1 :: m.chain) x)
      (Run.inChain (frame' :: frame' :: rest') x') :=
    (hx.later (hF.trans hround)).inChain (.round (hm.store.drops_newRound birth) hline)
  rw [twice_of_cons hchain']
  exact (hinside.step (List.prefix_refl _) hmade).earlier hround

/-- One statement behind another comes to the same if both do. -/
theorem sameFolds_andThen {x x' y y' : Run Completion} (hx : SameFolds C F marks x x')
    (hy : SameFolds C F marks y y') : SameFolds C F marks (andThen x y) (andThen x' y') :=
  hx.next fun completion => by
    cases completion with
    | normal => exact hy
    | _ => exact sameFolds_pure _

end Run

open Run

variable {fuel : Nat} {line : Nat} {initial : Option Stmt} {condition increment : Option Expr}
  {body : Stmt} (hcovers : Covers C.visits C.depths)
include hcovers

/-- The condition comes to the same where binding has been at it. -/
theorem sameFolds_test
    (hv : ∀ e, condition = some e → C.visits ⟨.expr e, r⟩) (hplaced : Placed marks r.shapes) :
    SameFolds C F marks (test (eval fuel) condition) (test (eval fuel) condition) := by
  cases condition with
  | none => exact sameFolds_pure _
  | some e => exact (eval_exec_folds hcovers fuel).1 (hv e rfl) rfl hplaced

/-- The block of a round has no name, as the body of a loop declares none. -/
theorem sameFolds_roundInBlock {e : Expr} (hv : C.visits ⟨.stmt (.block [body, .expression e]), r⟩)
    (hplaced : Placed marks r.shapes) (hdeclares : body.declares = []) :
    SameFolds C F marks (roundInBlock (eval fuel) (exec fuel) (some e) body)
      (andThen (twice (exec fuel body)) (do twice (do let _ ← eval fuel e); return .normal)) := by
  have hinside : C.visits ⟨.stmts [body, .expression e], r.enter (.block [body, .expression e])⟩ :=
    hcovers.part hv (by simp [Visit.parts, Stmt.parts])
  have hbody : C.visits ⟨.stmt body, r.enter (.block [body, .expression e])⟩ :=
    hcovers.part hinside (by simp [Visit.parts])
  have hrest : C.visits ⟨.stmts [.expression e], body.resolve (r.enter (.block [body, .expression e]))⟩ :=
    hcovers.part hinside (by simp [Visit.parts])
  have hlast : C.visits ⟨.stmt (.expression e), body.resolve (r.enter (.block [body, .expression e]))⟩ :=
    hcovers.part hrest (by simp [Visit.parts])
  have hincrement : C.visits ⟨.expr e, body.resolve (r.enter (.block [body, .expression e]))⟩ :=
    hcovers.part hlast (by simp [Visit.parts, Stmt.parts])
  have hplacedBody : Placed (true :: marks) (r.enter (.block [body, .expression e])).shapes := hplaced.round _
  have hplacedIncrement :
      Placed (true :: marks) (body.resolve (r.enter (.block [body, .expression e]))).shapes :=
    hplacedBody.behindStmt fun _ => hdeclares
  obtain ⟨heval, hexec⟩ := eval_exec_folds hcovers fuel
  rw [← twice_andThen (exec_keeps fuel body) (eval_keeps fuel e)]
  refine (sameFolds_andThen ?_ ?_).inRound _
  · exact hexec hbody hplacedBody fun _ => hdeclares
  · exact (heval hincrement rfl hplacedIncrement).next fun _ => sameFolds_pure _

/-- The loop itself, whatever has been before it. -/
theorem sameFolds_rounds
    (hv : C.visits ⟨.stmt (.while (condition.getD (.literal (.bool true) line))
      (iteration increment body)), r⟩)
    (hplaced : Placed marks r.shapes) (hdeclares : body.declares = []) :
    SameFolds C F marks
      (loop (test (eval fuel) condition) (roundInBlock (eval fuel) (exec fuel) increment body) fuel)
      (forRounds (eval fuel) (exec fuel) fuel condition increment body) := by
  have hcondition := hcovers.part hv (w := ⟨.expr (condition.getD (.literal (.bool true) line)), r⟩)
    (by simp [Visit.parts, Stmt.parts])
  have htest : SameFolds C F marks (test (eval fuel) condition) (test (eval fuel) condition) := by
    refine sameFolds_test hcovers (fun e he => ?_) hplaced
    subst he
    exact hcondition
  let inside : Resolver :=
    let r := (condition.getD (.literal (.bool true) line)).resolve r
    { r with loops := r.loops + 1 }
  have hbody : C.visits ⟨.stmt (iteration increment body), inside⟩ :=
    hcovers.part hv (by simp [Visit.parts, Stmt.parts, inside])
  have hinside : Placed marks inside.shapes := hplaced.behindExpr _
  cases increment with
  | none =>
    unfold forRounds
    rw [rounds_eq_loop_of_none]
    exact sameFolds_loop htest ((eval_exec_folds hcovers fuel).2 hbody hinside fun _ => hdeclares) fuel
  | some e =>
    unfold forRounds
    dsimp only
    rw [rounds_eq_loop]
    exact sameFolds_loop htest (sameFolds_roundInBlock hcovers hbody hinside hdeclares) fuel

/-- The loop that is meant comes to the same with the frames of rounds and without. -/
theorem sameFolds_forLoop
    (hv : C.visits ⟨.stmt (Grammar.Rules.forLoop line initial condition increment body), r⟩)
    (hplaced : Placed marks r.shapes) (hdeclares : body.declares = []) :
    SameFolds C F marks
      (forLoopInBlocks (eval fuel) (exec fuel) fuel line initial condition increment body)
      (forLoop (eval fuel) (exec fuel) fuel initial condition increment body) := by
  cases initial with
  | none => exact sameFolds_rounds hcovers hv hplaced hdeclares
  | some s =>
    let loop : Stmt :=
      .while (condition.getD (.literal (.bool true) line)) (iteration increment body)
    have hinside : C.visits ⟨.stmts [s, loop], r.enter (.block [s, loop])⟩ :=
      hcovers.part hv (by simp [Visit.parts, Stmt.parts, Grammar.Rules.forLoop, loop])
    have hs : C.visits ⟨.stmt s, r.enter (.block [s, loop])⟩ := hcovers.part hinside (by simp [Visit.parts])
    have hrest : C.visits ⟨.stmts [loop], s.resolve (r.enter (.block [s, loop]))⟩ :=
      hcovers.part hinside (by simp [Visit.parts])
    have hloop : C.visits ⟨.stmt loop, s.resolve (r.enter (.block [s, loop]))⟩ :=
      hcovers.part hrest (by simp [Visit.parts])
    have hplacedInitial : Placed (false :: marks) (r.enter (.block [s, loop])).shapes := hplaced.cons _
    have hplacedLoop : Placed (false :: marks) (s.resolve (r.enter (.block [s, loop]))).shapes :=
      hplacedInitial.behindStmt nofun
    refine Folds.inBlock (sameFolds_andThen ?_ ?_) _ _
    · exact (eval_exec_folds hcovers fuel).2 hs hplacedInitial nofun
    · exact sameFolds_rounds hcovers hloop hplacedLoop hdeclares

end Lox
