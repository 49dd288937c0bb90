import Lox.Proofs.Alignment.Evaluation
import Lox.Session

namespace Lox

/-- A moment that binding has been at: the walk has come to the node with scopes that the machine is
    in line with, and to the code of the closure. -/
def Moment.Expected (visits : Visit → Prop) (depths : Std.TreeMap Nat Nat) (m : Machine) :
    Moment → Prop
  | .evaluating e => ∃ v, visits v ∧ v.node.expression? = some e ∧
      m.Situated visits depths v.before.shapes
  | .executing s => ∃ r, visits ⟨.stmt s, r⟩ ∧ m.Situated visits depths r.shapes
  | .entering c arguments => Enterable visits depths c arguments m

variable {visits : Visit → Prop} {depths : Std.TreeMap Nat Nat}

/-- A condition that holds where it is watched for does not stop the run. -/
theorem Run.Agrees.guard {α : Type} {x y : Run α} {m : Machine} {Q : α → Machine → Prop}
    {watch : Watch} {moment : Moment} (h : Run.Agrees visits x y m Q)
    (hcondition : watch.condition moment m) :
    Run.Agrees visits (watch.guard moment x) y m Q :=
  ⟨(Watch.guard_of_condition x hcondition).trans h.same, h.ok, h.error⟩

namespace Watch

variable (watch : Watch) (hcovers : Covers visits depths)
  (hkept : ∀ moment m, moment.Expected visits depths m → watch.condition moment m)
include hcovers hkept

/-- Closures are entered alike with the watch and without. -/
theorem enter_agrees {exec' exec : Stmt → Run Completion}
    (hexec : ExecAgrees visits depths exec' exec) :
    EnterAgrees visits depths (watch.enter exec') (Run.callClosure exec) := by
  intro c arguments m line henter
  exact (Run.agrees_callClosure hcovers hexec line henter).guard (hkept _ m henter)

/-- Watched evaluation comes to the same as evaluation. The induction is on the fuel, with the node
    lemmas as its step. -/
theorem eval_exec_agrees (fuel : Nat) :
    EvalAgrees visits depths (watch.eval fuel) (Lox.eval fuel) ∧
      ExecAgrees visits depths (watch.exec fuel) (Lox.exec fuel) := by
  induction fuel with
  | zero =>
    exact ⟨⟨fun _ _ hm => Run.agrees_outOfFuel hm.store, eval_keeps 0⟩,
      ⟨fun _ hm => Run.agrees_outOfFuel hm.store, exec_keeps 0⟩⟩
  | succ fuel ih =>
    obtain ⟨heval, hexec⟩ := ih
    have henter : EnterAgrees visits depths (watch.enter (watch.exec fuel))
        (Run.callClosure (Lox.exec fuel)) := watch.enter_agrees hcovers hkept hexec
    refine ⟨⟨fun {v e m} hv he hm => ?_, eval_keeps _⟩, ⟨fun {s r m} hv hm => ?_, exec_keeps _⟩⟩
    · exact (evalNode_agrees hcovers heval henter hv he hm).guard (hkept _ m ⟨v, hv, he, hm⟩)
    · exact (execNode_agrees hcovers heval hexec fuel hv hm).guard (hkept _ m ⟨r, hv, hm⟩)

end Watch

/-- What an expression comes to leaves the machine where it was. -/
theorem Machine.Situated.evaluated (hcovers : Covers visits depths) {e : Expr} {r : Resolver}
    {m m' : Machine} (hv : visits ⟨.expr e, r⟩) (hm : m.Situated visits depths r.shapes) {fuel : Nat}
    {a : Value} (h : eval fuel e m = .ok a m') : m'.Situated visits depths r.shapes := by
  have hidle := Watch.idle.eval_exec_agrees hcovers (fun _ _ _ => trivial) fuel
  exact ((hidle.1.expr hv hm).ok h).2

/-- At the top level there is nothing to be in line with but the global frame. -/
theorem Machine.Situated.topLevel {new : List String} {m m' : Machine}
    (h : m.Situated visits depths []) (hlater : m.Later new m') (hsound : m'.store.Sound visits) :
    m'.Situated visits depths [] where
  store := hsound
  known := hlater.depths.trans h.known
  aligned := hlater.chain.trans h.aligned
  innermost _ _ hshape := nomatch hshape

/-- A program agrees statement by statement, at the top level. -/
theorem runEach_agrees (hcovers : Covers visits depths) {exec' exec : Stmt → Run Completion}
    (hexec : ExecAgrees visits depths exec' exec) {program : List Stmt} {r : Resolver} {m : Machine}
    (hv : visits ⟨.stmts program, r⟩) (htop : r.shapes = []) (hm : m.Situated visits depths []) :
    Run.Agrees visits (runEach exec' program) (runEach exec program) m
      fun _ m' => m'.Situated visits depths [] := by
  induction program generalizing r m with
  | nil => exact Run.agrees_pure hm.store hm
  | cons s rest ih =>
    have hstmt : visits ⟨.stmt s, r⟩ := hcovers.part hv (by simp [Visit.parts])
    have hrest : visits ⟨.stmts rest, s.resolve r⟩ := hcovers.part hv (by simp [Visit.parts])
    refine (hexec.agrees hstmt (htop ▸ hm)).bind fun hy hsound _ => ?_
    refine ih hrest ?_ (hm.topLevel ((hexec.keeps s).ok hy) hsound)
    rw [(s.resolve_onward r).shapes, htop]
    rfl

/-- A line agrees statement by statement, with the values of its expressions printed in between. -/
theorem runShowing_agrees (hcovers : Covers visits depths) {eval' eval : Expr → Run Value}
    {exec' exec : Stmt → Run Completion} (heval : EvalAgrees visits depths eval' eval)
    (hexec : ExecAgrees visits depths exec' exec) {program : List Stmt} {r : Resolver} {m : Machine}
    (hv : visits ⟨.stmts program, r⟩) (htop : r.shapes = []) (hm : m.Situated visits depths []) :
    Run.Agrees visits (runShowing eval' exec' program) (runShowing eval exec program) m
      fun _ m' => m'.Situated visits depths [] := by
  induction program generalizing r m with
  | nil => exact Run.agrees_pure hm.store hm
  | cons s rest ih =>
    have hstmt : visits ⟨.stmt s, r⟩ := hcovers.part hv (by simp [Visit.parts])
    have hrest : visits ⟨.stmts rest, s.resolve r⟩ := hcovers.part hv (by simp [Visit.parts])
    have hnext : (s.resolve r).shapes = [] := by
      rw [(s.resolve_onward r).shapes, htop]
      rfl
    have hother : Run.Agrees visits (do let _ ← exec' s; runShowing eval' exec' rest)
        (do let _ ← exec s; runShowing eval exec rest) m
        fun _ m' => m'.Situated visits depths [] := by
      refine (hexec.agrees hstmt (htop ▸ hm)).bind fun hy hsound _ => ?_
      exact ih hrest hnext (hm.topLevel ((hexec.keeps s).ok hy) hsound)
    cases s with
    | expression e =>
      have hexpr : visits ⟨.expr e, r⟩ := hcovers.part hstmt (by simp [Visit.parts, Stmt.parts])
      apply (heval.expr hexpr (htop ▸ hm)).bind
      intro value _ _ _ hm₁
      refine (Run.agrees_print value e.line (htop ▸ hm₁)).bind fun _ _ hm₂ => ?_
      exact ih hrest hnext hm₂
    | _ => exact hother

end Lox
