import Lox.Proofs.Binding.Sound
import Lox.Proofs.Evaluation.Leaving

namespace Lox

open Resolver

/-- There is a loop, or a function, to lead out of. -/
def Exit.Allowed (r : Resolver) : Exit → Prop
  | .break => r.loops ≠ 0
  | .return => r.functionRole ≠ .none

/-- Whether there is something to lead out of hangs on the loops and the function around alone. -/
theorem Exit.Allowed.congr {x : Exit} {r r' : Resolver} (h : x.Allowed r') (hloops : r'.loops = r.loops)
    (hrole : r'.functionRole = r.functionRole) : x.Allowed r := by
  cases x with
  | «break» => exact fun hnone => h (hloops.trans hnone)
  | «return» => exact fun hnone => h (hrole.trans hnone)

/-- The statements of a body stand in the same surroundings as the body. -/
theorem Visit.Clean.stmt_of_mem {body : List Stmt} {r : Resolver} (h : Visit.Clean ⟨.stmts body, r⟩)
    {s : Stmt} (hs : s ∈ body) : ∃ r', Visit.Clean ⟨.stmt s, r'⟩ ∧
      r'.loops = r.loops ∧ r'.functionRole = r.functionRole := by
  induction body generalizing r with
  | nil => cases hs
  | cons first rest ih =>
    rcases List.mem_cons.mp hs with rfl | hs
    · exact ⟨r, h.part (by simp [Visit.parts]), rfl, rfl⟩
    · have hrest : Visit.Clean ⟨.stmts rest, first.resolve r⟩ := h.part (by simp [Visit.parts])
      have honward := first.resolve_onward r
      obtain ⟨r', hclean, hloops, hrole⟩ := ih hrest hs
      exact ⟨r', hclean, hloops.trans honward.loops, hrole.trans honward.functionRole⟩

/-- A way out leads somewhere: the walk reports those that do not. -/
theorem Stmt.MayExit.allowed {s : Stmt} {x : Exit} (hexit : s.MayExit x) {r : Resolver}
    (h : Visit.Clean ⟨.stmt s, r⟩) : x.Allowed r := by
  induction hexit generalizing r with
  | «break» keyword =>
    intro hnone
    refine h ⟨.breakOutsideLoop, keyword⟩ ?_
    simp [Visit.after, Node.resolve, Stmt.resolve, checkBreak, hnone, Resolver.error]
  | «return» keyword value =>
    intro hnone
    have hreported (hasValue : Bool) :
        .error ⟨.returnOutsideFunction, keyword⟩ ∈ (r.checkReturn keyword hasValue).findings := by
      simp [checkReturn, hnone, Resolver.error]
    refine h ⟨.returnOutsideFunction, keyword⟩ ?_
    -- A value is walked after the check, and its walk takes no report back.
    cases value with
    | none => exact hreported false
    | some e => exact (e.resolve_onward _).findings.subset (hreported true)
  | @block x body s hs _ ih =>
    have hbody : Visit.Clean ⟨.stmts body, r.enter (.block body)⟩ :=
      h.part (by simp [Visit.parts, Stmt.parts])
    obtain ⟨r', hclean, hloops, hrole⟩ := hbody.stmt_of_mem hs
    exact (ih hclean).congr hloops hrole
  | @yes x condition yes no _ ih =>
    have hcondition := condition.resolve_onward r
    have hyes : Visit.Clean ⟨.stmt yes, condition.resolve r⟩ := by
      cases no <;> exact h.part (by simp [Visit.parts, Stmt.parts])
    exact (ih hyes).congr hcondition.loops hcondition.functionRole
  | @no x condition yes no _ ih =>
    have hcondition := condition.resolve_onward r
    have hyes := yes.resolve_onward (condition.resolve r)
    have hno : Visit.Clean ⟨.stmt no, yes.resolve (condition.resolve r)⟩ :=
      h.part (by simp [Visit.parts, Stmt.parts])
    exact (ih hno).congr (hyes.loops.trans hcondition.loops)
      (hyes.functionRole.trans hcondition.functionRole)
  | @«while» condition body _ ih =>
    -- The loop is a surrounding for breaks only, and the way out here is a `return`.
    have hbody : Visit.Clean ⟨.stmt body,
        { condition.resolve r with loops := (condition.resolve r).loops + 1 }⟩ :=
      h.part (by simp [Visit.parts, Stmt.parts])
    intro hnone
    exact ih hbody ((condition.resolve_onward r).functionRole.trans hnone)

variable {fuel : Nat} {c : Completion} {m m' : Machine}

/-- The statements of a program end normally: there is nothing around them. -/
theorem exec_eq_normal {program : List Stmt} (hclean : (resolve program).errors = []) {s : Stmt}
    (hs : s ∈ program) (h : exec fuel s m = .ok c m') : c = .normal := by
  refine Classical.byContradiction fun hc => ?_
  obtain ⟨x, _, hexit⟩ := (leaves_of_exec h hc).mayExit
  obtain ⟨r, hr, hloops, hrole⟩ := (Visit.clean_program hclean).stmt_of_mem hs
  have hallowed : x.Allowed .start := (hexit.allowed hr).congr hloops hrole
  cases x with
  | «break» => exact hallowed rfl
  | «return» => exact hallowed rfl

/-- The body of a function does not end with a break: no loop reaches into it. -/
theorem sequence_ne_broken {role : FunctionRole} {code : Lambda} {r : Resolver}
    (hclean : Visit.Clean ⟨.code role code, r⟩)
    (h : Run.sequence (exec fuel) code.body m = .ok c m') : c ≠ .broken := by
  rintro rfl
  have hleaves : Leaves fuel (.stmts code.body) .broken m m' := leaves_iff.mpr ⟨h, nofun⟩
  obtain ⟨x, hx, s, hs, hexit⟩ := hleaves.mayExit
  cases hx
  have hbody : Visit.Clean ⟨.stmts code.body, r.enterFunction role code⟩ :=
    hclean.part (by simp [Visit.parts])
  obtain ⟨r', hr', hloops, _⟩ := hbody.stmt_of_mem hs
  exact hexit.allowed hr' (hloops.trans (onward_params code.params _).loops)

/-- A loop keeps breaks to itself. -/
theorem while_ne_broken {condition : Expr} {body : Stmt}
    (h : exec fuel (.while condition body) m = .ok c m') : c ≠ .broken := by
  rintro rfl
  obtain ⟨x, hx, hexit⟩ := (leaves_of_exec h nofun).mayExit
  cases hx
  cases hexit

end Lox
