import Lox.Proofs.Evaluation.Keeping

namespace Lox

/-- The ways out of a statement: out of the loop around it, or out of the function. -/
inductive Exit where
  | break
  | return
deriving DecidableEq, Repr

/-- The way out that a statement has taken, if it did not end normally. -/
def Completion.exit? : Completion → Option Exit
  | normal => none
  | broken => some .break
  | returned _ => some .return

/-- The statement has a way out in it. A loop keeps the breaks in its body to itself, and a function
    keeps everything to itself. -/
inductive Stmt.MayExit : Exit → Stmt → Prop where
  | break (keyword : Mark) : MayExit .break (.break keyword)
  | return (keyword : Mark) (value : Option Expr) : MayExit .return (.return keyword value)
  | block {x : Exit} {body : List Stmt} {s : Stmt} (hs : s ∈ body) :
      s.MayExit x → MayExit x (.block body)
  | yes {x : Exit} {condition : Expr} {yes : Stmt} {no : Option Stmt} :
      yes.MayExit x → MayExit x (.if condition yes no)
  | no {x : Exit} {condition : Expr} {yes no : Stmt} :
      no.MayExit x → MayExit x (.if condition yes (some no))
  | while {condition : Expr} {body : Stmt} :
      body.MayExit .return → MayExit .return (.while condition body)

/-- What is executed at a time: a statement, the statements of a body, or some rounds of a loop. -/
inductive Work where
  | stmt (s : Stmt)
  | stmts (body : List Stmt)
  | rounds (count : Nat) (condition : Expr) (body : Stmt)

namespace Work

/-- The run of a piece of work. -/
def run (fuel : Nat) : Work → Run Completion
  | stmt s => exec fuel s
  | stmts body => Run.sequence (exec fuel) body
  | rounds count condition body => Run.loop (eval fuel condition) (exec fuel body) count

/-- The piece of work has a way out in it that leads out of it. -/
def MayExit (x : Exit) : Work → Prop
  | stmt s => s.MayExit x
  | stmts body => ∃ s ∈ body, s.MayExit x
  | rounds _ _ body => x = .return ∧ body.MayExit .return

end Work

/-- Where the run of a block begins. -/
def Machine.inBlock (m : Machine) (body : List Stmt) : Machine :=
  let made := m.store.newFrame .block (some ⟨.block body, m.chain⟩)
  { m with store := made.2, chain := made.1 :: m.chain }

/-- The run comes to a `break` or a `return` and leaves the work by it. What has been executed before has
    ended normally, and all that stands around is blocks, conditionals and loops. -/
inductive Leaves : Nat → Work → Completion → Machine → Machine → Prop where
  | break {fuel : Nat} {keyword : Mark} {m : Machine} :
      Leaves (fuel + 1) (.stmt (.break keyword)) .broken m m
  | return {fuel : Nat} {keyword : Mark} {m : Machine} :
      Leaves (fuel + 1) (.stmt (.return keyword none)) (.returned .nil) m m
  | returnValue {fuel : Nat} {keyword : Mark} {e : Expr} {value : Value} {m m' : Machine} :
      eval fuel e m = .ok value m' →
      Leaves (fuel + 1) (.stmt (.return keyword (some e))) (.returned value) m m'
  | block {fuel : Nat} {body : List Stmt} {c : Completion} {m inside : Machine} :
      Leaves fuel (.stmts body) c (m.inBlock body) inside →
      Leaves (fuel + 1) (.stmt (.block body)) c m { inside with chain := m.chain }
  | yes {fuel : Nat} {condition : Expr} {yes : Stmt} {no : Option Stmt} {value : Value}
      {c : Completion} {m m₁ m' : Machine} :
      eval fuel condition m = .ok value m₁ → value.isTrue = true → Leaves fuel (.stmt yes) c m₁ m' →
      Leaves (fuel + 1) (.stmt (.if condition yes no)) c m m'
  | no {fuel : Nat} {condition : Expr} {yes no : Stmt} {value : Value} {c : Completion}
      {m m₁ m' : Machine} :
      eval fuel condition m = .ok value m₁ → value.isTrue = false → Leaves fuel (.stmt no) c m₁ m' →
      Leaves (fuel + 1) (.stmt (.if condition yes (some no))) c m m'
  | while {fuel : Nat} {condition : Expr} {body : Stmt} {c : Completion} {m m' : Machine} :
      Leaves fuel (.rounds fuel condition body) c m m' →
      Leaves (fuel + 1) (.stmt (.while condition body)) c m m'
  | first {fuel : Nat} {s : Stmt} {rest : List Stmt} {c : Completion} {m m' : Machine} :
      Leaves fuel (.stmt s) c m m' → Leaves fuel (.stmts (s :: rest)) c m m'
  | later {fuel : Nat} {s : Stmt} {rest : List Stmt} {c : Completion} {m m₁ m' : Machine} :
      exec fuel s m = .ok .normal m₁ → Leaves fuel (.stmts rest) c m₁ m' →
      Leaves fuel (.stmts (s :: rest)) c m m'
  | round {fuel count : Nat} {condition : Expr} {body : Stmt} {guard value : Value}
      {m m₁ m' : Machine} :
      eval fuel condition m = .ok guard m₁ → guard.isTrue = true →
      Leaves fuel (.stmt body) (.returned value) m₁ m' →
      Leaves fuel (.rounds (count + 1) condition body) (.returned value) m m'
  | again {fuel count : Nat} {condition : Expr} {body : Stmt} {guard : Value} {c : Completion}
      {m m₁ m₂ m' : Machine} :
      eval fuel condition m = .ok guard m₁ → guard.isTrue = true →
      exec fuel body m₁ = .ok .normal m₂ → Leaves fuel (.rounds count condition body) c m₂ m' →
      Leaves fuel (.rounds (count + 1) condition body) c m m'

variable {fuel : Nat} {w : Work} {c : Completion} {m m' : Machine}

/-- Work that is left has the way out in it. -/
theorem Leaves.mayExit (h : Leaves fuel w c m m') : ∃ x, c.exit? = some x ∧ w.MayExit x := by
  induction h with
  | «break» => exact ⟨.break, rfl, .break _⟩
  | «return» => exact ⟨.return, rfl, .return _ _⟩
  | returnValue _ => exact ⟨.return, rfl, .return _ _⟩
  | block _ ih =>
    obtain ⟨x, hx, s, hs, hexit⟩ := ih
    exact ⟨x, hx, .block hs hexit⟩
  | yes _ _ _ ih =>
    obtain ⟨x, hx, hexit⟩ := ih
    exact ⟨x, hx, .yes hexit⟩
  | no _ _ _ ih =>
    obtain ⟨x, hx, hexit⟩ := ih
    exact ⟨x, hx, .no hexit⟩
  | «while» _ ih =>
    obtain ⟨x, hx, rfl, hexit⟩ := ih
    exact ⟨.return, hx, .while hexit⟩
  | first _ ih =>
    obtain ⟨x, hx, hexit⟩ := ih
    exact ⟨x, hx, _, List.mem_cons_self, hexit⟩
  | later _ _ ih =>
    obtain ⟨x, hx, s, hs, hexit⟩ := ih
    exact ⟨x, hx, s, List.mem_cons_of_mem _ hs, hexit⟩
  | round _ _ _ ih =>
    obtain ⟨x, hx, hexit⟩ := ih
    cases hx
    exact ⟨.return, rfl, rfl, hexit⟩
  | again _ _ _ _ ih => exact ih

/-- What leaves does not end normally. -/
theorem Leaves.ne_normal (h : Leaves fuel w c m m') : c ≠ .normal := by
  obtain ⟨x, hx, _⟩ := h.mayExit
  rintro rfl
  cases hx

/-- A block ends as its statements do in a frame of their own. -/
theorem Run.block_eq_ok_iff {exec : Stmt → Run Completion} {body : List Stmt} :
    block exec body m = .ok c m' ↔
      ∃ inside, sequence exec body (m.inBlock body) = .ok c inside ∧ m' = { inside with chain := m.chain } :=
  inChain_eq_ok_iff

/-- Work that is left ends with that completion. -/
theorem Leaves.run_eq (h : Leaves fuel w c m m') : w.run fuel m = .ok c m' := by
  induction h with
  | «break» => rfl
  | «return» => rfl
  | returnValue heval => exact Run.bind_eq_ok_iff.mpr ⟨_, _, heval, rfl⟩
  | block _ ih => exact Run.block_eq_ok_iff.mpr ⟨_, ih, rfl⟩
  | @yes fuel condition yes no value c m m₁ m' heval htrue _ ih =>
    cases no <;> exact Run.bind_eq_ok_iff.mpr ⟨value, m₁, heval, (if_pos htrue).symm ▸ ih⟩
  | @no fuel condition yes no value c m m₁ m' heval hfalse _ ih =>
    have hno : ¬value.isTrue = true := by simp [hfalse]
    exact Run.bind_eq_ok_iff.mpr ⟨value, m₁, heval, (if_neg hno).symm ▸ ih⟩
  | «while» _ ih => exact ih
  | @first fuel s rest c m m' hleaves ih =>
    refine Run.bind_eq_ok_iff.mpr ⟨c, m', ih, ?_⟩
    cases c with
    | normal => exact (hleaves.ne_normal rfl).elim
    | _ => rfl
  | later hnormal _ ih => exact Run.bind_eq_ok_iff.mpr ⟨_, _, hnormal, ih⟩
  | @round fuel count condition body guard value m m₁ m' heval htrue _ ih =>
    refine Run.bind_eq_ok_iff.mpr ⟨guard, m₁, heval, ?_⟩
    rw [if_pos htrue]
    exact Run.bind_eq_ok_iff.mpr ⟨.returned value, m', ih, rfl⟩
  | @again fuel count condition body guard c m m₁ m₂ m' heval htrue hnormal _ ih =>
    refine Run.bind_eq_ok_iff.mpr ⟨guard, m₁, heval, ?_⟩
    rw [if_pos htrue]
    exact Run.bind_eq_ok_iff.mpr ⟨.normal, m₂, hnormal, ih⟩

section Statements

-- Statements of this fuel are left as their runs say.
variable (hexec : ∀ {s c m m'}, exec fuel s m = .ok c m' → c ≠ .normal → Leaves fuel (.stmt s) c m m')
include hexec

/-- Statements in a row leave by the first that does. -/
private theorem leaves_of_sequence {body : List Stmt}
    (h : Run.sequence (exec fuel) body m = .ok c m') (hc : c ≠ .normal) :
    Leaves fuel (.stmts body) c m m' := by
  induction body generalizing m with
  | nil =>
    cases h
    exact (hc rfl).elim
  | cons s rest ih =>
    obtain ⟨completion, m₁, hs, h⟩ := Run.bind_eq_ok_iff.mp h
    cases completion with
    | normal => exact .later hs (ih h)
    | broken =>
      cases h
      exact .first (hexec hs hc)
    | returned value =>
      cases h
      exact .first (hexec hs hc)

/-- A loop leaves by a round that returns. -/
private theorem leaves_of_loop {condition : Expr} {body : Stmt} {count : Nat}
    (h : Run.loop (eval fuel condition) (exec fuel body) count m = .ok c m') (hc : c ≠ .normal) :
    Leaves fuel (.rounds count condition body) c m m' := by
  induction count generalizing m with
  | zero => cases h
  | succ count ih =>
    obtain ⟨guard, m₁, heval, h⟩ := Run.bind_eq_ok_iff.mp h
    split at h
    · rename_i htrue
      obtain ⟨completion, m₂, hbody, h⟩ := Run.bind_eq_ok_iff.mp h
      cases completion with
      | normal => exact .again heval htrue hbody (ih h)
      | broken =>
        cases h
        exact (hc rfl).elim
      | returned value =>
        cases h
        exact .round heval htrue (hexec hbody hc)
    · cases h
      exact (hc rfl).elim

end Statements

/-- Whatever has a result ends normally. -/
private structure EndsNormally (x : Run Completion) : Prop where
  ok : ∀ {m c m'}, x m = .ok c m' → c = .normal

private theorem EndsNormally.pure : EndsNormally (Pure.pure .normal) where
  ok h := by
    cases h
    rfl

/-- What ends normally behind something does so, whatever came before. -/
private theorem EndsNormally.after {α : Type} {x : Run α} {f : α → Run Completion}
    (hf : ∀ a, EndsNormally (f a)) : EndsNormally (x >>= f) where
  ok h := by
    obtain ⟨a, m₁, _, h⟩ := Run.bind_eq_ok_iff.mp h
    exact (hf a).ok h

/-- What does not end normally leaves. The induction is on the fuel. -/
theorem leaves_of_exec {s : Stmt} (h : exec fuel s m = .ok c m') (hc : c ≠ .normal) :
    Leaves fuel (.stmt s) c m m' := by
  induction fuel generalizing s c m m' with
  | zero => cases h
  | succ fuel ih =>
    cases s with
    | block body =>
      obtain ⟨inside, hbody, rfl⟩ := Run.block_eq_ok_iff.mp h
      exact .block (leaves_of_sequence ih hbody hc)
    | «if» condition yes no =>
      cases no with
      | none =>
        obtain ⟨value, m₁, heval, h⟩ := Run.bind_eq_ok_iff.mp h
        split at h
        · rename_i htrue
          exact .yes heval htrue (ih h hc)
        · exact (hc (EndsNormally.pure.ok h)).elim
      | some no =>
        obtain ⟨value, m₁, heval, h⟩ := Run.bind_eq_ok_iff.mp h
        split at h
        · rename_i htrue
          exact .yes heval htrue (ih h hc)
        · rename_i hfalse
          exact .no heval (Bool.eq_false_iff.mpr hfalse) (ih h hc)
    | «while» condition body => exact .while (leaves_of_loop ih h hc)
    | «return» keyword value =>
      cases value with
      | none =>
        cases h
        exact .return
      | some e =>
        obtain ⟨value, m₁, heval, h⟩ := Run.bind_eq_ok_iff.mp h
        cases h
        exact .returnValue heval
    | «break» keyword =>
      cases h
      exact .break
    -- The statements that are left cannot leave: their runs end normally or fail.
    | expression value =>
      have hends : EndsNormally (exec (fuel + 1) (.expression value)) := .after fun _ => .pure
      exact (hc (hends.ok h)).elim
    | print keyword value =>
      have hends : EndsNormally (exec (fuel + 1) (.print keyword value)) :=
        .after fun _ => .after fun _ => .pure
      exact (hc (hends.ok h)).elim
    | var name initial =>
      have hends : EndsNormally (exec (fuel + 1) (.var name initial)) := by
        cases initial with
        | none => exact .after fun _ => .pure
        | some initial => exact .after fun _ => .after fun _ => .pure
      exact (hc (hends.ok h)).elim
    | function definition =>
      obtain ⟨name, code⟩ := definition
      have hends : EndsNormally (exec (fuel + 1) (.function ⟨name, code⟩)) :=
        .after fun _ => .after fun _ => .pure
      exact (hc (hends.ok h)).elim
    | «class» name parent methods =>
      have hends : EndsNormally (exec (fuel + 1) (.class name parent methods)) := .after fun _ => .pure
      exact (hc (hends.ok h)).elim

/-- Work ends other than normally if and only if its run comes to a way out of it. -/
theorem leaves_iff : Leaves fuel w c m m' ↔ w.run fuel m = .ok c m' ∧ c ≠ .normal := by
  refine ⟨fun h => ⟨h.run_eq, h.ne_normal⟩, fun ⟨h, hc⟩ => ?_⟩
  cases w with
  | stmt s => exact leaves_of_exec h hc
  | stmts body => exact leaves_of_sequence leaves_of_exec h hc
  | rounds count condition body => exact leaves_of_loop leaves_of_exec h hc

end Lox
