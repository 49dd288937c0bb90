import Lox.Grammar.Statement
import Lox.Proofs.Evaluation.Fuel

namespace Lox

open Grammar.Rules (iteration)

namespace Run

variable {α : Type}

/-- Runs in a new block, which may be the one of these statements. -/
def inBlock (body : Option (List Stmt)) (run : Run α) : Run α := do
  let outer ← chain
  let frame ← allocate (·.newFrame .block (body.map fun body => ⟨.block body, outer⟩))
  inChain (frame :: outer) run

/-- Runs with the frame in view counted twice. Static binding comes to the body and the increment of a
    loop in one scope more than there are frames here, and in that scope there is no name: counted like
    this, all depths lead to the frames that they are meant for. -/
def twice (run : Run α) : Run α := do
  match ← chain with
  | [] => run
  | frame :: rest => inChain (frame :: frame :: rest) run

/-- Runs the second after the first, if that ends normally. -/
def andThen (first second : Run Completion) : Run Completion := do
  match ← first with
  | .normal => second
  | left => return left

/-- The rounds of a loop: as long as the condition holds, the body, and where that ends normally the
    increment, once. A break ends the loop normally, without the increment. -/
def rounds (condition : Run Value) (body : Run Completion) (increment : Run Unit) :
    (fuel : Nat) → Run Completion
  | 0 => outOfFuel
  | fuel + 1 => do
    if (← condition).isTrue then
      match ← body with
      | .normal =>
        increment
        rounds condition body increment fuel
      | .broken => return .normal
      | .returned value => return .returned value
    else
      return .normal

/-- The condition of a loop, which holds if there is none. -/
def test (eval : Expr → Run Value) (condition : Option Expr) : Run Value :=
  condition.elim (return .bool true) eval

/-- The initializer, once, in a block that ends with the loop, which may be the one of a statement. -/
def afterInitial (exec : Stmt → Run Completion) (initial rest : Option Stmt) (loop : Run Completion) :
    Run Completion :=
  initial.elim loop fun s => inBlock (rest.map ([s, ·])) (andThen (exec s) loop)

/-- The rounds of a loop with these clauses. No scope is made for a round. -/
def forRounds (eval : Expr → Run Value) (exec : Stmt → Run Completion) (fuel : Nat)
    (condition increment : Option Expr) (body : Stmt) : Run Completion :=
  match increment with
  | none => rounds (test eval condition) (exec body) (return ()) fuel
  | some e => rounds (test eval condition) (twice (exec body)) (twice (do let _ ← eval e)) fuel

/-- A loop with these clauses. -/
def forLoop (eval : Expr → Run Value) (exec : Stmt → Run Completion) (fuel : Nat)
    (initial : Option Stmt) (condition increment : Option Expr) (body : Stmt) : Run Completion :=
  afterInitial exec initial none (forRounds eval exec fuel condition increment body)

/-- A round in a new block, if there is an increment. -/
def roundInBlock (eval : Expr → Run Value) (exec : Stmt → Run Completion) (increment : Option Expr)
    (body : Stmt) : Run Completion :=
  increment.elim (exec body) fun e =>
    inBlock (some [body, .expression e]) (andThen (exec body) (do let _ ← eval e; return .normal))

/-- A loop with these clauses that makes the blocks which the syntax tree has. -/
def forLoopInBlocks (eval : Expr → Run Value) (exec : Stmt → Run Completion) (fuel line : Nat)
    (initial : Option Stmt) (condition increment : Option Expr) (body : Stmt) : Run Completion :=
  afterInitial exec initial (some (Grammar.Rules.forLoop line none condition increment body))
    (loop (test eval condition) (roundInBlock eval exec increment body) fuel)

theorem andThen_normal (first : Run Completion) : andThen first (return .normal) = first := by
  refine Eq.trans (congrArg (first >>= ·) (funext fun completion => ?_)) (bind_pure first)
  cases completion <;> rfl

/-- The rounds are those of a loop whose body is the body and the increment. -/
theorem rounds_eq_loop (condition : Run Value) (body : Run Completion) (increment : Run Unit)
    (fuel : Nat) :
    rounds condition body increment fuel =
      loop condition (andThen body (do increment; return .normal)) fuel := by
  induction fuel with
  | zero => rfl
  | succ fuel ih =>
    refine congrArg (condition >>= ·) (funext fun value => ?_)
    split
    · unfold andThen
      rw [bind_assoc]
      refine congrArg (body >>= ·) (funext fun completion => ?_)
      cases completion with
      | normal =>
        dsimp only
        rw [bind_assoc, ih]
        exact congrArg (increment >>= ·) (funext fun _ => (pure_bind _ _).symm)
      | _ => rfl
    · rfl

/-- A round whose body has no increment after it is just the body. -/
theorem rounds_eq_loop_of_none (condition : Run Value) (body : Run Completion) (fuel : Nat) :
    rounds condition body (return ()) fuel = loop condition body fuel := by
  rw [rounds_eq_loop, pure_bind, andThen_normal]

/-- Without a frame in view there is none to see twice. -/
theorem twice_of_nil {m : Machine} (h : m.chain = []) (run : Run α) : twice run m = run m := by
  unfold twice
  rw [bind_apply]
  simp only [chain, h]

/-- With a frame in view the innermost one is seen twice. -/
theorem twice_of_cons {m : Machine} {frame : Nat} {rest : Chain} (h : m.chain = frame :: rest)
    (run : Run α) : twice run m = inChain (frame :: frame :: rest) run m := by
  unfold twice
  rw [bind_apply]
  simp only [chain, h]

/-- A result does not look at the frames in view. -/
theorem twice_pure (a : α) : twice (pure a) = pure a := by
  funext m
  cases h : m.chain with
  | nil => rw [twice_of_nil h]
  | cons frame rest =>
    rw [twice_of_cons h]
    rfl

/-- A sequence in which the first part keeps the frames can be seen twice part by part. -/
theorem twice_bind {new : List String} {x : Run α} (hx : x.Keeps new) {β : Type} (f : α → Run β) :
    twice (x >>= f) = twice x >>= fun a => twice (f a) := by
  funext m
  rw [bind_apply]
  cases h : m.chain with
  | nil =>
    rw [twice_of_nil h, twice_of_nil h, bind_apply]
    cases hrun : x m with
    | ok a m₁ => exact (twice_of_nil ((hx.ok hrun).chain.trans h) (f a)).symm
    | error e m₁ => rfl
  | cons frame rest =>
    rw [twice_of_cons h, twice_of_cons h]
    unfold inChain
    rw [bind_apply]
    cases hrun : x { m with chain := frame :: frame :: rest } with
    | ok a m₁ =>
      -- The next run begins in the frames that this one has kept.
      have hchain : m₁.chain = frame :: frame :: rest := (hx.ok hrun).chain
      have hkept : ({ m₁ with chain := frame :: frame :: rest } : Machine) = m₁ := by
        rw [← hchain]
      dsimp only
      rw [twice_of_cons (m := { m₁ with chain := m.chain }) h]
      unfold inChain
      dsimp only
      rw [hkept]
    | error e m₁ => rfl

/-- The frame in view counts twice for the body and for the increment, or for both at once. -/
theorem twice_andThen {new : List String} {body : Run Completion} (hbody : body.Keeps new) {e : Run α}
    {more : List String} (he : e.Keeps more) :
    twice (andThen body (do let _ ← e; return .normal)) =
      andThen (twice body) (do twice (do let _ ← e); return .normal) := by
  unfold andThen
  rw [twice_bind hbody]
  refine congrArg (twice body >>= ·) (funext fun completion => ?_)
  cases completion with
  | normal =>
    dsimp only
    rw [twice_bind he, twice_bind he, bind_assoc]
    exact congrArg (twice e >>= ·) (funext fun _ => by rw [twice_pure, twice_pure, pure_bind])
  | _ => exact twice_pure _

theorem Extends.inBlock {x x' : Run α} (h : Extends x x') (body : Option (List Stmt)) :
    Extends (inBlock body x) (inBlock body x') :=
  (Extends.refl _).bind fun outer => (Extends.refl _).bind fun frame => h.inChain (frame :: outer)

/-- A statement behind another one is reached once the first has ended. -/
theorem Extends.andThen {x x' y y' : Run Completion} (hx : Extends x x') (hy : Extends y y') :
    Extends (andThen x y) (andThen x' y') :=
  hx.bind fun completion => by
    cases completion with
    | normal => exact hy
    | _ => exact .refl _

end Run

open Run

section Desugared

variable {fuel fuel' : Nat} {line : Nat} {condition increment : Option Expr} {body : Stmt}

/-- A block of two statements is the second one behind the first. -/
theorem exec_block_pair (fuel : Nat) (s s' : Stmt) :
    exec (fuel + 1) (.block [s, s']) =
      inBlock (some [s, s']) (andThen (exec fuel s) (exec fuel s')) := by
  have hlast : sequence (exec fuel) [s'] = exec fuel s' := andThen_normal (exec fuel s')
  show inBlock (some [s, s']) (andThen (exec fuel s) (sequence (exec fuel) [s'])) = _
  rw [hlast]

/-- A round in a block goes at least as far as the body of the loop in the tree. -/
theorem roundInBlock_extends (h : fuel ≤ fuel') :
    Extends (exec fuel (iteration increment body))
      (roundInBlock (eval fuel') (exec fuel') increment body) := by
  cases increment with
  | none => exact (eval_exec_extends h).2 body
  | some e =>
    cases fuel with
    | zero => exact extends_outOfFuel _
    | succ fuel =>
      have hbody := (eval_exec_extends (by omega : fuel ≤ fuel')).2 body
      show Extends (exec (fuel + 1) (.block [body, .expression e])) _
      rw [exec_block_pair]
      refine (hbody.andThen ?_).inBlock _
      cases fuel with
      | zero => exact extends_outOfFuel _
      | succ fuel => exact ((eval_exec_extends (by omega)).1 e).bind fun _ => .refl _

/-- With two levels more the body of the loop in the tree goes as far as the round. -/
theorem extends_roundInBlock (h : fuel + 2 ≤ fuel') :
    Extends (roundInBlock (eval fuel) (exec fuel) increment body)
      (exec fuel' (iteration increment body)) := by
  obtain ⟨more, rfl⟩ : ∃ more, fuel' = more + 2 := ⟨fuel' - 2, by omega⟩
  cases increment with
  | none => exact (eval_exec_extends (by omega)).2 body
  | some e =>
    show Extends _ (exec (more + 2) (.block [body, .expression e]))
    rw [exec_block_pair]
    exact (((eval_exec_extends (by omega)).2 body).andThen
      (((eval_exec_extends (by omega)).1 e).bind fun _ => .refl _)).inBlock _

/-- The condition that is meant goes at least as far as the one in the tree. -/
theorem test_extends (h : fuel ≤ fuel') :
    Extends (eval fuel (condition.getD (.literal (.bool true) line))) (test (eval fuel') condition) := by
  cases condition with
  | some e => exact (eval_exec_extends h).1 e
  | none =>
    cases fuel with
    | zero => exact extends_outOfFuel _
    | succ fuel => exact .refl _

/-- With one level more the condition in the tree goes as far as the one that is meant. -/
theorem extends_test (h : fuel + 1 ≤ fuel') :
    Extends (test (eval fuel) condition) (eval fuel' (condition.getD (.literal (.bool true) line))) := by
  obtain ⟨more, rfl⟩ : ∃ more, fuel' = more + 1 := ⟨fuel' - 1, by omega⟩
  cases condition with
  | some e => exact (eval_exec_extends (by omega)).1 e
  | none => exact .refl _

variable {initial : Option Stmt}

/-- Where the loop of the syntax tree ends, it comes to the loop with a block for every round. -/
theorem forLoopInBlocks_extends (h : fuel ≤ fuel') :
    Extends (exec fuel (Grammar.Rules.forLoop line initial condition increment body))
      (forLoopInBlocks (eval fuel') (exec fuel') fuel' line initial condition increment body) := by
  have hloop {fuel : Nat} (h : fuel ≤ fuel') :
      Extends (exec fuel (.while (condition.getD (.literal (.bool true) line)) (iteration increment body)))
        (loop (test (eval fuel') condition) (roundInBlock (eval fuel') (exec fuel') increment body)
          fuel') := by
    cases fuel with
    | zero => exact extends_outOfFuel _
    | succ fuel =>
      exact loop_extends (test_extends (by omega)) (roundInBlock_extends (by omega)) (by omega)
  cases initial with
  | none => exact hloop h
  | some s =>
    cases fuel with
    | zero => exact extends_outOfFuel _
    | succ fuel =>
      show Extends (exec (fuel + 1) (.block [s, _])) _
      rw [exec_block_pair]
      exact (((eval_exec_extends (by omega)).2 s).andThen (hloop (by omega))).inBlock _

/-- Where the loop with a block for every round ends, the loop of the syntax tree comes to it with a little
    more fuel, as it nests deeper. -/
theorem extends_forLoopInBlocks (h : fuel + 4 ≤ fuel') :
    Extends (forLoopInBlocks (eval fuel) (exec fuel) fuel line initial condition increment body)
      (exec fuel' (Grammar.Rules.forLoop line initial condition increment body)) := by
  have hloop {fuel' : Nat} (h : fuel + 3 ≤ fuel') :
      Extends (loop (test (eval fuel) condition) (roundInBlock (eval fuel) (exec fuel) increment body) fuel)
        (exec fuel' (.while (condition.getD (.literal (.bool true) line)) (iteration increment body))) := by
    obtain ⟨more, rfl⟩ : ∃ more, fuel' = more + 1 := ⟨fuel' - 1, by omega⟩
    exact loop_extends (extends_test (by omega)) (extends_roundInBlock (by omega)) (by omega)
  obtain ⟨more, rfl⟩ : ∃ more, fuel' = more + 1 := ⟨fuel' - 1, by omega⟩
  cases initial with
  | none => exact hloop (by omega)
  | some s =>
    show Extends _ (exec (more + 1) (.block [s, _]))
    rw [exec_block_pair]
    exact (((eval_exec_extends (by omega)).2 s).andThen (hloop (by omega))).inBlock _

end Desugared

end Lox
