import Lox.Proofs.Evaluation.Congruence

namespace Lox

namespace Run

variable {α β : Type}

/-- The run is over: it has not stopped for want of fuel. -/
def Over (r : EStateM.Result Halt Machine α) : Prop :=
  ∀ m, r ≠ .error .outOfFuel m

/-- Wherever the first run ends, the second comes to the same. -/
def Extends (x x' : Run α) : Prop :=
  ∀ m, Over (x m) → x' m = x m

theorem Extends.refl (x : Run α) : Extends x x :=
  fun _ _ => rfl

/-- What goes further than what goes further goes further. -/
theorem Extends.trans {x x' x'' : Run α} (h : Extends x x') (h' : Extends x' x'') : Extends x x'' := by
  intro m hover
  have hfirst := h m hover
  rw [h' m (hfirst ▸ hover), hfirst]

theorem extends_outOfFuel (x : Run α) : Extends outOfFuel x :=
  fun m hover => absurd rfl (hover m)

/-- A sequence goes as far as its parts do. -/
theorem Extends.bind {x x' : Run α} {f f' : α → Run β} (hx : Extends x x')
    (hf : ∀ a, Extends (f a) (f' a)) : Extends (x >>= f) (x' >>= f') := by
  intro m hover
  rw [bind_apply] at hover ⊢
  rw [bind_apply]
  have hfirst := hx m
  cases hrun : x m with
  | ok a m₁ =>
    rw [hrun] at hfirst hover
    rw [hfirst nofun]
    exact hf a m₁ hover
  | error e m₁ =>
    rw [hrun] at hfirst hover
    rw [hfirst fun m₂ h => hover m₂ (by cases h; rfl)]

/-- A run in another chain goes as far as it does there. -/
theorem Extends.inChain {x x' : Run α} (chain : Chain) (hx : Extends x x') :
    Extends (Run.inChain chain x) (Run.inChain chain x') := by
  intro m hover
  unfold Run.inChain at hover ⊢
  have hinside := hx { m with chain }
  cases hrun : x { m with chain } with
  | ok a m₁ =>
    rw [hrun] at hinside
    rw [hinside nofun]
  | error e m₁ =>
    rw [hrun] at hinside hover
    rw [hinside fun m₂ h => hover { m₂ with chain := m.chain } (by cases h; rfl)]

/-- A call goes as far as its body. -/
theorem Extends.counted {x x' : Run α} (hx : Extends x x') :
    Extends (Run.counted x) (Run.counted x') := by
  intro m hover
  unfold Run.counted at hover ⊢
  have hinside := hx { m with calls := m.calls + 1 }
  cases hrun : x { m with calls := m.calls + 1 } with
  | ok a m₁ =>
    rw [hrun] at hinside
    rw [hinside nofun]
  | error e m₁ =>
    rw [hrun] at hinside hover
    rw [hinside fun m₂ h => hover { m₂ with calls := m₂.calls - 1 } (by cases h; rfl)]

/-- Going further is kept by all that evaluation is put together from. -/
theorem congruence_extends : Congruence Extends where
  step {_ x} _ := .refl x
  bind := .bind
  inFresh _ _ chain hx := .bind (.refl _) fun frame => hx.inChain (frame :: chain)
  counted := .counted

/-- A loop that ends comes to the same if it may go round more often. -/
theorem loop_extends {condition condition' : Run Value} {body body' : Run Completion}
    (hcondition : Extends condition condition') (hbody : Extends body body') {rounds rounds' : Nat}
    (hrounds : rounds ≤ rounds') :
    Extends (loop condition body rounds) (loop condition' body' rounds') := by
  induction rounds generalizing rounds' with
  | zero => exact extends_outOfFuel _
  | succ rounds ih =>
    obtain ⟨more, rfl⟩ : ∃ more, rounds' = more + 1 := ⟨rounds' - 1, by omega⟩
    refine hcondition.bind fun value => ?_
    split
    · refine hbody.bind fun completion => ?_
      cases completion with
      | normal => exact ih (by omega)
      | _ => exact .refl _
    · exact .refl _

/-- Only a loop has to do with how often it may go round. -/
theorem execNode_extends_rounds {rounds rounds' : Nat} (h : rounds ≤ rounds') (eval : Expr → Run Value)
    (exec : Stmt → Run Completion) (s : Stmt) :
    Extends (execNode rounds eval exec s) (execNode rounds' eval exec s) := by
  cases s with
  | «while» condition body => exact loop_extends (.refl _) (.refl _) h
  | var name initial => cases initial <;> exact .refl _
  | function definition =>
    obtain ⟨name, code⟩ := definition
    exact .refl _
  | «if» condition yes no => cases no <;> exact .refl _
  | «return» keyword value => cases value <;> exact .refl _
  | _ => exact .refl _

end Run

open Run

/-- The result of an evaluation that ends does not depend on the fuel. -/
theorem eval_exec_extends {fuel fuel' : Nat} (h : fuel ≤ fuel') :
    (∀ e, Extends (eval fuel e) (eval fuel' e)) ∧ (∀ s, Extends (exec fuel s) (exec fuel' s)) := by
  induction fuel generalizing fuel' with
  | zero => exact ⟨fun _ => extends_outOfFuel _, fun _ => extends_outOfFuel _⟩
  | succ fuel ih =>
    obtain ⟨more, rfl⟩ : ∃ more, fuel' = more + 1 := ⟨fuel' - 1, by omega⟩
    have hle : fuel ≤ more := Nat.le_of_succ_le_succ h
    obtain ⟨heval, hexec⟩ := ih hle
    refine ⟨congruence_extends.evalNode heval (congruence_extends.callClosure hexec), fun s => ?_⟩
    have hparts : Extends (execNode fuel (eval fuel) (exec fuel) s)
        (execNode fuel (eval more) (exec more) s) := by
      refine congruence_extends.execNode fuel heval hexec ?_
      rintro keyword value rfl
      exact (heval value).bind fun _ => .refl _
    exact hparts.trans (execNode_extends_rounds hle _ _ s)

end Lox
