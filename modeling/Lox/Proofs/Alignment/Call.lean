import Lox.Proofs.Alignment.Situation
import Lox.Proofs.Evaluation.Keeping

namespace Lox

variable (visits : Visit → Prop) (depths : Std.TreeMap Nat Nat)

/-- Two ways to evaluate come to the same at every visited expression. -/
structure EvalAgrees (eval' eval : Expr → Run Value) : Prop where
  agrees : ∀ {v e m}, visits v → v.node.expression? = some e →
    m.Situated visits depths v.before.shapes → Run.Agrees visits (eval' e) (eval e) m
  keeps : ∀ e, (eval e).Keeps []

/-- Two ways to execute come to the same at every visited statement, and go on where the walk does. -/
structure ExecAgrees (exec' exec : Stmt → Run Completion) : Prop where
  agrees : ∀ {s r m}, visits ⟨.stmt s, r⟩ → m.Situated visits depths r.shapes →
    Run.Agrees visits (exec' s) (exec s) m fun completion m' =>
      completion = .normal → m'.Situated visits depths (s.resolve r).shapes
  keeps : ∀ s, (exec s).Keeps s.declares

/-- A closure that a run may enter: it is sound, and there is an argument for every parameter. -/
structure Enterable (c : Closure) (arguments : List Value) (m : Machine) : Prop where
  closure : ClosureSound visits m.store c
  length : arguments.length = c.code.params.length
  store : m.store.Sound visits
  known : m.depths = depths

/-- Two ways to enter a closure come to the same. -/
def EnterAgrees (enter' enter : Closure → List Value → Nat → Run Value) : Prop :=
  ∀ {c arguments m} (line : Nat), Enterable visits depths c arguments m →
    Run.Agrees visits (enter' c arguments line) (enter c arguments line) m

variable {visits depths} {eval' eval : Expr → Run Value} {exec' exec : Stmt → Run Completion}
  {enter' enter : Closure → List Value → Nat → Run Value} {r : Resolver} {m : Machine}

/-- An expression leaves the machine where it was. -/
theorem EvalAgrees.expr (h : EvalAgrees visits depths eval' eval) {e : Expr}
    (hv : visits ⟨.expr e, r⟩) (hm : m.Situated visits depths r.shapes) :
    Run.Agrees visits (eval' e) (eval e) m fun _ m' => m'.Situated visits depths r.shapes := by
  have hagrees := h.agrees hv rfl hm
  exact hagrees.mono fun hy _ => hm.keep ((h.keeps e).ok hy) (hagrees.ok hy).1

namespace Run

variable (hcovers : Covers visits depths)
include hcovers

/-- Expressions in a row agree if each of them does where it is evaluated. -/
theorem agrees_all (heval : EvalAgrees visits depths eval' eval) {es : List Expr}
    (hv : visits ⟨.exprs es, r⟩) (hm : m.Situated visits depths r.shapes) :
    Agrees visits (all eval' es) (all eval es) m fun _ m' => m'.Situated visits depths r.shapes := by
  induction es generalizing r m with
  | nil => exact agrees_pure hm.store hm
  | cons e rest ih =>
    have hrest : visits ⟨.exprs rest, e.resolve r⟩ := hcovers.part hv (by simp [Visit.parts])
    have hshapes := (e.resolve_onward r).shapes_eq
    refine (heval.expr (hcovers.part hv (by simp [Visit.parts])) hm).bind fun _ _ hm₁ => ?_
    refine (ih hrest (hshapes ▸ hm₁)).bind fun _ hsound hm₂ => agrees_pure hsound ?_
    exact hshapes ▸ hm₂

/-- Statements in a row agree: each leaves the frames in line with the scopes behind it. -/
theorem agrees_sequence (hexec : ExecAgrees visits depths exec' exec) {body : List Stmt}
    (hv : visits ⟨.stmts body, r⟩) (hm : m.Situated visits depths r.shapes) :
    Agrees visits (sequence exec' body) (sequence exec body) m := by
  induction body generalizing r m with
  | nil => exact agrees_pure hm.store trivial
  | cons s rest ih =>
    refine (hexec.agrees (hcovers.part hv (by simp [Visit.parts])) hm).bind
      fun {completion _} _ hsound hnext => ?_
    cases completion with
    | normal => exact ih (hcovers.part hv (by simp [Visit.parts])) (hnext rfl)
    | broken => exact agrees_pure hsound trivial
    | returned value => exact agrees_pure hsound trivial

/-- A block agrees as its statements do in line with the scope that it opens. -/
theorem agrees_block (hexec : ExecAgrees visits depths exec' exec) {body : List Stmt}
    (hv : visits ⟨.stmts body, r.enter (.block body)⟩) (hm : m.Situated visits depths r.shapes) :
    Agrees visits (block exec' body) (block exec body) m := by
  refine .chain (.allocate (Agrees.inChain ?_ fun h => h))
  have hsuits : (Purpose.block body).Suits (.block body) := rfl
  exact agrees_sequence hcovers hexec hv (.newFrame hm.store hm.known hm.aligned (.inl rfl) hsuits)

omit hcovers in
/-- A loop agrees round by round, since each round ends in line with the scopes in which it began.
    -/
theorem agrees_loop {condition' condition : Run Value} {body' body : Run Completion}
    {shapes : List Shape} (hm : m.Situated visits depths shapes)
    (hcondition : ∀ {m}, m.Situated visits depths shapes → Agrees visits condition' condition m
      fun _ m' => m'.Situated visits depths shapes)
    (hbody : ∀ {m}, m.Situated visits depths shapes → Agrees visits body' body m
      fun _ m' => m'.Situated visits depths shapes) (rounds : Nat) :
    Agrees visits (loop condition' body' rounds) (loop condition body rounds) m
      fun _ m' => m'.Situated visits depths shapes := by
  induction rounds generalizing m with
  | zero => exact agrees_outOfFuel hm.store
  | succ rounds ih =>
    apply (hcondition hm).bind
    intro value _ _ _ hm₁
    split
    · apply (hbody hm₁).bind
      intro completion _ _ hsound hm₂
      cases completion with
      | normal => exact ih hm₂
      | broken => exact agrees_pure hsound hm₂
      | returned value => exact agrees_pure hsound hm₂
    · exact agrees_pure hm₁.store hm₁

omit hcovers in
/-- Parameters that get their arguments are the names of the function's scope from then on. -/
theorem agrees_defineParams {params : List Mark} {arguments : List Value} {shapes : List Shape}
    (hlength : arguments.length = params.length) (hplain : ∀ param ∈ params, param.Plain)
    (hm : m.Situated visits depths shapes) :
    Agrees visits (defineParams params arguments) (defineParams params arguments) m fun _ m' =>
      m'.Situated visits depths (shapes.modifyHead (·.settle (params.map Mark.lexeme))) := by
  induction params generalizing arguments m shapes with
  | nil =>
    refine agrees_pure hm.store ?_
    rwa [List.map_nil, Resolver.modifyHead_settle_nil]
  | cons param params ih =>
    cases arguments with
    | nil => simp at hlength
    | cons argument arguments =>
      have hdefined := hm.define argument (hplain param List.mem_cons_self)
      refine .step rfl ((ih (by simpa using hlength)
        (fun other hother => hplain other (List.mem_cons_of_mem _ hother)) hdefined).mono ?_)
      intro _ _ _ hafter
      rw [List.modifyHead_modifyHead] at hafter
      have hboth : ((·.settle (params.map Mark.lexeme)) ∘ (·.settle [param.lexeme]) :
          Shape → Shape) = (·.settle ((param :: params).map Mark.lexeme)) :=
        funext fun shape => shape.settle_settle _ _
      rwa [hboth] at hafter

/-- The bodies of a closure agree: its frames are in line with the scope of its code. -/
theorem agrees_runBody (hexec : ExecAgrees visits depths exec' exec) {c : Closure}
    {arguments : List Value} (henter : Enterable visits depths c arguments m) :
    Agrees visits (runBody exec' c arguments) (runBody exec c arguments) m := by
  obtain ⟨role, r, hv, haligned, _⟩ := henter.closure
  have hplain := Lambda.Proper.params_plain (hcovers.sound hv).proper
  have hsuits : (Purpose.call c.code).Suits (.function c.code) := rfl
  have hinside := Machine.Situated.newFrame henter.store henter.known haligned (.inr rfl) hsuits
  have hbody : visits ⟨.stmts c.code.body, r.enterFunction role c.code⟩ :=
    hcovers.part hv (by simp [Visit.parts])
  have hshapes : (r.enterFunction role c.code).shapes =
      (Shape.opened (.function c.code) :: r.shapes).modifyHead
        (·.settle (c.code.params.map Mark.lexeme)) :=
    (Resolver.onward_params c.code.params _).shapes
  refine .allocate (Agrees.inChain (Q := fun _ _ => True) ?_ fun h => h)
  refine (agrees_defineParams henter.length hplain hinside).bind fun _ _ hm₁ => ?_
  exact agrees_sequence hcovers hexec hbody (hshapes ▸ hm₁)

/-- Calls of a closure agree. What an initializer returns is looked up where it was made. -/
theorem agrees_callClosure (hexec : ExecAgrees visits depths exec' exec) {c : Closure}
    {arguments : List Value} (line : Nat) (henter : Enterable visits depths c arguments m) :
    Agrees visits (callClosure exec' c arguments line) (callClosure exec c arguments line) m := by
  apply (agrees_runBody hcovers hexec henter).bind
  intro completion m' hy hsound _
  split
  · rename_i hinit
    have hlater : m.Later [] m' := (keeps_runBody hexec.keeps c arguments).ok hy
    obtain ⟨id, hthis⟩ := (henter.closure.mono hlater.grows).this hsound hinit
    refine .query ?_
    rw [hthis]
    exact agrees_pure hsound trivial
  · exact agrees_pure hsound trivial

omit hcovers

/-- The clock is read on both sides alike. -/
theorem agrees_readClock (hsound : m.store.Sound visits) :
    Agrees visits readClock readClock m := by
  refine ⟨rfl, fun h => ?_, (fun h => nomatch h)⟩
  cases h
  exact ⟨hsound, trivial⟩

/-- A host is asked on both sides alike, and blames no binding for what it says. -/
theorem agrees_callHost (name : String) (arguments : List Value) (line : Nat)
    (hsound : m.store.Sound visits) :
    Agrees visits (callHost name arguments line) (callHost name arguments line) m := by
  have hanswer : Agrees visits (orFault line (m.answer name arguments))
      (orFault line (m.answer name arguments)) m :=
    agrees_orFault hsound (fun _ => m.answer_clean) (fun _ _ => trivial) line
  exact ⟨rfl, hanswer.ok, hanswer.error⟩

/-- Native functions are called on both sides alike. -/
theorem agrees_callNative (f : Native) (arguments : List Value) (line : Nat)
    (hsound : m.store.Sound visits) :
    Agrees visits (callNative f arguments line) (callNative f arguments line) m := by
  cases f with
  | clock => exact agrees_readClock hsound
  | hosted name arity => exact agrees_callHost name arguments line hsound

/-- Instances are made alike. An initializer that is found is one of the classes in the store. -/
theorem agrees_construct (henter : EnterAgrees visits depths enter' enter) (classId : Nat)
    {arguments : List Value} (line : Nat) (hsound : m.store.Sound visits) (hknown : m.depths = depths)
    (harity : arguments.length = (m.store.initializer? classId).elim 0 Closure.arity) :
    Agrees visits (construct enter' classId arguments line) (construct enter classId arguments line)
      m := by
  have hmade := hsound.newInstance classId
  have hsame : (m.store.newInstance classId).2.initializer? classId =
      m.store.initializer? classId := rfl
  refine .allocate (.query ?_)
  dsimp only
  rw [hsame]
  cases hinit : m.store.initializer? classId with
  | none => exact agrees_pure hmade trivial
  | some method =>
    have hmethod := hmade.findMethod? (hsame.trans hinit)
    refine .allocate ?_
    have hbound := Store.bind_closureSound hmade.global hmethod (m.store.newInstance classId).1
    have hlength : arguments.length = method.arity := by rw [harity, hinit]; rfl
    have hready : Enterable visits depths _ arguments { m with
        store := ((m.store.newInstance classId).2.bind method (m.store.newInstance classId).1).2 } :=
      ⟨hbound, hlength, hmade.bind method _, hknown⟩
    exact (henter line hready).bind fun _ hafter _ => agrees_pure hafter trivial

/-- A value that is called with as many arguments as it takes is called alike. -/
theorem agrees_call (henter : EnterAgrees visits depths enter' enter) {callee : Value}
    {arguments : List Value} (line : Nat) (hsound : m.store.Sound visits) (hknown : m.depths = depths)
    (harity : m.store.arity? callee = some arguments.length) :
    Agrees visits (call enter' callee arguments line) (call enter callee arguments line) m := by
  cases callee with
  | native f => exact agrees_callNative f arguments line hsound
  | function id =>
    refine .query ?_
    cases hfind : m.store.functions[id]? with
    | none => exact agrees_fault line hsound
    | some c =>
      have hlength : c.arity = arguments.length := by simpa [Store.arity?, hfind] using harity
      exact henter line ⟨hsound.functions hfind, hlength.symm, hsound, hknown⟩
  | «class» id =>
    exact agrees_construct henter id line hsound hknown (Option.some.inj harity).symm
  | _ => exact agrees_fault line hsound

/-- Calls of any value agree. The check of the arguments is what makes sure of their number. -/
theorem agrees_callChecked (henter : EnterAgrees visits depths enter' enter) (callee : Value)
    (arguments : List Value) (line : Nat) (hsound : m.store.Sound visits)
    (hknown : m.depths = depths) :
    Agrees visits (callChecked enter' callee arguments line) (callChecked enter callee arguments line)
      m := by
  refine .query ?_
  cases harity : m.store.arity? callee with
  | none => exact agrees_fault line hsound
  | some arity =>
    dsimp only
    split
    · exact agrees_fault line hsound
    · rename_i hlength
      refine .step rfl ?_
      split
      · exact agrees_fault line hsound
      · refine Agrees.counted (agrees_call henter line hsound hknown ?_)
        rw [harity, Decidable.not_not.mp hlength]

include hcovers

/-- Call expressions agree, with the callee evaluated before its arguments. -/
theorem agrees_callExpression (heval : EvalAgrees visits depths eval' eval)
    (henter : EnterAgrees visits depths enter' enter) {callee : Expr} {arguments : List Expr}
    (paren : Mark) (hcallee : visits ⟨.expr callee, r⟩)
    (harguments : visits ⟨.exprs arguments, callee.resolve r⟩)
    (hm : m.Situated visits depths r.shapes) :
    Agrees visits (callExpression enter' eval' callee paren arguments)
      (callExpression enter eval callee paren arguments) m := by
  apply (heval.expr hcallee hm).bind
  intro f _ _ _ hm₁
  split
  · refine (agrees_all hcovers heval harguments ?_).bind fun {values _} _ hsound hm₂ => ?_
    · rw [(callee.resolve_onward r).shapes_eq]
      exact hm₁
    · exact agrees_callChecked henter f values paren.line hsound hm₂.known
  · exact agrees_fault paren.line hm₁.store

end Run

end Lox
