import Lox.Proofs.Dispatch.Moment
import Lox.Proofs.Evaluation.Initializers

namespace Lox

open Run

/-- In every frame of `this` there is an instance, and the frame keeps it. -/
def Store.KeepsReceivers (s final : Store) : Prop :=
  ∀ frame, s.kind? frame = some .this → final.kind? frame = some .this ∧ ∃ receiver,
    s.slot? frame "this" = some (.set (.instance receiver)) ∧
      final.slot? frame "this" = some (.set (.instance receiver))

/-- Functions of a sound store keep the receivers of their frames. -/
theorem Store.Sound.keepsReceivers {visits : Visit → Prop} {s final : Store} (h : s.Sound visits)
    (hsecures : s.Secures final) : s.KeepsReceivers final := by
  intro frame hkind
  obtain ⟨receiver, hslot⟩ := h.this hkind
  exact ⟨hsecures.kinds hkind, receiver, hslot, hsecures.implicit Store.not_isPlain_this hslot⟩

/-- The closure is an initializer of some class, bound to the receiver. -/
def Store.BindsInitializer (s : Store) (c : Closure) (receiver : Nat) : Prop :=
  ∃ owner method, s.Owns owner initializerName method ∧ s.Binds c method receiver

/-- Only initializers are bound as initializers. -/
theorem Store.BindsInitializer.initializer {s : Store} {c : Closure} {receiver : Nat}
    (h : s.BindsInitializer c receiver) (hs : s.Flagged) : c.initializer = true := by
  obtain ⟨owner, method, ⟨record, hrecord, hfind⟩, frame, rfl, -⟩ := h
  exact (hs owner record hrecord initializerName method hfind).trans (decide_eq_true rfl)

/-- The call of a class has made an instance of it that was not there before, and has run for it the
    nearest initializer from the class upwards, if there is one. -/
def Machine.Constructs (fuel classId : Nat) (arguments : List Value) (line : Nat) (m : Machine)
    (value : Value) (m' : Machine) : Prop :=
  ∃ id i found, value = .instance id ∧ m.store.instances[id]? = none ∧
    m'.store.instances[id]? = some i ∧ i.classId = classId ∧
    m.store.Nearest initializerName classId found ∧
    ∀ method, found = some method → ∃ c m₁ result m₂, m₁.store.Binds c method id ∧
      callClosure (exec fuel) c arguments line m₁ = .ok result m₂ ∧ m'.store = m₂.store

/-- What calls come to at a moment. A call of a class gives a new instance of it, and a call of a bound
    initializer the receiver. And whatever a closure does that is entered, and however it ends, every frame
    of `this` keeps its instance. -/
def Moment.Constructs (m : Machine) : Moment → Prop
  | evaluating (.call callee paren arguments) => ∀ fuel value m',
      eval (fuel + 1) (.call callee paren arguments) m = .ok value m' →
      ∃ f m₁ values m₂, eval fuel callee m = .ok f m₁ ∧
        all (eval fuel) arguments m₁ = .ok values m₂ ∧
        (∀ classId, f = .class classId → m₂.Constructs fuel classId values paren.line value m') ∧
        (∀ id c receiver, f = .function id → m₂.store.functions[id]? = some c →
          m₂.store.BindsInitializer c receiver → value = .instance receiver)
  | entering c arguments => ∀ fuel line,
      m.store.KeepsReceivers ((callClosure (exec fuel) c arguments line).after m).store ∧
        ∀ receiver, m.store.BindsInitializer c receiver → ∀ value m',
          callClosure (exec fuel) c arguments line m = .ok value m' → value = .instance receiver
  | _ => True

variable {visits : Visit → Prop} {depths : Std.TreeMap Nat Nat} {m : Machine} {r : Resolver}

/-- An initializer reads its result from the frame of its `this`. -/
theorem getAt?_of_callClosure {exec : Stmt → Run Completion} {c : Closure} {arguments : List Value}
    {line : Nat} {value : Value} {m' : Machine} (hinit : c.initializer = true)
    (h : callClosure exec c arguments line m = .ok value m') :
    m'.store.getAt? c.chain 0 "this" = some value := by
  obtain ⟨completion, m₁, -, hresult⟩ := bind_eq_ok_iff.mp h
  rw [if_pos hinit] at hresult
  obtain ⟨found, m₂, hquery, hread⟩ := bind_eq_ok_iff.mp hresult
  obtain ⟨hthis, rfl⟩ := query_eq_ok_iff.mp hquery
  cases found with
  | none => cases hread
  | some found =>
    cases hread
    exact hthis

/-- A bound initializer returns its receiver, if nothing gives its `this` another value. -/
theorem Store.BindsInitializer.result {fuel line receiver : Nat} {c : Closure} {arguments : List Value}
    {value : Value} {m' : Machine} (h : m.store.BindsInitializer c receiver) (hflagged : m.store.Flagged)
    (hsecures : m.store.Secures m'.store)
    (hcall : callClosure (exec fuel) c arguments line m = .ok value m') :
    value = .instance receiver := by
  have hinit := h.initializer hflagged
  obtain ⟨owner, method, -, frame, rfl, -, hslot⟩ := h
  have hthis : m'.store.getAt? (frame :: method.chain) 0 "this" = some (.instance receiver) :=
    Store.getAt?_of_slot rfl (hsecures.implicit Store.not_isPlain_this hslot)
  exact Option.some.inj ((getAt?_of_callClosure hinit hcall).symm.trans hthis)

/-- A call that is not refused has as many arguments as it should, and is active while it runs. -/
theorem exists_of_callChecked {enter : Closure → List Value → Nat → Run Value} {f : Value}
    {values : List Value} {line : Nat} {value : Value} {m' : Machine}
    (h : callChecked enter f values line m = .ok value m') :
    ∃ m₁, m.store.arity? f = some values.length ∧
      call enter f values line { m with calls := m.calls + 1 } = .ok value m₁ ∧
      m' = { m₁ with calls := m₁.calls - 1 } := by
  obtain ⟨arity, m₁, hquery, hchecked⟩ := bind_eq_ok_iff.mp h
  obtain ⟨harity, rfl⟩ := query_eq_ok_iff.mp hquery
  cases arity with
  | none => cases hchecked
  | some arity =>
    dsimp only at hchecked
    split at hchecked
    · cases hchecked
    · rename_i hlength
      obtain ⟨full, _, hfull, hcounted⟩ := bind_eq_ok_iff.mp hchecked
      cases hfull
      split at hcounted
      · cases hcounted
      · obtain ⟨inside, hcall, rfl⟩ := counted_eq_ok_iff.mp hcounted
        exact ⟨inside, by rw [harity, Decidable.not_not.mp hlength], hcall, rfl⟩

/-- The parts of a call expression that gives a value. -/
theorem exists_of_callExpression {eval : Expr → Run Value}
    {enter : Closure → List Value → Nat → Run Value} {callee : Expr} {paren : Mark}
    {arguments : List Expr} {value : Value} {m' : Machine}
    (h : callExpression enter eval callee paren arguments m = .ok value m') :
    ∃ f m₁ values m₂ m₃, eval callee m = .ok f m₁ ∧ all eval arguments m₁ = .ok values m₂ ∧
      m₂.store.arity? f = some values.length ∧
      call enter f values paren.line { m₂ with calls := m₂.calls + 1 } = .ok value m₃ ∧
      m' = { m₃ with calls := m₃.calls - 1 } := by
  obtain ⟨f, m₁, hf, h⟩ := bind_eq_ok_iff.mp h
  split at h
  · obtain ⟨values, m₂, hvalues, h⟩ := bind_eq_ok_iff.mp h
    obtain ⟨m₃, harity, hcall, hafter⟩ := exists_of_callChecked h
    exact ⟨f, m₁, values, m₂, m₃, hf, hvalues, harity, hcall, hafter⟩
  · cases h

/-- A function that is called is entered. -/
theorem call_function {enter : Closure → List Value → Nat → Run Value} {id line : Nat} {c : Closure}
    {values : List Value} {value : Value} {m' : Machine} (hc : m.store.functions[id]? = some c)
    (h : call enter (.function id) values line { m with calls := m.calls + 1 } = .ok value m') :
    enter c values line { m with calls := m.calls + 1 } = .ok value m' := by
  obtain ⟨found, m₁, hquery, hentered⟩ := bind_eq_ok_iff.mp h
  obtain ⟨hfound, rfl⟩ := query_eq_ok_iff.mp hquery
  obtain rfl := hc.symm.trans hfound
  exact hentered

/-- A class that is called makes an instance, and whatever its initializer does or returns, the value is
    this instance. -/
theorem constructs_of_construct {fuel classId line : Nat} {arguments : List Value} {value : Value}
    {m' : Machine} {record : ClassRecord} (hrooted : m.store.Rooted)
    (hclass : m.store.classes[classId]? = some record)
    (h : construct (callClosure (exec fuel)) classId arguments line m = .ok value m') :
    m.Constructs fuel classId arguments line value m' := by
  have hnew : m.store.instances[(m.store.newInstance classId).1]? = none :=
    Array.getElem?_eq_none (Nat.le_refl _)
  have hmade : (m.store.newInstance classId).2.instances[(m.store.newInstance classId).1]? =
      some ⟨classId, .empty⟩ :=
    Array.getElem?_push_size
  -- The instance is made before the initializer is looked up, which the look-up does not notice.
  have hnearest := hrooted.nearest hclass initializerName
  obtain ⟨_, _, hallocated, h⟩ := bind_eq_ok_iff.mp h
  cases hallocated
  obtain ⟨found, _, hquery, hfound⟩ := bind_eq_ok_iff.mp h
  obtain ⟨hinitializer, rfl⟩ := query_eq_ok_iff.mp hquery
  have hsame : m.store.findMethod? classId initializerName = found := hinitializer
  rw [hsame] at hnearest
  cases found with
  | none =>
    cases hfound
    exact ⟨_, _, _, rfl, hnew, hmade, rfl, hnearest, fun _ hnone => by cases hnone⟩
  | some method =>
    obtain ⟨_, _, hallocate, hentered⟩ := bind_eq_ok_iff.mp hfound
    cases hallocate
    obtain ⟨result, m₁, hcall, hresult⟩ := bind_eq_ok_iff.mp hentered
    cases hresult
    have hkeeps (c : Closure) (arguments : List Value) (line : Nat) :
        (callClosure (exec fuel) c arguments line).Keeps [] :=
      keeps_callClosure (exec_keeps fuel) c arguments line
    have hgrows := (Store.secures_bind _ method _).toGrows.trans ((hkeeps _ _ _).ok hcall).grows
    obtain ⟨i, hi, hsame⟩ := hgrows.instances hmade
    refine ⟨_, i, _, rfl, hnew, hi, hsame, hnearest, fun method' hmethod => ?_⟩
    obtain rfl := Option.some.inj hmethod
    exact ⟨_, _, result, m', Store.binds_bind _ method _, hcall, rfl⟩

section Covered

variable (hcovers : Covers visits depths)
include hcovers

/-- A call that names a class gives an instance of its own, in which the initializer has run. -/
theorem Machine.Situated.constructs_call {callee : Expr} {paren : Mark} {arguments : List Expr}
    (hv : visits ⟨.expr (.call callee paren arguments), r⟩) (h : m.Situated visits depths r.shapes)
    (hwithin : m.Within (Expr.call callee paren arguments).ids) (hflagged : m.store.Flagged) :
    (Moment.evaluating (.call callee paren arguments)).Constructs m := by
  intro fuel value m' hvalue
  obtain ⟨f, m₁, values, m₂, m₃, hf, hvalues, harity, hcall, rfl⟩ := exists_of_callExpression hvalue
  have hcallee : visits ⟨.expr callee, r⟩ := hcovers.part hv (by simp [Visit.parts, Expr.parts])
  have harguments : visits ⟨.exprs arguments, callee.resolve r⟩ :=
    hcovers.part hv (by simp [Visit.parts, Expr.parts])
  obtain ⟨hm₁, hlive, hsituated₁⟩ :=
    h.eval_advances hcovers hcallee (hwithin.part (by simp [Expr.ids])) hf
  obtain ⟨hm₂, hlives, hsituated₂⟩ := Machine.Situated.all_advances hcovers harguments
    ((callee.resolve_onward r).shapes_eq ▸ hsituated₁)
    ((hwithin.advance hm₁).part (by simp [Expr.ids])) hvalues
  have hlive₂ := hlive.mono hm₂.secures.toGrows
  -- The parts of the call may make classes of their own, and flag their initializers as well.
  have hflagged₂ : m₂.store.Flagged := by
    have hfirst := (eval_exec_flags fuel).1 callee m hflagged
    rw [after_of_ok hf] at hfirst
    exact after_of_ok hvalues ▸ flags_all (eval_exec_flags fuel).1 arguments m₁ hfirst
  refine ⟨f, m₁, values, m₂, hf, hvalues, ?_, ?_⟩
  · rintro classId rfl
    obtain ⟨record, hrecord⟩ := hlive₂
    let entered : Machine := { m₂ with calls := m₂.calls + 1 }
    have hmade : entered.Constructs fuel classId values paren.line value m₃ :=
      constructs_of_construct hm₂.rooted hrecord hcall
    exact hmade
  · rintro id c receiver rfl hc hbinds
    have hentered := call_function hc hcall
    have hlength : values.length = c.code.params.length := by
      simpa [Store.arity?, hc, Closure.arity, eq_comm] using harity
    have henter : Enterable visits depths c values { m₂ with calls := m₂.calls + 1 } :=
      ⟨hsituated₂.store.functions hc, hlength, hsituated₂.store, hsituated₂.known⟩
    have hready : c.Ready values m₂.store := ⟨hm₂.rooted, hm₂.rooted.functions hc, hlives⟩
    have hadvances := henter.call_advances hcovers hready fuel paren.line
    rw [after_of_ok hentered] at hadvances
    exact hbinds.result (m := { m₂ with calls := m₂.calls + 1 }) hflagged₂ hadvances.secures hentered

/-- An initializer that is entered returns its receiver, if it returns at all. -/
theorem Enterable.constructs_entering {c : Closure} {arguments : List Value}
    (h : Enterable visits depths c arguments m) (hready : c.Ready arguments m.store)
    (hflagged : m.store.Flagged) : (Moment.entering c arguments).Constructs m := by
  intro fuel line
  have hadvances := h.call_advances hcovers hready fuel line
  refine ⟨h.store.keepsReceivers hadvances.secures, fun receiver hbinds value m' hcall => ?_⟩
  rw [after_of_ok hcall] at hadvances
  exact hbinds.result hflagged hadvances.secures hcall

/-- Wherever binding has been, and with what a run brings along, calls come to what they should. -/
theorem Moment.Expected.constructs {moment : Moment} (h : moment.Expected visits depths m)
    (hprepared : moment.Prepared m) (hflagged : m.store.Flagged) : moment.Constructs m := by
  cases moment with
  | evaluating e =>
    obtain ⟨⟨node, r⟩, hv, he, hm⟩ := h
    cases node with
    | expr e' =>
      obtain rfl := Option.some.inj he
      cases e' with
      | call callee paren arguments => exact hm.constructs_call hcovers hv hprepared hflagged
      | _ => trivial
    | superclass name parent =>
      obtain rfl := Option.some.inj he
      trivial
    | _ => cases he
  | executing s => trivial
  | entering c arguments => exact h.constructs_entering hcovers hprepared hflagged

end Covered

end Lox
