import Lox.Proofs.Session.Moments

namespace Lox

/-- What the language promises at a moment: an operand is never missing, `this` stands for an instance
    and `super` for a class, each in a frame of its own at the depth known for it and the one right inside
    the other, an initializer has its instance before and after its body, and a class that has been made
    finds its name in the innermost frame. -/
def Moment.Provided (m : Machine) : Moment → Prop
  | .evaluating (.unpaired _ _ _) => False
  | .evaluating (.this ref) => ∃ depth frame id, m.depths[ref.id]? = some depth ∧
      m.chain[depth]? = some frame ∧ m.store.kind? frame = some .this ∧
      m.store.getAt? m.chain depth ref.mark.lexeme = some (.instance id)
  | .evaluating (.super ref _) => ∃ depth inner outer receiver parent,
      m.depths[ref.id]? = some (depth + 1) ∧
      m.chain[depth]? = some inner ∧ m.store.kind? inner = some .this ∧
      m.chain[depth + 1]? = some outer ∧ m.store.kind? outer = some .super ∧
      m.store.getAt? m.chain depth "this" = some (.instance receiver) ∧
      m.store.getAt? m.chain (depth + 1) "super" = some (.class parent)
  | .evaluating _ => True
  | .entering c arguments => c.initializer = true →
      (∃ id, m.store.getAt? c.chain 0 "this" = some (.instance id)) ∧
        ∀ fuel completion m', Run.runBody (exec fuel) c arguments m = .ok completion m' →
          ∃ id, m'.store.getAt? c.chain 0 "this" = some (.instance id)
  | .executing (.class name superclass methods) => ∀ fuel id m',
      Run.makeClass (eval fuel) name superclass methods m = .ok id m' →
        ∃ frame, m'.chain.head? = some frame ∧
          m'.store.owner? m'.chain name.lexeme = some frame
  | .executing _ => True

variable {visits : Visit → Prop} {depths : Std.TreeMap Nat Nat} {m : Machine}

/-- Where binding has been, an expression finds what the language brings in for it. -/
theorem Machine.Situated.provided_expr (hcovers : Covers visits depths) {e : Expr} {r : Resolver}
    (hv : visits ⟨.expr e, r⟩) (hm : m.Situated visits depths r.shapes) :
    (Moment.evaluating e).Provided m := by
  cases e with
  | unpaired op mark right => exact (hcovers.sound hv).proper
  | this ref =>
    obtain ⟨depth, id, hdepth, hkind, hget⟩ := hm.this hcovers hv
    obtain ⟨frame, hframe, hframeKind⟩ := hm.frame_at hkind
    exact ⟨depth, frame, id, hdepth, hframe, hframeKind, hget⟩
  | super ref method =>
    obtain ⟨depth, parent, receiver, hdepth, hthis, hsuper, hparent, hreceiver⟩ := hm.super hcovers hv
    obtain ⟨inner, hinner, hinnerKind⟩ := hm.frame_at hthis
    obtain ⟨outer, houter, houterKind⟩ := hm.frame_at hsuper
    exact ⟨depth, inner, outer, receiver, parent, hdepth, hinner, hinnerKind, houter, houterKind,
      hreceiver, hparent⟩
  | _ => trivial

/-- Where binding has been, a statement finds what the language brings in for it. -/
theorem Machine.Situated.provided_stmt {s : Stmt} {r : Resolver}
    (hm : m.Situated visits depths r.shapes) : (Moment.executing s).Provided m := by
  cases s with
  | «class» name superclass methods =>
    intro fuel id m' hmade
    have hhead : m.chain.head?.isSome := by
      have hlength := hm.aligned.length
      cases hchain : m.chain with
      | nil => simp [hchain] at hlength
      | cons frame rest => rfl
    obtain ⟨frame, hframe⟩ := Option.isSome_iff_exists.mp hhead
    obtain ⟨hchain, hhas⟩ :=
      Run.has_of_makeClass (eval_keeps fuel) hmade hframe (hm.head_kind hframe)
    refine ⟨frame, hchain ▸ hframe, ?_⟩
    rw [hchain]
    cases hlist : m.chain with
    | nil => simp [hlist] at hframe
    | cons first rest =>
      obtain rfl : first = frame := by simpa [hlist] using hframe
      exact List.find?_cons_of_pos hhas
  | _ => trivial

/-- A closure that may be entered has its receiver in its frames. -/
theorem Enterable.provided (hcovers : Covers visits depths) {c : Closure} {arguments : List Value}
    (henter : Enterable visits depths c arguments m) : (Moment.entering c arguments).Provided m := by
  intro hinit
  refine ⟨henter.closure.this henter.store hinit, fun fuel completion m' hbody => ?_⟩
  have hidle := Watch.idle.eval_exec_agrees hcovers (fun _ _ _ => trivial) fuel
  have hlater : m.Later [] m' := (Run.keeps_runBody (exec_keeps fuel) c arguments).ok hbody
  have hsound := ((Run.agrees_runBody hcovers hidle.2 henter).ok hbody).1
  exact (henter.closure.mono hlater.grows).this hsound hinit

/-- Where binding has been, every moment finds what the language brings in for it. -/
theorem Moment.Expected.provided (hcovers : Covers visits depths) {moment : Moment}
    (h : moment.Expected visits depths m) : moment.Provided m := by
  cases moment with
  | evaluating e =>
    obtain ⟨⟨node, r⟩, hv, he, hm⟩ := h
    cases node with
    | expr e' =>
      obtain rfl := Option.some.inj he
      exact hm.provided_expr hcovers hv
    | superclass name parent =>
      obtain rfl := Option.some.inj he
      trivial
    | _ => cases he
  | executing s =>
    obtain ⟨r, _, hm⟩ := h
    exact hm.provided_stmt
  | entering c arguments => exact Enterable.provided hcovers h

namespace Session

variable {programs : List (List Stmt)} {s : Session}

/-- The internal errors are out of reach. Whatever sources a session has been given, and whatever it is
    given next, no run ends for want of an operand, of `this` or of `super`, and at every moment the
    language has what it promises. -/
theorem internal_errors_unreachable (hs : Reached programs s) (mode : Mode) (fuel : Nat)
    (source : String) :
    (∀ e, .error (.runtime e) ∈ (s.submit (mode.run fuel) source).1.reports →
      e.fault ≠ .missingOperand ∧ e.fault ≠ .undefinedVariable "this" ∧
        e.fault ≠ .undefinedVariable "super") ∧
    s.Always mode fuel source fun moment m => moment.Provided m := by
  refine ⟨fun e he => ?_, hs.always fun _ hcovers _ _ hmoment => hmoment.provided hcovers⟩
  have hclean := hs.errors_clean he
  refine ⟨fun h => ?_, fun h => ?_, fun h => ?_⟩
  · rw [h] at hclean
    exact hclean trivial
  · rw [h] at hclean
    exact hclean fun hplain => hplain.1 rfl
  · rw [h] at hclean
    exact hclean fun hplain => hplain.2 rfl

/-- An initializer that calls the initializer of the superclass. -/
theorem internal_errors_unreachable_in_initializers :
    let s := Session.start .unlimited (.ticking 0)
    let source := "class A { init() { this.a = nil; } } class B < A { init() { super.init(); } } B();"
    Reached [] s ∧
      (∀ e, .error (.runtime e) ∈ (s.submit (Mode.program.run 100) source).1.reports →
        e.fault ≠ .missingOperand ∧ e.fault ≠ .undefinedVariable "this" ∧
          e.fault ≠ .undefinedVariable "super") ∧
      s.Always .program 100 source fun moment m => moment.Provided m :=
  ⟨.start _ _, internal_errors_unreachable (.start .unlimited (.ticking 0)) .program 100
    "class A { init() { this.a = nil; } } class B < A { init() { super.init(); } } B();"⟩

end Session

end Lox
