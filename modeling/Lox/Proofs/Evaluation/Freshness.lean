import Lox.Proofs.Evaluation.Congruence
import Lox.Proofs.Evaluation.Moment

namespace Lox

/-- The frame in view is one that an earlier store does not have. -/
def Machine.ViewsNew (before : Store) (m : Machine) : Prop :=
  ∃ frame outer, m.chain = frame :: outer ∧ before.kind? frame = none

/-- A watch for moments at which the frame in view is one that an earlier store has. -/
def Watch.forNew (before : Store) (alarm : Halt) : Watch :=
  ⟨fun _ m => m.ViewsNew before, alarm⟩

/-- A block that is executed and a closure that is entered have a frame of their own: whatever begins
    inside, there or in what is called from there, never has a frame in view that was there before. -/
def Moment.OpensFrame (m : Machine) : Moment → Prop
  | .executing (.block body) => ∀ fuel alarm,
    Run.block ((Watch.forNew m.store alarm).exec fuel) body m = Run.block (exec fuel) body m
  | .entering c arguments => ∀ fuel line alarm,
    Run.callClosure ((Watch.forNew m.store alarm).exec fuel) c arguments line m =
      Run.callClosure (exec fuel) c arguments line m
  | _ => True

/-- The store has grown from an earlier one, and the frame in view is not of that time. -/
structure Machine.Since (before : Store) (m : Machine) : Prop where
  grows : before.Grows m.store
  views : m.ViewsNew before

namespace Run

variable {α β : Type} {before : Store} {alarm : Halt} {m : Machine}

/-- Wherever the frame in view is new, both runs come to the same, and it is as new afterwards. -/
structure SameSince (before : Store) {α : Type} (x watched : Run α) : Prop where
  same : ∀ {m : Machine}, m.Since before → watched m = x m
  since : ∀ {m : Machine}, m.Since before → (x.after m).Since before

/-- A frame that is made after the store has grown is new to the store as it was. -/
theorem since_newFrame (hgrows : before.Grows m.store) (kind : FrameKind) (birth : Option Birth)
    (chain : Chain) :
    ({ m with store := (m.store.newFrame kind birth).2,
              chain := (m.store.newFrame kind birth).1 :: chain } : Machine).Since before where
  grows := hgrows.trans (m.store.grows_newFrame kind birth)
  views := by
    refine ⟨m.store.frames.size, chain, rfl, ?_⟩
    cases hkind : before.kind? m.store.frames.size with
    | none => rfl
    | some k =>
      have hnow := hgrows.kinds hkind
      rw [m.store.kind?_size] at hnow
      cases hnow

/-- A step leaves the chain as it is, and the store grows. -/
theorem Step.since {x : Run α} (hx : x.Step) (h : m.Since before) : (x.after m).Since before := by
  cases hx with
  | pure | outOfFuel | look | readClock => exact ⟨h.grows, h.views⟩
  | find find line hfind => exact (after_orFault line (find m) m).symm ▸ h
  | store change hchange => exact ⟨h.grows.trans (hchange m), h.views⟩
  | assignIn owner name value =>
    unfold after
    dsimp only
    cases owner m with
    | none => exact h
    | some frame => exact ⟨h.grows.trans (m.store.grows_setSlot frame name.lexeme _), h.views⟩

/-- What runs next begins on the machine that is left behind, where the frame in view is still new. -/
theorem SameSince.bind {x x' : Run α} {f f' : α → Run β} (hx : SameSince before x x')
    (hf : ∀ a, SameSince before (f a) (f' a)) : SameSince before (x >>= f) (x' >>= f') where
  same {m} h := by
    rw [bind_apply, bind_apply, hx.same h]
    cases hfirst : x m with
    | ok a m₁ => exact (hf a).same (after_of_ok hfirst ▸ hx.since h)
    | error e m₁ => rfl
  since h := after_bind (hx.since h) fun a _ _ hmiddle => (hf a).since hmiddle

/-- In view of a frame that is made for them both runs come to the same, from whatever machine. -/
theorem SameSince.inFresh_same {x x' : Run α} (hx : SameSince before x x')
    (hgrows : before.Grows m.store) (kind : FrameKind) (birth : Option Birth) (chain : Chain) :
    inFresh kind birth chain x' m = inFresh kind birth chain x m := by
  have hinside := hx.same (since_newFrame hgrows kind birth chain)
  exact inChain_congr (m := { m with store := (m.store.newFrame kind birth).2 }) hinside

/-- The frame in view is put back behind a run in view of another one. -/
theorem SameSince.inFresh {x x' : Run α} (kind : FrameKind) (birth : Option Birth) (chain : Chain)
    (hx : SameSince before x x') :
    SameSince before (inFresh kind birth chain x) (Run.inFresh kind birth chain x') where
  same h := hx.inFresh_same h.grows kind birth chain
  since {m} h := by
    have hinside := hx.since (since_newFrame h.grows kind birth chain)
    have hafter := after_inChain ((m.store.newFrame kind birth).1 :: chain) x
      { m with store := (m.store.newFrame kind birth).2 }
    exact hafter.symm ▸ ⟨hinside.grows, h.views⟩

/-- To be counted as a call changes no frame. -/
theorem SameSince.counted {x x' : Run α} (hx : SameSince before x x') :
    SameSince before (counted x) (Run.counted x') where
  same h := counted_congr (hx.same ⟨h.grows, h.views⟩)
  since {m} h := by
    have hinside := hx.since (m := { m with calls := m.calls + 1 }) ⟨h.grows, h.views⟩
    rw [after_counted]
    exact ⟨hinside.grows, hinside.views⟩

/-- What stays the same in view of new frames can be put together. -/
theorem congruence_sameSince : Congruence (SameSince before) where
  step hx := ⟨fun _ => rfl, hx.since⟩
  bind := .bind
  inFresh := .inFresh
  counted := .counted

/-- Printing changes the sink only. -/
theorem sameSince_print (value : Value) (line : Nat) :
    SameSince before (print value line) (print value line) := by
  refine SameSince.bind (congruence_sameSince.query _) fun pieces => ⟨fun _ => rfl, fun {m} h => ?_⟩
  rw [after_write]
  exact ⟨h.grows, h.views⟩

/-- A guard that asks for a new frame in view does not stop a run where there is one. -/
theorem SameSince.guard {x watched : Run α} (h : SameSince before x watched) (moment : Moment) :
    SameSince before x ((Watch.forNew before alarm).guard moment watched) where
  same {m} hm := by
    have hcondition : (Watch.forNew before alarm).condition moment m := hm.views
    rw [Watch.guard_of_condition watched hcondition, h.same hm]
  since := h.since

/-- While the frame in view is new, it is so at every moment. The induction is on the fuel. -/
theorem eval_exec_sameSince (before : Store) (alarm : Halt) (fuel : Nat) :
    (∀ e, SameSince before (eval fuel e) ((Watch.forNew before alarm).eval fuel e)) ∧
      (∀ s, SameSince before (exec fuel s) ((Watch.forNew before alarm).exec fuel s)) := by
  induction fuel with
  | zero =>
    have hstop {α : Type} : SameSince before (outOfFuel : Run α) outOfFuel :=
      congruence_sameSince.step .outOfFuel
    exact ⟨fun _ => hstop, fun _ => hstop⟩
  | succ fuel ih =>
    obtain ⟨heval, hexec⟩ := ih
    have henter (c : Closure) (arguments : List Value) (line : Nat) :
        SameSince before (callClosure (exec fuel) c arguments line)
          ((Watch.forNew before alarm).enter ((Watch.forNew before alarm).exec fuel) c arguments line) :=
      (congruence_sameSince.callClosure hexec c arguments line).guard _
    refine ⟨fun e => (congruence_sameSince.evalNode heval henter e).guard _, fun s => ?_⟩
    refine (congruence_sameSince.execNode fuel heval hexec ?_).guard _
    rintro keyword value rfl
    exact (heval value).bind fun v => (sameSince_print v _).bind fun _ => congruence_sameSince.pure _

end Run

/-- Every block and every call opens a frame of its own. -/
theorem Moment.opensFrame (m : Machine) (moment : Moment) : moment.OpensFrame m := by
  cases moment with
  | evaluating e => trivial
  | executing s =>
    cases s with
    | block body =>
      intro fuel alarm
      have hbody := Run.congruence_sameSince.sequence (Run.eval_exec_sameSince m.store alarm fuel).2 body
      exact hbody.inFresh_same (.refl m.store) .block (some ⟨.block body, m.chain⟩) m.chain
    | _ => trivial
  | entering c arguments =>
    intro fuel line alarm
    have hexec := (Run.eval_exec_sameSince m.store alarm fuel).2
    have hinside := Run.congruence_sameSince.bind
      (Run.congruence_sameSince.defineParams c.code.params arguments)
      fun _ => Run.congruence_sameSince.sequence hexec c.code.body
    have hbody : Run.runBody ((Watch.forNew m.store alarm).exec fuel) c arguments m =
        Run.runBody (exec fuel) c arguments m :=
      hinside.inFresh_same (.refl m.store) .function (some ⟨.call c.code, c.chain⟩) c.chain
    unfold Run.callClosure
    rw [Run.bind_apply, Run.bind_apply, hbody]

end Lox
