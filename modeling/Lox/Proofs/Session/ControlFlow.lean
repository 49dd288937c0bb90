import Lox.Proofs.Binding.Surroundings
import Lox.Proofs.Session.Receivers

namespace Lox

variable {fuel : Nat} {c : Closure} {arguments : List Value} {completion : Completion} {value : Value}
  {m m' : Machine}

/-- Where the body of a closure begins: in a new frame, with the arguments in the parameters. -/
def Machine.entered (m : Machine) (c : Closure) (arguments : List Value) : Machine :=
  let made := m.store.newFrame .function (some ⟨.call c.code, c.chain⟩)
  (Run.defineParams c.code.params arguments).after
    { m with store := made.2, chain := made.1 :: c.chain }

namespace Run

/-- Parameters get their arguments without a fault. -/
theorem defineParams_eq_ok (params : List Mark) (arguments : List Value) (m : Machine) :
    defineParams params arguments m = .ok () ((defineParams params arguments).after m) := by
  induction params generalizing arguments m with
  | nil => rfl
  | cons param params ih =>
    cases arguments with
    | nil => rfl
    | cons argument arguments => exact ih arguments _

/-- The body of a closure ends as its statements do in a new frame. -/
theorem runBody_eq_ok_iff :
    runBody (exec fuel) c arguments m = .ok completion m' ↔
      ∃ inside, sequence (exec fuel) c.code.body (m.entered c arguments) = .ok completion inside ∧
        m' = { inside with chain := m.chain } := by
  let made := m.store.newFrame .function (some ⟨.call c.code, c.chain⟩)
  have hbody : (do defineParams c.code.params arguments; sequence (exec fuel) c.code.body)
      { m with store := made.2, chain := made.1 :: c.chain } =
      sequence (exec fuel) c.code.body (m.entered c arguments) := by
    rw [bind_apply, defineParams_eq_ok]
    rfl
  rw [← hbody]
  exact inChain_eq_ok_iff

/-- A body returns a value if and only if its run comes to a `return` of its own with that value. -/
theorem runBody_returned_iff :
    runBody (exec fuel) c arguments m = .ok (.returned value) m' ↔
      ∃ inside, Leaves fuel (.stmts c.code.body) (.returned value) (m.entered c arguments) inside ∧
        m' = { inside with chain := m.chain } := by
  refine runBody_eq_ok_iff.trans (exists_congr fun inside => and_congr_left fun _ => ?_)
  exact ⟨fun h => leaves_iff.mpr ⟨h, nofun⟩, Leaves.run_eq⟩

/-- A function that is no initializer returns what its body does. -/
theorem callClosure_of_returned (hbody : runBody (exec fuel) c arguments m = .ok (.returned value) m')
    (hplain : c.initializer = false) (line : Nat) :
    callClosure (exec fuel) c arguments line m = .ok value m' := by
  unfold callClosure
  rw [bind_apply, hbody, hplain]
  rfl

/-- The result of an initializer is its instance, whatever the body returns. -/
theorem callClosure_of_initializer (hbody : runBody (exec fuel) c arguments m = .ok completion m')
    (hinit : c.initializer = true) (hthis : m'.store.getAt? c.chain 0 "this" = some value)
    (line : Nat) : callClosure (exec fuel) c arguments line m = .ok value m' := by
  unfold callClosure
  rw [bind_apply, hbody, hinit]
  simp only [if_true, bind_apply, query, hthis]
  rfl

end Run

/-- What control flow keeps to when a closure is entered: its body does not end with a break, and where
    the run of the body comes to a `return`, the call is over, with the value as its result, or else with the
    instance of an initializer. -/
def Moment.Contained (m : Machine) : Moment → Prop
  | .entering c arguments => ∀ fuel,
      (∀ m', Run.runBody (exec fuel) c arguments m ≠ .ok .broken m') ∧
      ∀ value inside,
        Leaves fuel (.stmts c.code.body) (.returned value) (m.entered c arguments) inside →
        ∀ line, ∃ result,
          Run.callClosure (exec fuel) c arguments line m = .ok result { inside with chain := m.chain } ∧
          if c.initializer then
            ∃ id, result = .instance id ∧ inside.store.getAt? c.chain 0 "this" = some result
          else result = value
  | _ => True

/-- Where binding has been, a closure that is entered contains its ways out. -/
theorem Enterable.contained {visits : Visit → Prop} {depths : Std.TreeMap Nat Nat}
    (hcovers : Covers visits depths) (henter : Enterable visits depths c arguments m) :
    (Moment.entering c arguments).Contained m := by
  intro fuel
  constructor
  · intro m' hbroken
    obtain ⟨role, r, hv, _⟩ := henter.closure
    obtain ⟨inside, hbody, _⟩ := Run.runBody_eq_ok_iff.mp hbroken
    exact sequence_ne_broken (hcovers.sound hv).clean hbody rfl
  · intro value inside hleaves line
    have hbody := Run.runBody_returned_iff.mpr ⟨inside, hleaves, rfl⟩
    cases hinit : c.initializer with
    | false => exact ⟨value, Run.callClosure_of_returned hbody hinit line, rfl⟩
    | true =>
      obtain ⟨id, hthis⟩ := (henter.provided hcovers hinit).2 fuel _ _ hbody
      exact ⟨.instance id, Run.callClosure_of_initializer hbody hinit hthis line, id, rfl, hthis⟩

/-- Where binding has been, every moment contains the ways out of what begins there. -/
theorem Moment.Expected.contained {visits : Visit → Prop} {depths : Std.TreeMap Nat Nat}
    (hcovers : Covers visits depths) {moment : Moment} (h : moment.Expected visits depths m) :
    moment.Contained m := by
  cases moment with
  | entering c arguments => exact Enterable.contained hcovers h
  | _ => trivial

namespace Session

variable {programs : List (List Stmt)} {s : Session}

/-- Control flow stays in its construct. In a program without a static error every statement of the
    program ends normally, if it does not fail, and no body of a function in it ends with a break; no loop
    does, in any program. Work returns a value if and only if its run comes to a `return` of its own; and
    whatever a session runs, such a `return` ends the call of the function that it stands in, whose result it
    gives unless that is an initializer. -/
theorem control_flow_contained (hs : Reached programs s) (mode : Mode) (fuel : Nat)
    (source : String) :
    (∀ program, (resolve program).errors = [] →
      (∀ stmt ∈ program, ∀ fuel m completion m', exec fuel stmt m = .ok completion m' →
        completion = .normal) ∧
      ∀ role code r, Visited [program] ⟨.code role code, r⟩ → ∀ fuel m completion m',
        Run.sequence (exec fuel) code.body m = .ok completion m' → completion ≠ .broken) ∧
    (∀ fuel condition body m completion m',
      exec fuel (.while condition body) m = .ok completion m' → completion ≠ .broken) ∧
    (∀ fuel (w : Work) value m m',
      w.run fuel m = .ok (.returned value) m' ↔ Leaves fuel w (.returned value) m m') ∧
    s.Always mode fuel source fun moment m => moment.Contained m := by
  refine ⟨fun program hclean => ⟨fun stmt hstmt fuel m completion m' h => exec_eq_normal hclean hstmt h,
    fun role code r hv fuel m completion m' h => sequence_ne_broken (hv.clean ?_) h⟩,
    fun fuel condition body m completion m' h => while_ne_broken h,
    fun fuel w value m m' => ⟨fun h => leaves_iff.mpr ⟨h, nofun⟩, Leaves.run_eq⟩,
    hs.always fun _ hcovers _ _ hmoment => hmoment.contained hcovers⟩
  simpa using hclean

/-- A `return` out of a loop in a conditional, and a loop that only breaks end. -/
theorem control_flow_contained_of_loop :
    let s := Session.start .unlimited (.ticking 0)
    let source := "fun f(n) { while (true) { if (n) { return nil; } break; } } f(true); f(false);"
    let program : List Stmt := [.while (.literal (.bool true) 1) (.block [.break ⟨"break", 1⟩])]
    Reached [] s ∧ (resolve program).errors = [] ∧
      (∀ stmt ∈ program, ∀ fuel m completion m', exec fuel stmt m = .ok completion m' →
        completion = .normal) ∧
      s.Always .program 100 source fun moment m => moment.Contained m := by
  intro s source program
  have hcontained := control_flow_contained (.start .unlimited (.ticking 0)) .program 100 source
  exact ⟨.start _ _, rfl, (hcontained.1 program rfl).1, hcontained.2.2.2⟩

end Session

end Lox
