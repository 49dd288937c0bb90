import Lox.Proofs.Dispatch.Moment
import Lox.Proofs.Session.Moments

namespace Lox

open Run

variable {final : Store} {program : List Stmt} {m : Machine}

/-- A run under one watch tracks that under another which keeps the first one's condition. -/
theorem Mode.watched_tracks {watch' watch : Watch}
    (horderly : ∀ moment m, watch.condition moment m → moment.Orderly m)
    (hkept : ∀ moment m, watch.condition moment m → moment.Prepared m → m.store.Secures final →
      watch'.condition moment m)
    (hm : m.Within (Stmt.idsAll program)) (mode : Mode) (fuel : Nat) :
    Tracks final watch.alarm (mode.watched watch' fuel program) (mode.watched watch fuel program) m := by
  obtain ⟨heval, hexec⟩ := Watch.eval_exec_tracks horderly hkept fuel
  cases mode with
  | program => exact runEach_tracks hexec hm
  | line => exact runShowing_tracks heval hexec hm

/-- There is a halt that is not what a run ends with. -/
theorem exists_other_halt {α : Type} (result : EStateM.Result Halt Machine α) :
    ∃ alarm, ∀ m', result ≠ .error alarm m' := by
  match result with
  | .ok _ _ => exact ⟨.outOfFuel, nofun⟩
  | .error .outOfFuel _ => exact ⟨.error ⟨.missingOperand, 0⟩, nofun⟩
  | .error (.error _) _ => exact ⟨.outOfFuel, nofun⟩

/-- At a moment that is prepared the store is rooted. -/
theorem Moment.Prepared.rooted {moment : Moment} (h : moment.Prepared m) : m.store.Rooted := by
  cases moment with
  | evaluating e => exact Machine.Within.rooted h
  | executing s => exact Machine.Within.rooted h
  | entering c arguments => exact Closure.Ready.rooted h

/-- Where binding has been, the store is sound. -/
theorem Moment.Expected.sound {visits : Visit → Prop} {depths : Std.TreeMap Nat Nat} {moment : Moment}
    (h : moment.Expected visits depths m) : m.store.Sound visits := by
  cases moment with
  | evaluating e =>
    obtain ⟨_, _, _, hm⟩ := h
    exact hm.store
  | executing s =>
    obtain ⟨_, _, hm⟩ := h
    exact hm.store
  | entering c arguments => exact Enterable.store h

namespace Session

variable {programs : List (List Stmt)} {s : Session}

/-- At rest there is no code around that could be in a method. -/
theorem Sound.within (h : s.Sound programs) (hrest : s.machine.chain = .global)
    (hrooted : s.machine.store.Rooted) (ids : List Nat) : s.machine.Within ids := by
  refine ⟨hrooted, ?_⟩
  rw [hrest]
  exact .further h.store.global nofun .outside

section Running

variable (h : s.Sound programs) (hrest : s.machine.chain = .global) (hrooted : s.machine.store.Rooted)
  (hprogram : program ∈ programs) (mode : Mode) (fuel : Nat)
include h hrest hrooted hprogram

/-- A run of a program gets on, and under another watch it comes to the same on the way to the final store,
    unless it ends with the halt given. -/
private theorem Sound.run_tracks (watch : Watch) (final : Store)
    (hkept : ∀ moment m, moment.Expected (Visited programs) s.machine.depths m → moment.Prepared m →
      m.store.Secures final → watch.condition moment m) (alarm : Halt) :
    s.machine.Advances ((mode.run fuel program).after s.machine) ∧
      (((mode.run fuel program).after s.machine).store.Secures final →
        mode.watched watch fuel program s.machine = mode.run fuel program s.machine ∨
          ∃ m', mode.run fuel program s.machine = .error alarm m') := by
  let bound : Watch := ⟨fun moment m => moment.Expected (Visited programs) s.machine.depths m, alarm⟩
  have hsame := (h.run_agrees hrest hprogram bound (fun _ _ hmoment => hmoment) mode fuel).same
  have horderly (moment : Moment) (m : Machine) (hmoment : bound.condition moment m) :
      moment.Orderly m := Moment.Expected.orderly h.covers hmoment
  have htracks : Tracks final alarm (mode.watched watch fuel program)
      (mode.watched bound fuel program) s.machine :=
    mode.watched_tracks horderly hkept (h.within hrest hrooted (Stmt.idsAll program)) fuel
  have hafter : (mode.watched bound fuel program).after s.machine =
      (mode.run fuel program).after s.machine := by
    unfold after
    rw [hsame]
  rw [← hafter, ← hsame]
  exact ⟨htracks.advances, htracks.same⟩

theorem Sound.run_advances : s.machine.Advances ((mode.run fuel program).after s.machine) :=
  (h.run_tracks hrest hrooted hprogram mode fuel .idle s.machine.store
    (fun _ _ _ _ _ => trivial) .outOfFuel).1

/-- What holds wherever binding has been, with what the run brings along, on the way to where the run ends,
    makes no difference when it is watched for. -/
theorem Sound.run_watched {watch : Watch}
    (hkept : ∀ moment m, moment.Expected (Visited programs) s.machine.depths m → moment.Prepared m →
      m.store.Secures ((mode.run fuel program).after s.machine).store → watch.condition moment m) :
    mode.watched watch fuel program s.machine = mode.run fuel program s.machine := by
  obtain ⟨alarm, hother⟩ := exists_other_halt (mode.run fuel program s.machine)
  have htracks := h.run_tracks hrest hrooted hprogram mode fuel watch _ hkept alarm
  rcases htracks.2 (.refl _) with hsame | ⟨m', halarm⟩
  · exact hsame
  · exact absurd halarm (hother m')

end Running

/-- A session with a rooted store gets on with every source. -/
theorem Reached.advances (hs : Reached programs s) (hrooted : s.machine.store.Rooted)
    (mode : Mode) (fuel : Nat) (source : String) :
    s.machine.store.Secures (s.submit (mode.run fuel) source).2.machine.store ∧
      (s.submit (mode.run fuel) source).2.machine.store.Rooted := by
  rcases s.submit_cases (mode.run fuel) source with
    ⟨program, haccept, hrun⟩ | ⟨_, hsame⟩ | ⟨_, program, _, _, hnote⟩
  · have hadvances := (hs.sound.accepted haccept).run_advances hs.atRest.1 hrooted List.mem_cons_self
      mode fuel
    rw [hrun]
    exact ⟨hadvances.secures, hadvances.rooted⟩
  · rw [hsame]
    exact ⟨.refl _, hrooted⟩
  · rw [hnote]
    exact ⟨.refl _, hrooted⟩

/-- The store of a session is rooted. -/
theorem Reached.rooted (hs : Reached programs s) : s.machine.store.Rooted := by
  induction hs with
  | start sink clock =>
    have hplain : IsPlain Native.clock.name := ⟨by decide, by decide⟩
    exact Store.rooted_globals.define .global hplain trivial
  | submit mode fuel source hs ih => exact (hs.advances ih mode fuel source).2

/-- `super` is dispatched statically and `this` dynamically. Whatever sources a session has been given, and
    whatever it is given next: at every moment `super` starts from the superclass that the class of the
    method around was made with, finds the nearest definition from there upwards, and binds it to what
    `this` is in the frames in view; a property is the field, or else the nearest definition from the class
    of the instance upwards, bound to the instance. And from every moment on, as from before the source,
    classes and functions stay as they are when it is over, with the superclass and with the receiver. -/
theorem Reached.methods_dispatched (hs : Reached programs s) (mode : Mode) (fuel : Nat)
    (source : String) :
    let final := (s.submit (mode.run fuel) source).2.machine.store
    s.machine.store.Upholds final ∧
      s.Always mode fuel source fun moment m => m.store.Upholds final ∧ moment.Dispatches m := by
  intro final
  have hsecures := (hs.advances hs.rooted mode fuel source).1
  refine ⟨hs.rooted.upholds hs.sound.store hsecures, fun alarm => submit_congr fun program haccept => ?_⟩
  have hsound := hs.sound.accepted haccept
  refine hsound.run_watched hs.atRest.1 hs.rooted List.mem_cons_self mode fuel
    fun moment m hmoment hprepared hlater => ?_
  rw [← machine_submit_of_accepted (mode.run fuel) haccept] at hlater
  exact ⟨hprepared.rooted.upholds hmoment.sound hlater, hmoment.dispatches hsound.covers hprepared⟩

/-- A lambda in a method of the class in the middle, made for an instance of the class below and called when
    the name of the class above stands for another: it finds the method of the class above, for its
    instance. -/
theorem methods_dispatched_in_lambda :
    let first := "class A{m(){return this.n;}}class B<A{g(){return fun(){return super.m;};}}" ++
      "class C<B{init(){this.n=true;}m(){return nil;}}var g=C().g();"
    let source := "class A{}print g()();"
    let s := ((Session.start .unlimited (.ticking 0)).submit (Mode.program.run 20) first).2
    let programs := ((Session.start .unlimited (.ticking 0)).accepted? first).toList ++ []
    Reached programs s ∧ (s.submit (Mode.program.run 20) source).1 = ⟨.ok, [], "true\n"⟩ ∧
      let final := (s.submit (Mode.program.run 20) source).2.machine.store
      s.machine.store.Upholds final ∧
        s.Always .program 20 source fun moment m => m.store.Upholds final ∧ moment.Dispatches m := by
  intro first source s programs
  have hs : Reached programs s := .submit .program 20 first (.start .unlimited (.ticking 0))
  exact ⟨hs, by decide +kernel, hs.methods_dispatched .program 20 source⟩

end Session

end Lox
