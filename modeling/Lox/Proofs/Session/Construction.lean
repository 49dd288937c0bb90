import Lox.Proofs.Dispatch.Construction
import Lox.Proofs.Session.Dispatch

namespace Lox

open Run

theorem runEach_flags {exec : Stmt → Run Completion} (hexec : ∀ s, (exec s).Flags)
    (program : List Stmt) : (runEach exec program).Flags := by
  induction program with
  | nil => exact flags_pure ()
  | cons s rest ih => exact (hexec s).bind fun _ => ih

theorem runShowing_flags {eval : Expr → Run Value} {exec : Stmt → Run Completion}
    (heval : ∀ e, (eval e).Flags) (hexec : ∀ s, (exec s).Flags) (program : List Stmt) :
    (runShowing eval exec program).Flags := by
  induction program with
  | nil => exact flags_pure ()
  | cons s rest ih =>
    have hother := (hexec s).bind fun _ => ih
    cases s with
    | expression e => exact (heval e).bind fun value => (flags_print value e.line).bind fun _ => ih
    | _ => exact hother

/-- The classes that a program makes have their initializers flagged. -/
theorem Mode.run_flags (mode : Mode) (fuel : Nat) (program : List Stmt) :
    (mode.run fuel program).Flags := by
  obtain ⟨heval, hexec⟩ := eval_exec_flags fuel
  cases mode with
  | program => exact runEach_flags hexec program
  | line => exact runShowing_flags heval hexec program

namespace Session

variable {programs : List (List Stmt)} {s : Session}

/-- In a session initializers are flagged, and no other methods are. -/
theorem Reached.flagged (hs : Reached programs s) : s.machine.store.Flagged := by
  induction hs with
  | start sink clock =>
    intro id record hrecord
    have hnone : (Store.empty.classes)[id]? = some record := hrecord
    simp [Store.empty] at hnone
  | @submit programs s mode fuel source hs ih =>
    rcases s.submit_cases (mode.run fuel) source with
      ⟨program, _, hrun⟩ | ⟨_, hsame⟩ | ⟨_, program, _, _, hnote⟩
    · rw [hrun]
      exact mode.run_flags fuel program _ ih
    · rw [hsame]
      exact ih
    · rw [hnote]
      exact ih

/-- Construction always gives the instance. Whatever sources a session has been given, and whatever it is
    given next: at every moment a call of a class that succeeds gives an instance of this class that was
    not there before, after the nearest initializer, if there is one, has been run for it; and a call of a
    bound initializer that succeeds gives the receiver, however its body ends. And from every moment on, as
    from before the source, every `this` stays the instance that it is, whatever is run. -/
theorem Reached.calls_construct (hs : Reached programs s) (mode : Mode) (fuel : Nat) (source : String) :
    let final := (s.submit (mode.run fuel) source).2.machine.store
    s.machine.store.KeepsReceivers final ∧
      s.Always mode fuel source fun moment m => m.store.KeepsReceivers final ∧ moment.Constructs m := by
  intro final
  have hsecures := (hs.advances hs.rooted mode fuel source).1
  have hflagged : final.Flagged := (Reached.submit mode fuel source hs).flagged
  refine ⟨hs.sound.store.keepsReceivers hsecures, fun alarm => submit_congr fun program haccept => ?_⟩
  have hsound := hs.sound.accepted haccept
  refine hsound.run_watched hs.atRest.1 hs.rooted List.mem_cons_self mode fuel
    fun moment m hmoment hprepared hlater => ?_
  rw [← machine_submit_of_accepted (mode.run fuel) haccept] at hlater
  exact ⟨hmoment.sound.keepsReceivers hlater,
    hmoment.constructs hsound.covers hprepared (hflagged.earlier hlater.toGrows)⟩

/-- The initializer is inherited, calls itself and the class below, and returns out of a loop. -/
theorem calls_construct_of_inherited :
    let first := "class A{init(n){this.n=n;while(n){{C(nil);this.init(nil);return;}}}}class C<A{}"
    let source := "var c=C(true);var f=c.init;print c;print f(true)==c;print C(nil)==c;"
    let s := ((Session.start .unlimited (.ticking 0)).submit (Mode.program.run 20) first).2
    let programs := ((Session.start .unlimited (.ticking 0)).accepted? first).toList ++ []
    Reached programs s ∧
      (s.submit (Mode.program.run 20) source).1 = ⟨.ok, [], "C instance\ntrue\nfalse\n"⟩ ∧
      let final := (s.submit (Mode.program.run 20) source).2.machine.store
      s.machine.store.KeepsReceivers final ∧
        s.Always .program 20 source fun moment m =>
          m.store.KeepsReceivers final ∧ moment.Constructs m := by
  intro first source s programs
  have hs : Reached programs s := .submit .program 20 first (.start .unlimited (.ticking 0))
  exact ⟨hs, by decide +kernel, hs.calls_construct .program 20 source⟩

end Session

end Lox
