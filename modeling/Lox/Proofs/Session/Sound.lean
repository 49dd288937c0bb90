import Lox.Proofs.Alignment.Watch
import Lox.Proofs.Binding.Noting
import Lox.Proofs.Grammar.Program
import Lox.Proofs.Session.History

namespace Lox

namespace Session

/-- Between its sources the programs that a session has run are proper ones in which binding finds no
    error, their occurrences have numbers of their own, the depths known are those that binding has
    decided, none of them for a number to come, and the store is sound for the programs. -/
structure Sound (programs : List (List Stmt)) (s : Session) : Prop where
  store : s.machine.store.Sound (Visited programs)
  proper : ∀ program ∈ programs, Stmt.AllProper program
  bound : ∀ program ∈ programs, (resolve program).errors = []
  numbered : Fresh 0 s.nextId (programs.flatMap Stmt.idsAll)
  noted : ∀ program ∈ programs, ∀ r ∈ (resolve program).resolutions,
    s.machine.depths[r.id]? = r.depth
  unknown : ∀ id, s.nextId ≤ id → s.machine.depths[id]? = none

variable {programs : List (List Stmt)} {s : Session} {program : List Stmt} {nextId : Nat}

/-- A session starts out sound. -/
theorem sound_start (sink : Sink) (clock : Clock) : (start sink clock).Sound [] where
  store := by
    have hplain : IsPlain Native.clock.name := ⟨by decide, by decide⟩
    exact Store.sound_globals.define .global (.native .clock) hplain
  proper _ h := nomatch h
  bound _ h := nomatch h
  numbered := .nil
  noted _ h := nomatch h
  unknown id _ := by simp [start, Machine.start]

/-- Runs leave the depths as they are. -/
theorem Sound.later (h : s.Sound programs) {machine : Machine}
    (hstore : machine.store.Sound (Visited programs)) (hdepths : machine.depths = s.machine.depths)
    (hnext : s.nextId ≤ nextId) : (⟨machine, nextId⟩ : Session).Sound programs where
  store := hstore
  proper := h.proper
  bound := h.bound
  numbered := h.numbered.mono (Nat.le_refl 0) hnext
  noted program hprogram r hr := by
    rw [hdepths]
    exact h.noted program hprogram r hr
  unknown id hid := by
    rw [hdepths]
    exact h.unknown id (Nat.le_trans hnext hid)

section Note

variable (h : s.Sound programs) (hfresh : Fresh s.nextId nextId (Stmt.idsAll program))
include h hfresh

/-- The decisions about a program are new, also where they are about one with an error. -/
theorem Sound.note (hnext : s.nextId ≤ nextId) :
    (⟨s.machine.note (resolve program).resolutions, nextId⟩ : Session).Sound programs := by
  have hids {id : Nat} (hid : id ∈ (resolve program).resolutions.map Resolution.id) :
      s.nextId ≤ id ∧ id < nextId :=
    hfresh.bounds id ((resolve_ids program).subset hid)
  refine ⟨h.store, h.proper, h.bound, h.numbered.mono (Nat.le_refl 0) hnext,
    fun earlier hearlier r hr => ?_, fun id hid => ?_⟩
  · have hold : r.id < s.nextId := by
      refine (h.numbered.bounds r.id (List.mem_flatMap.mpr ⟨earlier, hearlier, ?_⟩)).2
      exact (resolve_ids earlier).subset (List.mem_map_of_mem hr)
    rw [Machine.depths_note_of_not_mem fun hnew => absurd (hids hnew).1 (Nat.not_le.mpr hold)]
    exact h.noted earlier hearlier r hr
  · rw [Machine.depths_note_of_not_mem fun hnew => absurd (hids hnew).2 (Nat.not_lt.mpr hid)]
    exact h.unknown id (Nat.le_trans hnext hid)

/-- A program without an error joins those that have been run. -/
theorem Sound.accept (hnext : s.nextId ≤ nextId) (hproper : Stmt.AllProper program)
    (herrors : (resolve program).errors = []) :
    (⟨s.machine.note (resolve program).resolutions, nextId⟩ : Session).Sound
      (program :: programs) := by
  have hnote := h.note hfresh hnext
  refine ⟨?_, ?_, ?_, ?_, ?_, hnote.unknown⟩
  · exact h.store.visitsMono fun v hv => hv.mono (List.subset_cons_self _ _)
  · exact List.forall_mem_cons.mpr ⟨hproper, h.proper⟩
  · exact List.forall_mem_cons.mpr ⟨herrors, h.bound⟩
  · rw [List.flatMap_cons]
    exact h.numbered.prepend hfresh (Nat.zero_le _) hnext
  · refine List.forall_mem_cons.mpr ⟨fun r hr => ?_, hnote.noted⟩
    have hid := (resolve_ids program).subset (List.mem_map_of_mem hr)
    rw [Machine.depths_note ((resolve_ids program).nodup hfresh.nodup) hr,
      h.unknown r.id (hfresh.bounds r.id hid).1]
    cases r.depth <;> rfl

end Note

/-- Every visit of a program that has been run is a sound one. -/
theorem Sound.covers (h : s.Sound programs) : Covers (Visited programs) s.machine.depths where
  part := .part
  sound {v} hv := by
    induction hv with
    | @program program hprogram =>
      exact ⟨Visit.clean_program (h.bound program hprogram),
        fun r hr => h.noted program hprogram r (List.mem_reverse.mpr hr), h.proper program hprogram,
        Resolver.placed_start⟩
    | part _ hw ih => exact ih.part hw

end Session

/-- How a session runs a program under a watch. -/
noncomputable def Mode.watched (mode : Mode) (watch : Watch) (fuel : Nat) : List Stmt → Run Unit :=
  match mode with
  | program => runEach (watch.exec fuel)
  | line => runShowing (watch.eval fuel) (watch.exec fuel)

/-- A watch that is kept wherever binding has been makes no difference to a program. -/
theorem Mode.watched_agrees {visits : Visit → Prop} {depths : Std.TreeMap Nat Nat} {watch : Watch}
    (hcovers : Covers visits depths)
    (hkept : ∀ moment m, moment.Expected visits depths m → watch.condition moment m)
    {program : List Stmt} (hv : visits ⟨.stmts program, .start⟩) {m : Machine}
    (hm : m.Situated visits depths []) (mode : Mode) (fuel : Nat) :
    Run.Agrees visits (mode.watched watch fuel program) (mode.run fuel program) m
      fun _ m' => m'.Situated visits depths [] := by
  obtain ⟨heval, hexec⟩ := watch.eval_exec_agrees hcovers hkept fuel
  cases mode with
  | program => exact runEach_agrees hcovers hexec hv rfl hm
  | line => exact runShowing_agrees hcovers heval hexec hv rfl hm

namespace Session

variable {programs : List (List Stmt)} {s : Session} {program : List Stmt} {source : String}

/-- When a session accepts a source, its program joins those that have been run. -/
theorem Sound.accepted (h : s.Sound programs) (haccept : s.accepted? source = some program) :
    (⟨s.machine.note (resolve program).resolutions,
      (Grammar.readSource source s.nextId).parsed.nextId⟩ : Session).Sound (program :: programs) := by
  obtain ⟨hread, hcomplete, hempty⟩ := accepted?_eq_some_iff.mp haccept
  obtain ⟨hproper, hfresh⟩ := Grammar.numbered_of_read hread hcomplete
  exact h.accept hfresh (Grammar.le_nextId source s.nextId) hproper (List.isEmpty_iff.mp hempty)

/-- A session at rest is where the walk over a program begins. -/
theorem Sound.situated (h : s.Sound programs) (hrest : s.machine.chain = .global) :
    s.machine.Situated (Visited programs) s.machine.depths [] where
  store := h.store
  known := rfl
  aligned := hrest
  innermost _ _ hshape := nomatch hshape

/-- What a run of an accepted program comes to, with a watch or without one. -/
theorem Sound.run_agrees (h : s.Sound programs) (hrest : s.machine.chain = .global)
    (hprogram : program ∈ programs) (watch : Watch)
    (hkept : ∀ moment m, moment.Expected (Visited programs) s.machine.depths m →
      watch.condition moment m) (mode : Mode) (fuel : Nat) :
    Run.Agrees (Visited programs) (mode.watched watch fuel program) (mode.run fuel program) s.machine
      fun _ m' => m'.Situated (Visited programs) s.machine.depths [] :=
  Mode.watched_agrees h.covers hkept (.program hprogram) (h.situated hrest) mode fuel

/-- Whatever a session has run, it is sound for the programs that it has accepted. -/
theorem Reached.sound (hs : Reached programs s) : s.Sound programs := by
  induction hs with
  | start sink clock => exact sound_start sink clock
  | @submit programs s mode fuel source hs ih =>
    have hnext : (s.submit (mode.run fuel) source).2 =
        ⟨(s.submit (mode.run fuel) source).2.machine,
          (Grammar.readSource source s.nextId).parsed.nextId⟩ := by
      rw [← nextId_submit]
    rw [hnext]
    have hle := Grammar.le_nextId source s.nextId
    rcases s.submit_cases (mode.run fuel) source with
      ⟨program, haccept, hrun⟩ | ⟨haccept, hsame⟩ | ⟨haccept, program, hread, hcomplete, hnote⟩
    · have hsound := ih.accepted haccept
      have hagrees := hsound.run_agrees hs.atRest.1 List.mem_cons_self .idle
        (fun _ _ _ => trivial) mode fuel
      rw [haccept, hrun]
      exact hsound.later hagrees.after_sound (mode.run_keeps fuel program _).depths (Nat.le_refl _)
    · rw [haccept, hsame]
      exact ih.later ih.store rfl hle
    · rw [haccept, hnote]
      exact ih.note (Grammar.numbered_of_read hread hcomplete).2 hle

end Session

end Lox
