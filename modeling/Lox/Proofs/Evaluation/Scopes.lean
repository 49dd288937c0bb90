import Mathlib.Data.Set.Basic
import Lox.Proofs.Session.History

namespace Lox

/-- The names of a frame, with or without a value. -/
def Store.namesOf (s : Store) (frame : Nat) : Set String :=
  {name | s.Has frame name}

/-- No frame that is there already goes away, loses a name or gets one. -/
def Machine.SameScopes (m m' : Machine) : Prop :=
  ∀ {frame kind}, m.store.kind? frame = some kind →
    m'.store.kind? frame = some kind ∧ m'.store.namesOf frame = m.store.namesOf frame

/-- No frame that is there already goes away or loses a name, and only the innermost frame in view
    gets names, all of them among those that are declared. -/
def Machine.ScopesUpTo (declared : List String) (m m' : Machine) : Prop :=
  m'.chain = m.chain ∧
  ∀ {frame kind}, m.store.kind? frame = some kind →
    m'.store.kind? frame = some kind ∧
    (m.chain.head? ≠ some frame → m'.store.namesOf frame = m.store.namesOf frame) ∧
    m.store.namesOf frame ⊆ m'.store.namesOf frame ∧
    m'.store.namesOf frame ⊆ m.store.namesOf frame ∪ {name | name ∈ declared}

namespace Machine.Later

variable {declared : List String} {m m' : Machine}

theorem namesOf_subset (h : m.Later declared m') (frame : Nat) :
    m.store.namesOf frame ⊆ m'.store.namesOf frame :=
  fun _ hname => h.grows.names hname

/-- A machine that is later has the names that it had, and the declared ones in the innermost frame
    at most. -/
theorem scopesUpTo (h : m.Later declared m') : m.ScopesUpTo declared m' := by
  refine ⟨h.chain, fun {frame kind} hkind => ?_⟩
  have hold : (m.store.kind? frame).isSome := by simp [hkind]
  refine ⟨h.grows.kinds hkind, fun hother => ?_, h.namesOf_subset frame, fun name hname => ?_⟩
  · refine Set.Subset.antisymm (fun name hname => ?_) (h.namesOf_subset frame)
    rcases h.names hold hname with hbefore | ⟨hhead, _⟩
    · exact hbefore
    · exact absurd hhead hother
  · exact (h.names hold hname).imp id And.right

/-- Where nothing is declared the innermost frame is no exception. -/
theorem sameScopes (h : m.Later [] m') : m.SameScopes m' := by
  intro frame kind hkind
  obtain ⟨hkept, _, hbefore, hafter⟩ := h.scopesUpTo.2 hkind
  refine ⟨hkept, Set.Subset.antisymm ?_ hbefore⟩
  simpa using hafter

end Machine.Later

/-- Entering a closure, whoever enters it, brings no name into a frame that is there already; its
    parameters and what its body declares are in a frame of its own. -/
theorem callClosure_sameScopes (fuel : Nat) (c : Closure) (arguments : List Value) (line : Nat)
    (m : Machine) :
    m.SameScopes ((Run.callClosure (exec fuel) c arguments line).after m) :=
  (Run.keeps_callClosure (exec_keeps fuel) c arguments line m).sameScopes

/-- Neither does a call of a value, with the checks of a program or, by a host, without. -/
theorem call_sameScopes (fuel : Nat) (callee : Value) (arguments : List Value) (line : Nat)
    (m : Machine) :
    m.SameScopes ((Run.callChecked (Run.callClosure (exec fuel)) callee arguments line).after m) ∧
      m.SameScopes ((Run.call (Run.callClosure (exec fuel)) callee arguments line).after m) := by
  have henter (c : Closure) (arguments : List Value) (line : Nat) :
      (Run.callClosure (exec fuel) c arguments line).Keeps [] :=
    Run.keeps_callClosure (exec_keeps fuel) c arguments line
  exact ⟨(Run.keeps_callChecked henter callee arguments line m).sameScopes,
    (Run.keeps_call henter callee arguments line m).sameScopes⟩

/-- A source can bring only global names into a session, and only those that the statements of its
    program declare. -/
theorem Session.scopesUpTo_submit (s : Session) (mode : Mode) (fuel : Nat) (source : String) :
    s.machine.ScopesUpTo ((s.accepted? source).elim [] (·.flatMap Stmt.declares))
      (s.submit (mode.run fuel) source).2.machine := by
  rcases s.submit_cases (mode.run fuel) source with
    ⟨program, haccept, hrun⟩ | ⟨hnone, hsame⟩ | ⟨hnone, program, _, _, hnote⟩
  · rw [hrun, haccept]
    exact (mode.run_keeps fuel program (s.machine.note (resolve program).resolutions)).scopesUpTo
  · rw [hsame, hnone]
    exact (Machine.Later.refl s.machine).scopesUpTo
  · rw [hnote, hnone]
    exact (Machine.Later.refl (s.machine.note (resolve program).resolutions)).scopesUpTo

/-- Scopes do not leak. From whatever machine, and however it ends, an expression leaves the names of
    every frame that is there already as they are, and so do a block, a closure that is entered and a
    call; a statement leaves those of every frame but the innermost one in view, from which it takes
    no name, and into which it brings only names that it declares itself. So of all frames a source
    given to a session changes the names of the global one only, by what the statements of its
    program declare. -/
theorem scopes_do_not_leak (fuel : Nat) (m : Machine) :
    (∀ e, m.SameScopes ((eval fuel e).after m)) ∧
    (∀ s : Stmt, m.ScopesUpTo s.declares ((exec fuel s).after m)) ∧
    (∀ body, m.SameScopes ((exec fuel (.block body)).after m)) ∧
    (∀ c arguments line,
      m.SameScopes ((Run.callClosure (exec fuel) c arguments line).after m)) ∧
    (∀ callee arguments line,
      m.SameScopes ((Run.callChecked (Run.callClosure (exec fuel)) callee arguments line).after m) ∧
        m.SameScopes ((Run.call (Run.callClosure (exec fuel)) callee arguments line).after m)) ∧
    (∀ programs s, Session.Reached programs s → ∀ (mode : Mode) source,
      s.machine.chain = .global ∧
        s.machine.ScopesUpTo ((s.accepted? source).elim [] (·.flatMap Stmt.declares))
          (s.submit (mode.run fuel) source).2.machine) :=
  ⟨fun e => (eval_keeps fuel e m).sameScopes,
    fun s => (exec_keeps fuel s m).scopesUpTo,
    fun body => (exec_keeps fuel (.block body) m).sameScopes,
    fun c arguments line => callClosure_sameScopes fuel c arguments line m,
    fun callee arguments line => call_sameScopes fuel callee arguments line m,
    fun _ s hs mode source => ⟨hs.atRest.1, s.scopesUpTo_submit mode fuel source⟩⟩

/-- A source whose function declares variables, in its body and in a block, brings in the name of the
    function only. -/
theorem scopes_do_not_leak_local :
    let s := Session.start .unlimited (.ticking 0)
    let source := "fun f(a) { var x = a; { var y = x; } return x; } print f(1);"
    let m := (s.submit (Mode.program.run 9) source).2.machine
    Session.Reached [] s ∧ s.machine.store.kind? globalFrame = some .global ∧
      (s.accepted? source).elim [] (·.flatMap Stmt.declares) = ["f"] ∧
      m.sink.pieces = ['\n', '1'] ∧
      m.store.namesOf globalFrame ⊆ s.machine.store.namesOf globalFrame ∪ {name | name ∈ ["f"]} := by
  intro s source m
  have hkind : s.machine.store.kind? globalFrame = some .global := rfl
  have hdeclares : (s.accepted? source).elim [] (·.flatMap Stmt.declares) = ["f"] := by
    decide +kernel
  have hprinted : m.sink.pieces = ['\n', '1'] := by decide +kernel
  have hscopes := ((scopes_do_not_leak 9 s.machine).2.2.2.2.2 [] s (.start _ _) .program source).2
  rw [hdeclares] at hscopes
  exact ⟨.start _ _, hkind, hdeclares, hprinted, (hscopes.2 hkind).2.2.2⟩

end Lox
