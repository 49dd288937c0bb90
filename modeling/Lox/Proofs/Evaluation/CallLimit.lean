import Lox.Proofs.Evaluation.Tally

namespace Lox

namespace Simulation

open Run

/-- The second run may have fewer calls active than the first, and is cut where that or the fuel does not
    suffice. -/
def lowered (limit lower : Nat) : Simulation where
  label := .same
  machine m m' := m' = { m with maxCalls := lower } ∧ m.maxCalls = limit
  halt := Eq
  cut e := e = .outOfFuel ∨ ∃ line, e = .error ⟨.stackOverflow, line⟩

variable {limit lower : Nat}

/-- A lower limit changes nothing that evaluation looks at. -/
theorem lawful_lowered : (lowered limit lower).Lawful := by
  refine .of_view .rfl ?_ (fun h _ _ _ _ => h) (fun _ _ => rfl) fun _ _ => rfl
  intro m store chain sink clock
  rw [show store.relabel (lowered limit lower).label = store from store.relabel_same]

/-- Calls are counted alike under both limits, up to where the lower one is reached. -/
theorem countsAlike_lowered : (lowered limit lower).CountsAlike where
  calls := by
    rintro m _ ⟨rfl, _⟩
    rfl
  count := by
    rintro m _ ⟨rfl, hlimit⟩ _
    exact ⟨rfl, hlimit⟩

/-- A call for which there is room under the lower limit has room under the other one too. -/
theorem checks_lowered (hlower : lower ≤ limit) : (lowered limit lower).Checks := by
  intro enter enter' henter callee arguments line
  have hcalled : (lowered limit lower).Same (counted (call enter callee arguments line))
      (counted (call enter' callee arguments line)) :=
    countsAlike_lowered.counted (call_follows lawful_lowered henter callee arguments line)
  have hprints : (callWithin enter callee arguments line).Prints := by
    refine Prints.bind (prints_of_constant fun _ => rfl) fun full => ?_
    split
    · exact prints_fault _ line
    · exact hcalled.prints
  refine callChecked_follows lawful_lowered ⟨hprints, ?_⟩
  rintro m _ ⟨rfl, hlimit⟩
  by_cases hroom : m.calls < lower
  · rw [callWithin_of_room (by omega), callWithin_of_room hroom]
    exact hcalled.step ⟨rfl, hlimit⟩
  · rw [callWithin_of_full (m := { m with maxCalls := lower }) (by simpa using hroom)]
    exact .cut (.inr ⟨line, rfl⟩) (hprints m)

/-- What the second run comes to without overflow, the first comes to; what it has printed before an
    overflow, the first prints too. -/
theorem Matches.of_lowered {α : Type} {r r' : EStateM.Result Halt Machine α}
    (h : (lowered limit lower).Matches (fun a => a) r r') :
    (∀ a m, r' = .ok a m → r = .ok a { m with maxCalls := limit }) ∧
    (∀ e m, r' = .error (.error e) m → e.fault ≠ .stackOverflow →
      r = .error (.error e) { m with maxCalls := limit }) ∧
    (∀ e m, r' = .error (.error e) m → e.fault = .stackOverflow →
      m.sink.pieces <:+ (reached r).sink.pieces) := by
  have hback {m m' : Machine} (hm : (lowered limit lower).machine m m') :
      { m' with maxCalls := limit } = m := by
    obtain ⟨rfl, rfl⟩ := hm
    rfl
  cases h with
  | @ok a m m' hm =>
    refine ⟨?_, nofun, nofun⟩
    rintro _ _ ⟨⟩
    rw [hback hm]
  | @error e e' m m' he hm =>
    obtain rfl : e = e' := he
    refine ⟨nofun, ?_, ?_⟩
    · rintro e _ ⟨⟩ _
      rw [hback hm]
    · rintro e _ ⟨⟩ _
      obtain ⟨rfl, _⟩ := hm
      exact List.suffix_refl _
  | cut he hpieces =>
    refine ⟨nofun, ?_, ?_⟩
    · rintro e _ ⟨⟩ hne
      rcases he with he | ⟨line, he⟩
      · cases he
      · cases he
        exact absurd rfl hne
    · rintro e _ ⟨⟩ _
      exact hpieces

end Simulation

/-- The limit to active calls is a clean cut. What ends under one limit, but for an overflow, comes to
    the same under any other that is not lower; what overflows has printed a beginning of what is printed
    under the other. And it comes to the same as a run whose calls are tallied: more calls than the limit
    are never active, and it overflows only where a call is made, with callee, arguments and their number
    in order, while just as many are. -/
theorem call_limit_cuts (mode : Mode) (program : List Stmt) (m : Machine) (hidle : m.calls = 0) :
    (∀ {limit limit' fuel fuel' : Nat}, limit ≤ limit' → fuel ≤ fuel' →
      let result := mode.run fuel program { m with maxCalls := limit }
      let result' := mode.run fuel' program { m with maxCalls := limit' }
      (∀ m₁, result = .ok () m₁ → result' = .ok () { m₁ with maxCalls := limit' }) ∧
      (∀ e m₁, result = .error (.error e) m₁ → e.fault ≠ .stackOverflow →
        result' = .error (.error e) { m₁ with maxCalls := limit' }) ∧
      (∀ e m₁, result = .error (.error e) m₁ → e.fault = .stackOverflow →
        m₁.sink.pieces <:+ (Run.reached result').sink.pieces)) ∧
    ∀ (t : Tally) (fuel : Nat), t.run mode fuel program { m with maxCalls := t.limit } =
      (mode.run fuel program).mapHalt t.halt { m with maxCalls := t.limit } := by
  refine ⟨fun {limit limit' fuel fuel'} hlimit hfuel => ?_,
    fun t fuel => Tally.run_eq mode fuel program hidle rfl⟩
  have hfollows : (Simulation.lowered limit' limit).Same (mode.run fuel' program)
      (mode.run fuel (Stmt.relabelAll .same program)) :=
    mode.run_follows Simulation.lawful_lowered (Simulation.checks_lowered hlimit)
      (.inr ⟨hfuel, .inl rfl⟩) program
  rw [Stmt.relabelAll_same] at hfollows
  have hmatch := hfollows.step (m := { m with maxCalls := limit' }) ⟨rfl, rfl⟩
  exact ⟨fun m₁ => hmatch.of_lowered.1 () m₁, hmatch.of_lowered.2.1, hmatch.of_lowered.2.2⟩

/-- `fun f() { print "a"; f(); } f();` prints one line under the limit 1, and more begin with it. -/
theorem call_limit_cuts_recursion :
    let f (id : Nat) : Expr := .call (.name ⟨id, ⟨"f", 1⟩⟩) ⟨")", 1⟩ []
    let body : List Stmt := [.print ⟨"print", 1⟩ (.literal (.string "a") 1), .expression (f 0)]
    let program : List Stmt := [.function ⟨⟨"f", 1⟩, ⟨[], body⟩⟩, .expression (f 1)]
    let m := Machine.start 1 .unlimited (.ticking 0)
    m.calls = 0 ∧ Run.halt? (Mode.program.run 9 program m) = some (.error ⟨.stackOverflow, 1⟩) ∧
      (Run.reached (Mode.program.run 9 program m)).sink.pieces = ['\n', 'a'] ∧
      ['\n', 'a'] <:+ (Run.reached (Mode.program.run 12 program { m with maxCalls := 2 })).sink.pieces := by
  intro f body program m
  have hhalt : Run.halt? (Mode.program.run 9 program m) = some (.error ⟨.stackOverflow, 1⟩) := by
    decide +kernel
  have hpieces : (Run.reached (Mode.program.run 9 program m)).sink.pieces = ['\n', 'a'] := by
    decide +kernel
  have hcuts := (call_limit_cuts .program program m rfl).1 (by decide : 1 ≤ 2) (by decide : 9 ≤ 12)
  have hbegins : (Run.reached (Mode.program.run 9 program m)).sink.pieces <:+
      (Run.reached (Mode.program.run 12 program { m with maxCalls := 2 })).sink.pieces :=
    hcuts.2.2 _ _ (Run.eq_error_of_halt? hhalt) rfl
  rw [hpieces] at hbegins
  exact ⟨rfl, hhalt, hpieces, hbegins⟩

end Lox
