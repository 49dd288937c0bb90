import Lox.Proofs.Evaluation.Congruence
import Lox.Proofs.Evaluation.Moment
import Lox.Proofs.Evaluation.Relabeling

namespace Lox

namespace Sink

variable {s : Sink}

/-- What a sink refuses does not change by writing. -/
theorem refusal?_put (s : Sink) (pieces : List String) : (s.put pieces).1.refusal? = s.refusal? := by
  fun_induction s.put pieces with
  | case2 s piece rest _ ih => exact ih
  | _ => rfl

/-- Of two sinks that have taken the same, one refuses nothing, and the other one refuses a piece, of which
    it has taken a beginning, or takes the same again. -/
theorem put_cases (hfree : s.refusal? = fun _ _ => none)
    (refusal? : List Char → String → Option Refusal) (pieces : List String) :
    (s.put pieces).2 = none ∧
      ({ s with refusal? }.put pieces = ({ (s.put pieces).1 with refusal? }, none) ∨
        ∃ message, ({ s with refusal? }.put pieces).2 = some message ∧
          ({ s with refusal? }.put pieces).1.pieces <:+ (s.put pieces).1.pieces) := by
  induction pieces generalizing s with
  | nil => exact ⟨rfl, .inl rfl⟩
  | cons piece rest ih =>
    have htaken : s.refuses? piece = none := by simp [refuses?, hfree]
    have hrest := ih (s := s.take piece.toList) hfree
    simp only [put, htaken]
    refine ⟨hrest.1, ?_⟩
    cases hpiece : ({ s with refusal? } : Sink).refuses? piece with
    | none => exact hrest.2
    | some refusal =>
      refine .inr ⟨refusal.message, rfl, ?_⟩
      -- What is taken of the piece is a beginning of it, and stands at the end of the characters.
      have hbeginning : (piece.toList.take refusal.taken).reverse ++ s.pieces <:+
          piece.toList.reverse ++ s.pieces :=
        (List.suffix_append_self_iff.mpr (List.reverse_suffix.mpr (List.take_prefix _ _)))
      exact hbeginning.trans ((s.take piece.toList).pieces_suffix_put rest)

end Sink

/-- The machine, where the sink refuses something else. -/
def Machine.printingTo (refusal? : List Char → String → Option Refusal) (m : Machine) : Machine :=
  { m with sink := { m.sink with refusal? } }

namespace Simulation

open Run

/-- The second run prints to a sink that may refuse, and is cut where it does. -/
def truncated (refusal? : List Char → String → Option Refusal) : Simulation where
  label := .same
  machine m m' := m' = m.printingTo refusal? ∧ m.sink.refusal? = fun _ _ => none
  halt := Eq
  cut e := ∃ message line, e = .error ⟨@Fault.outputClosed message, line⟩

variable {refusal? : List Char → String → Option Refusal}

/-- What is written to a sink that may refuse follows the same to one that never does, until
    something is refused. -/
theorem write_follows_truncated (pieces : List String) (line : Nat) :
    (truncated refusal?).Same (write pieces line) (write pieces line) := by
  refine ⟨prints_write pieces line, ?_⟩
  rintro m _ ⟨rfl, hfree⟩
  obtain ⟨htaken, hboth⟩ := Sink.put_cases hfree refusal? pieces
  have hkept := m.sink.refusal?_put pieces
  unfold write
  rcases hput : m.sink.put pieces with ⟨sink, _ | _⟩
  · rw [hput] at hboth hkept
    rcases hput' : (m.printingTo refusal?).sink.put pieces with ⟨sink', _ | message⟩
    · rcases hboth with hsame | ⟨message, hmessage, -⟩
      · obtain ⟨rfl, -⟩ := Prod.mk.inj (hput'.symm.trans hsame)
        exact .ok ⟨rfl, hkept.trans hfree⟩
      · cases (congrArg Prod.snd hput').symm.trans hmessage
    · rcases hboth with hsame | ⟨_, _, hpieces⟩
      · cases (congrArg Prod.snd hput').symm.trans (congrArg Prod.snd hsame)
      · refine .cut ⟨message, line, rfl⟩ ?_
        exact (congrArg (fun put : Sink × Option String => put.1.pieces) hput') ▸ hpieces
  · rw [hput] at htaken
    cases htaken

/-- What a sink refuses changes nothing that evaluation looks at. -/
theorem lawful_truncated : (truncated refusal?).Lawful where
  store := by
    rintro m _ ⟨rfl, -⟩
    exact m.store.relabel_same.symm
  chain := by
    rintro m _ ⟨rfl, -⟩
    rfl
  pieces := by
    rintro m _ ⟨rfl, -⟩
    rfl
  depths := by
    rintro m _ ⟨rfl, -⟩ id
    rfl
  change := by
    rintro m _ ⟨rfl, hfree⟩ store chain
    rw [show store.relabel (truncated refusal?).label = store from store.relabel_same]
    exact ⟨rfl, hfree⟩
  fault _ _ := rfl
  answers := by
    rintro m _ ⟨rfl, -⟩
    rfl
  write := write_follows_truncated
  readClock := by
    refine ⟨prints_of_sink fun _ => rfl, ?_⟩
    rintro m _ ⟨rfl, hfree⟩
    exact .ok ⟨rfl, hfree⟩

/-- Checked calls follow each other up to a refusal if calls of closures do. -/
theorem checks_truncated : (truncated refusal?).Checks := by
  have hcounts : (truncated refusal?).CountsAlike := by
    refine ⟨?_, ?_⟩
    · rintro m _ ⟨rfl, -⟩
      rfl
    · rintro m _ ⟨rfl, hfree⟩ calls
      exact ⟨rfl, hfree⟩
  refine hcounts.checks lawful_truncated ?_ fun _ => rfl
  rintro m _ ⟨rfl, -⟩
  rfl

/-- What the second run prints the first begins with; and where nothing is refused, they come to the
    same. -/
theorem Matches.of_truncated {α : Type} {r r' : EStateM.Result Halt Machine α}
    (h : (truncated refusal?).Matches (fun a => a) r r') :
    (reached r').sink.pieces <:+ (reached r).sink.pieces ∧
      ((∀ message line, halt? r' ≠ some (.error ⟨@Fault.outputClosed message, line⟩)) →
        r' = mapResult (Machine.printingTo refusal?) id r) := by
  cases h with
  | ok hm =>
    obtain ⟨rfl, -⟩ := hm
    exact ⟨List.suffix_refl _, fun _ => rfl⟩
  | @error e e' m m' he hm =>
    obtain rfl : e = e' := he
    obtain ⟨rfl, -⟩ := hm
    exact ⟨List.suffix_refl _, fun _ => rfl⟩
  | cut he hpieces =>
    obtain ⟨message, line, rfl⟩ := he
    exact ⟨hpieces, fun hnot => absurd rfl (hnot message line)⟩

end Simulation

/-- The error of a `print` on a line whose value is refused, with what the sink says. -/
def Halt.refused (message : String) (line : Nat) : Halt :=
  .error ⟨@Fault.outputClosed message, line⟩

/-- A `print` on the line begins whose value is refused, and since then nothing has changed, but that the
    calls around it are over. -/
def Moment.Refused (message : String) (line : Nat) (final m : Machine) : Moment → Prop
  | .executing (.print keyword e) => keyword.line = line ∧ ∃ fuel value written refused,
      eval fuel e m = .ok value written ∧
      Run.print value line written = .error (.refused message line) refused ∧
      final = { refused with chain := final.chain, calls := final.calls }
  | _ => False

/-- A watch for the moment when the value is refused that a run ends with. -/
def Watch.forRefused (message : String) (line : Nat) (final : Machine) (alarm : Halt) : Watch :=
  ⟨fun moment m => ¬moment.Refused message line final m, alarm⟩

namespace Run

open Watch

variable {message : String} {line : Nat} {final : Machine} {alarm : Halt}

/-- The watched run goes as the run does, unless it gives the alarm; and it does give it where the run ends
    with a value that is refused. -/
structure Watched (message : String) (line : Nat) (final : Machine) (alarm : Halt) {α : Type}
    (x watched : Run α) : Prop where
  goes : ∀ m, watched m = x m ∨ ∃ m', watched m = .error alarm m'
  warns : ∀ {m m'}, x m = .error (.refused message line) m' →
    final = { m' with chain := final.chain, calls := final.calls } → ∃ m'', watched m = .error alarm m''

/-- A guard lets a run pass or stops it with the alarm. -/
theorem guard_cases {α : Type} (moment : Moment) (x : Run α) (m : Machine) :
    (forRefused message line final alarm).guard moment x m = x m ∨
      (forRefused message line final alarm).guard moment x m = .error alarm m := by
  by_cases hrefused : moment.Refused message line final m
  · exact .inr (guard_of_not_condition x fun hnot => hnot hrefused)
  · exact .inl (guard_of_condition x hrefused)

/-- A run that is watched for refusals still is behind a guard. -/
theorem Watched.guard {α : Type} {x watched : Run α} (h : Watched message line final alarm x watched)
    (moment : Moment) :
    Watched message line final alarm x ((forRefused message line final alarm).guard moment watched) := by
  refine ⟨fun m => ?_, fun {m m'} hx hfinal => ?_⟩
  · rcases guard_cases moment watched m with hsame | halarm
    · rw [hsame]
      exact h.goes m
    · exact .inr ⟨m, halarm⟩
  · rcases guard_cases moment watched m with hsame | halarm
    · rw [hsame]
      exact h.warns hx hfinal
    · exact ⟨m, halarm⟩

/-- Behind a watched run either what comes next is reached or the alarm has stopped it. -/
theorem Watched.goes_bind {α β : Type} {x watched : Run α} (h : Watched message line final alarm x watched)
    (f : α → Run β) (m : Machine) :
    (watched >>= f) m = (x >>= f) m ∨ ∃ m', (watched >>= f) m = .error alarm m' := by
  rcases h.goes m with hsame | ⟨m', halarm⟩
  · rw [bind_apply, bind_apply, hsame]
    exact .inl rfl
  · exact .inr ⟨m', bind_eq_error_iff.mpr (.inl halarm)⟩

/-- A step that prints nothing is refused nothing. -/
theorem Step.ne_refused {α : Type} {x : Run α} (hx : x.Step) (m m' : Machine) :
    x m ≠ .error (.refused message line) m' := by
  cases hx with
  | find find line hfind =>
    show orFault line (find m) m ≠ _
    cases hfound : find m with
    | ok a => nofun
    | error f =>
      intro h
      cases h
      exact hfind m _ hfound
  | assignIn owner name value =>
    dsimp only
    cases owner m <;> nofun
  | _ => nofun

/-- A sequence is watched if its parts are. The watch may go off in the first part; if it does not,
    the second begins on the same machine. -/
theorem Watched.bind {α β : Type} {x watched : Run α} {f f' : α → Run β}
    (hx : Watched message line final alarm x watched)
    (hf : ∀ a, Watched message line final alarm (f a) (f' a)) :
    Watched message line final alarm (x >>= f) (watched >>= f') := by
  refine ⟨fun m => ?_, fun {m m'} h hfinal => ?_⟩
  · rcases hx.goes_bind f' m with hsame | halarm
    · rw [hsame, bind_apply, bind_apply]
      cases x m with
      | ok a m₁ => exact (hf a).goes m₁
      | error e m₁ => exact .inl rfl
    · exact .inr halarm
  · rcases bind_eq_error_iff.mp h with h | ⟨a, m₁, hfirst, h⟩
    · exact (hx.warns h hfinal).imp fun _ h => bind_eq_error_iff.mpr (.inl h)
    · rcases hx.goes_bind f' m with hsame | halarm
      · rw [hsame, bind_apply, hfirst]
        exact (hf a).warns h hfinal
      · exact halarm

/-- A run that is watched is watched in another chain as well. -/
theorem Watched.inChain {α : Type} {x watched : Run α} (chain : Chain)
    (hx : Watched message line final alarm x watched) :
    Watched message line final alarm (Run.inChain chain x) (Run.inChain chain watched) := by
  refine ⟨fun m => ?_, fun {m m'} h hfinal => ?_⟩
  · rcases hx.goes { m with chain } with hsame | ⟨inside, h⟩
    · exact .inl (inChain_congr hsame)
    · exact .inr ⟨_, inChain_eq_error_iff.mpr ⟨inside, h, rfl⟩⟩
  · obtain ⟨inside, hinside, rfl⟩ := inChain_eq_error_iff.mp h
    obtain ⟨inside', h'⟩ := hx.warns hinside hfinal
    exact ⟨_, inChain_eq_error_iff.mpr ⟨inside', h', rfl⟩⟩

/-- A run that is watched is watched as one more active call. -/
theorem Watched.counted {α : Type} {x watched : Run α}
    (hx : Watched message line final alarm x watched) :
    Watched message line final alarm (Run.counted x) (Run.counted watched) := by
  refine ⟨fun m => ?_, fun {m m'} h hfinal => ?_⟩
  · rcases hx.goes { m with calls := m.calls + 1 } with hsame | ⟨inside, h⟩
    · exact .inl (counted_congr hsame)
    · exact .inr ⟨_, counted_eq_error_iff.mpr ⟨inside, h, rfl⟩⟩
  · obtain ⟨inside, hinside, rfl⟩ := counted_eq_error_iff.mp h
    obtain ⟨inside', h'⟩ := hx.warns hinside hfinal
    exact ⟨_, counted_eq_error_iff.mpr ⟨inside', h', rfl⟩⟩

theorem watched_step {α : Type} {x : Run α} (hx : x.Step) : Watched message line final alarm x x :=
  ⟨fun _ => .inl rfl, fun h _ => absurd h (hx.ne_refused _ _)⟩

/-- What is watched for refusals can be put together. -/
theorem congruence_watched : Congruence (Watched message line final alarm) where
  step := watched_step
  bind := .bind
  inFresh kind birth chain hx :=
    .bind (watched_step (.store (fun m => m.store.newFrame kind birth) fun m =>
      m.store.grows_newFrame kind birth)) fun frame => hx.inChain (frame :: chain)
  counted := .counted

/-- A value that is refused is that of the `print` on the line of the fault. -/
theorem line_of_print {value : Value} {keywordLine : Nat} {m m' : Machine}
    (h : print value keywordLine m = .error (.refused message line) m') : keywordLine = line := by
  rcases bind_eq_error_iff.mp h with h | ⟨pieces, m₁, -, h⟩
  · cases h
  · obtain ⟨_, -, herror⟩ := write_eq_error h
    cases herror
    rfl

/-- A watched `print` gives the alarm before its value is refused. -/
theorem Watched.print {fuel : Nat} {eval' : Expr → Run Value}
    (heval : ∀ e, Watched message line final alarm (eval fuel e) (eval' e)) (keyword : Mark) (e : Expr) :
    Watched message line final alarm
      (do let value ← eval fuel e
          Run.print value keyword.line
          return Completion.normal)
      ((forRefused message line final alarm).guard (.executing (.print keyword e))
        (do let value ← eval' e
            Run.print value keyword.line
            return Completion.normal)) := by
  refine ⟨fun m => ?_, fun {m m'} h hfinal => ?_⟩
  · rcases guard_cases (.executing (.print keyword e)) _ m with hsame | halarm
    · rw [hsame]
      exact (heval e).goes_bind _ m
    · exact .inr ⟨m, halarm⟩
  · rcases bind_eq_error_iff.mp h with h | ⟨value, written, hvalue, h⟩
    · rcases guard_cases (.executing (.print keyword e)) _ m with hsame | halarm
      · rw [hsame]
        exact ((heval e).warns h hfinal).imp fun _ h => bind_eq_error_iff.mpr (.inl h)
      · exact ⟨m, halarm⟩
    · rcases bind_eq_error_iff.mp h with h | ⟨_, m₂, -, h⟩
      · have hrefused : (Moment.executing (.print keyword e)).Refused message line final m := by
          obtain rfl := line_of_print h
          exact ⟨rfl, fuel, value, written, m', hvalue, h, hfinal⟩
        exact ⟨m, guard_of_not_condition _ fun hnot => hnot hrefused⟩
      · cases h

/-- Evaluation is watched for refusals: what is refused is the value of a `print` that it has come
    to. The induction is on the fuel. -/
theorem eval_exec_watched (fuel : Nat) :
    (∀ e,
      Watched message line final alarm (eval fuel e)
        ((forRefused message line final alarm).eval fuel e)) ∧
    (∀ s,
      Watched message line final alarm (exec fuel s)
        ((forRefused message line final alarm).exec fuel s)) := by
  induction fuel with
  | zero => exact ⟨fun _ => congruence_watched.step .outOfFuel, fun _ => congruence_watched.step .outOfFuel⟩
  | succ fuel ih =>
    obtain ⟨heval, hexec⟩ := ih
    have henter (c : Closure) (arguments : List Value) (callLine : Nat) :
        Watched message line final alarm (callClosure (exec fuel) c arguments callLine)
          ((forRefused message line final alarm).enter ((forRefused message line final alarm).exec fuel) c
            arguments callLine) :=
      (congruence_watched.callClosure hexec c arguments callLine).guard _
    refine ⟨fun e => (congruence_watched.evalNode heval henter e).guard _, fun s => ?_⟩
    cases s with
    | print keyword value => exact .print heval keyword value
    | _ =>
      refine (congruence_watched.execNode fuel heval hexec ?_).guard _
      intro _ _ h
      cases h

end Run

end Lox
