import Lox.Proofs.Run.Keeping
import Lox.Proofs.Store.Relabeling

namespace Lox

theorem Sink.pieces_suffix_take (s : Sink) (text : List Char) : s.pieces <:+ (s.take text).pieces :=
  List.suffix_append _ _

/-- Handing pieces over takes nothing back. -/
theorem Sink.pieces_suffix_put (s : Sink) (pieces : List String) :
    s.pieces <:+ (s.put pieces).1.pieces := by
  fun_induction s.put pieces with
  | case1 => exact List.suffix_refl _
  | case2 s piece rest _ ih => exact (s.pieces_suffix_take _).trans ih
  | case3 s piece rest refusal => exact s.pieces_suffix_take _

namespace Run

variable {α β : Type}

/-- The machine that comes with a result. -/
def reached : EStateM.Result Halt Machine α → Machine
  | .ok _ m | .error _ m => m

/-- The halt that comes with a result, if the run did not come to its end. -/
def halt? : EStateM.Result Halt Machine α → Option Halt
  | .ok _ _ => none
  | .error e _ => some e

/-- A result with a halt in it is that halt on the machine that was reached. -/
theorem eq_error_of_halt? {r : EStateM.Result Halt Machine α} {e : Halt} (h : halt? r = some e) :
    r = .error e (reached r) := by
  cases r with
  | ok a m => cases h
  | error e' m =>
    obtain rfl := Option.some.inj h
    rfl

/-- What has been printed stays printed. -/
def Prints (x : Run α) : Prop :=
  ∀ m : Machine, m.sink.pieces <:+ (x.after m).sink.pieces

theorem prints_of_sink {x : Run α} (h : ∀ m, (x.after m).sink = m.sink) : x.Prints :=
  fun m => h m ▸ List.suffix_refl _

theorem prints_of_constant {x : Run α} (h : ∀ m, (x.after m) = m) : x.Prints :=
  prints_of_sink fun m => congrArg Machine.sink (h m)

/-- A sequence of runs takes nothing back if none of them does. -/
theorem Prints.bind {x : Run α} {k : α → Run β} (hx : x.Prints) (hk : ∀ a, (k a).Prints) :
    (x >>= k).Prints := by
  intro m
  apply after_bind (P := fun m' => m.sink.pieces <:+ m'.sink.pieces) (hx m)
  intro a m₁ _ hfirst
  exact hfirst.trans (hk a m₁)

/-- A run in another chain writes to the same sink. -/
theorem Prints.inChain {chain : Chain} {x : Run α} (hx : x.Prints) : (inChain chain x).Prints := by
  intro m
  rw [after_inChain]
  exact hx { m with chain }

/-- A call writes to the same sink. -/
theorem Prints.counted {x : Run α} (hx : x.Prints) : (counted x).Prints := by
  intro m
  rw [after_counted]
  exact hx { m with calls := m.calls + 1 }

/-- What has been written is behind all that was written before. -/
theorem prints_write (pieces : List String) (line : Nat) : (write pieces line).Prints := by
  intro m
  rw [after_write]
  exact m.sink.pieces_suffix_put pieces

end Run

/-- What two runs have to do with each other: how the labels of the code change, which machines and
    which halts belong together, and with what halts the second run may stop before the first. -/
structure Simulation where
  label : Relabeling
  machine : Machine → Machine → Prop
  halt : Halt → Halt → Prop
  cut : Halt → Prop

namespace Simulation

open Run

variable {S : Simulation} {α β γ δ : Type}

/-- The second result is that of the first, as far as the first is not that of a run that went on where
    the second was cut. -/
inductive Matches (S : Simulation) (g : α → β) :
    EStateM.Result Halt Machine α → EStateM.Result Halt Machine β → Prop
  | ok {a : α} {m m' : Machine} (hm : S.machine m m') : S.Matches g (.ok a m) (.ok (g a) m')
  | error {e e' : Halt} {m m' : Machine} (he : S.halt e e') (hm : S.machine m m') :
    S.Matches g (.error e m) (.error e' m')
  | cut {r : EStateM.Result Halt Machine α} {e : Halt} {m' : Machine} (he : S.cut e)
    (hpieces : m'.sink.pieces <:+ (reached r).sink.pieces) : S.Matches g r (.error e m')

/-- The second run follows the first, up to a change of the result. -/
structure Follows (S : Simulation) (g : α → β) (x : Run α) (x' : Run β) : Prop where
  prints : x.Prints
  step : ∀ {m m'}, S.machine m m' → S.Matches g (x m) (x' m')

/-- The second run follows the first and comes to the same. -/
abbrev Same (S : Simulation) (x x' : Run α) : Prop :=
  S.Follows (fun a => a) x x'

/-- What makes a simulation one of the evaluation: related machines hold the same, but for the labels
    of their code, and keep their relation when that changes. -/
structure Lawful (S : Simulation) : Prop where
  store : ∀ {m m'}, S.machine m m' → m'.store = m.store.relabel S.label
  chain : ∀ {m m'}, S.machine m m' → m'.chain = m.chain
  pieces : ∀ {m m'}, S.machine m m' → m'.sink.pieces = m.sink.pieces
  depths : ∀ {m m'}, S.machine m m' → ∀ id : Nat, m'.depths[S.label.id id]? = m.depths[id]?
  change : ∀ {m m'}, S.machine m m' → ∀ store chain,
    S.machine { m with store, chain } { m' with store := store.relabel S.label, chain }
  fault : ∀ {e : Fault} (line : Nat), e ≠ .stackOverflow →
    S.halt (.error ⟨e, line⟩) (.error ⟨e, S.label.line line⟩)
  answers : ∀ {m m'}, S.machine m m' → m'.answers = m.answers
  write : ∀ pieces line, S.Same (write pieces line) (write pieces (S.label.line line))
  readClock : S.Same readClock readClock

/-- A simulation is lawful whose second machine is the first as one sees it under some view, if the view
    shows what the first one holds, but for the labels. -/
theorem Lawful.of_view {view : Machine → Machine} {known : Machine → Prop}
    (hmachine : ∀ {m m'}, S.machine m m' ↔ m' = view m ∧ known m)
    (hview : ∀ m store chain sink clock, view { m with store, chain, sink, clock } =
      { view m with store := store.relabel S.label, chain, sink, clock, answers := m.answers })
    (hknown : ∀ {m}, known m → ∀ store chain sink clock, known { m with store, chain, sink, clock })
    (hdepths : ∀ {m}, known m → ∀ id : Nat, (view m).depths[S.label.id id]? = m.depths[id]?)
    (hfault : ∀ {e : Fault} (line : Nat), e ≠ .stackOverflow →
      S.halt (.error ⟨e, line⟩) (.error ⟨e, S.label.line line⟩)) : S.Lawful := by
  -- The machine that answers is the view of the first with four of its parts set, whatever they
  -- are.
  have hshows (m : Machine) := hview m m.store m.chain m.sink m.clock
  have hchange {m m' : Machine} (hm : S.machine m m') (store : Store) (chain : Chain) (sink : Sink)
      (clock : Clock) : S.machine { m with store, chain, sink, clock }
        { m' with store := store.relabel S.label, chain, sink, clock, answers := m.answers } := by
    obtain ⟨rfl, h⟩ := hmachine.mp hm
    exact hmachine.mpr ⟨(hview m store chain sink clock).symm, hknown h store chain sink clock⟩
  have hseen {m m' : Machine} (hm : S.machine m m') : m' = { m' with
      store := m.store.relabel S.label, chain := m.chain, sink := m.sink, clock := m.clock,
      answers := m.answers } := by
    obtain ⟨rfl, -⟩ := hmachine.mp hm
    exact hshows m
  refine
    { store := fun hm => congrArg Machine.store (hseen hm)
      chain := fun hm => (congrArg Machine.chain (hseen hm) :)
      pieces := fun hm => (congrArg (fun m => m.sink.pieces) (hseen hm) :)
      depths := fun hm => ?_
      change := fun {m m'} hm store chain => ?_
      fault := hfault
      answers := fun hm => (congrArg Machine.answers (hseen hm) :)
      write := fun pieces line => ⟨prints_write pieces line, fun {m m'} hm => ?_⟩
      readClock := ⟨prints_of_sink fun _ => rfl, fun {m m'} hm => ?_⟩ }
  · obtain ⟨rfl, h⟩ := hmachine.mp hm
    exact hdepths h
  · rw [hseen hm]
    exact hchange hm store chain m.sink m.clock
  · rw [hseen hm]
    unfold Run.write
    dsimp only
    rcases m.sink.put pieces with ⟨sink, _ | message⟩
    · exact .ok (hchange hm m.store m.chain sink m.clock)
    · exact .error (hfault line nofun) (hchange hm m.store m.chain sink m.clock)
  · rw [hseen hm]
    exact .ok (hchange hm m.store m.chain m.sink m.clock.later)

/-- One sequence follows another part by part. Where the first part is cut short on either side, so
    is the sequence. -/
theorem Follows.bind {g : α → β} {h : γ → δ} {x : Run α} {x' : Run β} {k : α → Run γ}
    {k' : β → Run δ} (hx : S.Follows g x x') (hk : ∀ a, S.Follows h (k a) (k' (g a))) :
    S.Follows h (x >>= k) (x' >>= k') := by
  refine ⟨hx.prints.bind fun a => (hk a).prints, fun {m m'} hm => ?_⟩
  have hmatch := hx.step hm
  rw [bind_apply, bind_apply]
  generalize x m = r at hmatch
  generalize x' m' = r' at hmatch
  cases hmatch with
  | ok hm => exact (hk _).step hm
  | error he hm => exact .error he hm
  | cut he hpieces =>
    refine .cut he (hpieces.trans ?_)
    cases r with
    | ok a m => exact (hk a).prints m
    | error e m => exact List.suffix_refl _

theorem Same.bind {h : γ → δ} {x x' : Run α} {k : α → Run γ} {k' : α → Run δ} (hx : S.Same x x')
    (hk : ∀ a, S.Follows h (k a) (k' a)) : S.Follows h (x >>= k) (x' >>= k') :=
  Follows.bind hx hk

theorem follows_pure {g : α → β} (a : α) : S.Follows g (pure a) (pure (g a)) :=
  ⟨prints_of_constant fun _ => rfl, fun hm => .ok hm⟩

theorem same_pure (a : α) : S.Same (pure a : Run α) (pure a) :=
  follows_pure a

namespace Lawful

variable (hS : S.Lawful)
include hS

/-- A fault follows the same fault on a line that goes with its own. Only the overflow of the stack
    is left out, which may be a cut. -/
theorem fault_follows {g : α → β} {e : Fault} (line : Nat) (he : e ≠ .stackOverflow) :
    S.Follows g (Run.fault e line) (Run.fault e (S.label.line line)) :=
  ⟨prints_of_constant fun _ => rfl, fun hm => .error (hS.fault line he) hm⟩

/-- The second run is cut right here. -/
theorem cut_follows {g : α → β} {x : Run α} {e : Halt} (hx : x.Prints) (he : S.cut e) :
    S.Follows g x (throw e) :=
  ⟨hx, fun hm => .cut he (hS.pieces hm ▸ hx _)⟩

/-- What is found or else is a fault. -/
theorem orFault_follows {find find' : Machine → Except Fault α} (line : Nat)
    (hfind : ∀ {m m'}, S.machine m m' → find' m' = find m)
    (hfault : ∀ m, find m ≠ .error .stackOverflow) :
    S.Same (fun m => orFault line (find m) m) (fun m => orFault (S.label.line line) (find' m) m) := by
  refine ⟨prints_of_constant fun m => after_orFault line (find m) m, fun {m m'} hm => ?_⟩
  show S.Matches _ (orFault line (find m) m) (orFault _ (find' m') m')
  rw [hfind hm]
  have hnot := hfault m
  cases hfound : find m with
  | ok a => exact .ok hm
  | error e =>
    refine .error (hS.fault line ?_) hm
    rintro rfl
    exact hnot hfound

/-- What is looked up in related stores is related. -/
theorem query_follows {g : α → β} {find : Store → α} {find' : Store → β}
    (hfind : ∀ s, find' (s.relabel S.label) = g (find s)) :
    S.Follows g (query find) (query find') := by
  refine ⟨prints_of_constant fun _ => rfl, fun {m m'} hm => ?_⟩
  unfold query
  rw [hS.store hm, hfind]
  exact .ok hm

/-- The chains in view are the same on both sides. -/
theorem chain_follows : S.Same Run.chain Run.chain := by
  refine ⟨prints_of_constant fun _ => rfl, fun {m m'} hm => ?_⟩
  unfold Run.chain
  rw [hS.chain hm]
  exact .ok hm

/-- Only the store changes. -/
theorem restore {m m' : Machine} (hm : S.machine m m') (s : Store) :
    S.machine { m with store := s } { m' with store := s.relabel S.label } := by
  have hchange := hS.change hm s m.chain
  have hchain : { m' with store := s.relabel S.label, chain := m.chain } =
      { m' with store := s.relabel S.label } := by rw [← hS.chain hm]
  rwa [hchain] at hchange

/-- Only the chain changes. -/
theorem rechain {m m' : Machine} (hm : S.machine m m') (chain : Chain) :
    S.machine { m with chain } { m' with chain } := by
  have hchange := hS.change hm m.store chain
  have hstore : { m' with store := m.store.relabel S.label, chain } = { m' with chain } := by
    rw [← hS.store hm]
  rwa [hstore] at hchange

/-- What is added to related stores leaves them related. -/
theorem allocate_follows {g : α → β} {add : Store → α × Store} {add' : Store → β × Store}
    (hadd : ∀ s, add' (s.relabel S.label) = (g (add s).1, (add s).2.relabel S.label)) :
    S.Follows g (allocate add) (allocate add') := by
  refine ⟨prints_of_sink fun _ => rfl, fun {m m'} hm => ?_⟩
  unfold allocate
  rw [hS.store hm, hadd]
  exact .ok (hS.restore hm _)

/-- The same change of related stores leaves them related. -/
theorem modifyStore_follows {change : Store → Store}
    (hchange : ∀ s, change (s.relabel S.label) = (change s).relabel S.label) :
    S.Same (modifyStore change) (modifyStore change) := by
  refine ⟨prints_of_sink fun _ => rfl, fun {m m'} hm => ?_⟩
  have hstore : change m'.store = (change m.store).relabel S.label := by rw [hS.store hm, hchange]
  have hnext := hS.restore hm (change m.store)
  rw [← hstore] at hnext
  exact .ok hnext

/-- What follows another run still does so in another chain. -/
theorem inChain_follows {g : α → β} {x : Run α} {x' : Run β} (hx : S.Follows g x x')
    (chain : Chain) : S.Follows g (inChain chain x) (inChain chain x') := by
  refine ⟨hx.prints.inChain, fun {m m'} hm => ?_⟩
  have hback {m₁ m₁' : Machine} (hm₁ : S.machine m₁ m₁') :
      S.machine { m₁ with chain := m.chain } { m₁' with chain := m'.chain } := by
    rw [hS.chain hm]
    exact hS.rechain hm₁ m.chain
  have hmatch := hx.step (hS.rechain hm chain)
  unfold inChain
  generalize x { m with chain } = r at hmatch
  generalize x' { m' with chain } = r' at hmatch
  cases hmatch with
  | ok hm₁ => exact .ok (hback hm₁)
  | error he hm₁ => exact .error he (hback hm₁)
  | cut he hpieces =>
    refine .cut he ?_
    cases r <;> exact hpieces

/-- The same definition on both sides. -/
theorem define_follows (name : String) (value : Value) : S.Same (define name value) (define name value) := by
  refine ⟨prints_of_sink fun _ => rfl, fun {m m'} hm => ?_⟩
  have hstore : m'.store.define m'.chain name value =
      (m.store.define m.chain name value).relabel S.label := by
    rw [hS.store hm, hS.chain hm, Store.define_relabel]
  have hnext := hS.restore hm (m.store.define m.chain name value)
  rw [← hstore] at hnext
  exact .ok hnext

/-- The same declaration on both sides. -/
theorem declare_follows (name : String) : S.Same (declare name) (declare name) := by
  refine ⟨prints_of_sink fun _ => rfl, fun {m m'} hm => ?_⟩
  have hstore : m'.store.declare m'.chain name =
      (m.store.declare m.chain name).relabel S.label := by
    rw [hS.store hm, hS.chain hm, Store.declare_relabel]
  have hnext := hS.restore hm (m.store.declare m.chain name)
  rw [← hstore] at hnext
  exact .ok hnext

/-- Related machines find the same value for an occurrence and its image. -/
theorem lookUp_eq {m m' : Machine} (hm : S.machine m m') (ref : Ref) :
    m'.lookUp (ref.relabel S.label) = m.lookUp ref := by
  unfold Machine.lookUp
  dsimp only [Ref.relabel, Mark.relabel]
  rw [hS.depths hm, hS.store hm, hS.chain hm, Store.get_relabel]
  simp only [Store.getAt?_relabel]

/-- A read follows the read of the same occurrence. -/
theorem read_follows (ref : Ref) : S.Same (read ref) (read (ref.relabel S.label)) := by
  refine hS.orFault_follows ref.mark.line (fun hm => hS.lookUp_eq hm ref) fun m => ?_
  unfold Machine.lookUp Store.get
  dsimp only
  split <;> split <;> nofun

/-- An assignment to a frame matches the same one on the other side. -/
theorem assignIn_matches {m m' : Machine} (hm : S.machine m m') (owner : Option Nat) (name : Mark)
    (value : Value) :
    S.Matches (fun a => a) (assignIn owner name value m)
      (assignIn owner (name.relabel S.label) value m') := by
  cases owner with
  | none => exact .error (hS.fault name.line nofun) hm
  | some frame =>
    have hnext := hS.restore hm (m.store.setSlot frame name.lexeme (.set value))
    have hstore : m'.store.setSlot frame name.lexeme (.set value) =
        (m.store.setSlot frame name.lexeme (.set value)).relabel S.label := by
      rw [hS.store hm, Store.setSlot_relabel]
    rw [← hstore] at hnext
    exact .ok hnext

/-- An assignment follows the assignment to the same occurrence. -/
theorem assign_follows (ref : Ref) (value : Value) :
    S.Same (assign ref value) (assign (ref.relabel S.label) value) := by
  refine ⟨prints_of_sink fun m => ?_, fun {m m'} hm => ?_⟩
  · unfold after assign
    cases m.owner? ref <;> rfl
  · have howner : m'.owner? (ref.relabel S.label) = m.owner? ref := by
      unfold Machine.owner?
      dsimp only [Ref.relabel, Mark.relabel]
      rw [hS.depths hm, hS.store hm, hS.chain hm, Store.owner?_relabel]
      simp only [Store.ownerAt?_relabel]
    unfold assign
    rw [howner]
    exact hS.assignIn_matches hm _ ref.mark value

/-- A value prints alike, since its text does not tell the labels. -/
theorem print_follows (value : Value) (line : Nat) :
    S.Same (print value line) (print value (S.label.line line)) := by
  exact Same.bind (hS.query_follows fun s => s.pieces_relabel S.label value) fun pieces =>
    hS.write (pieces ++ ["\n"]) line

/-- A host answers alike, since it is asked with the same values. -/
theorem callHost_follows (name : String) (arguments : List Value) (line : Nat) :
    S.Same (callHost name arguments line) (callHost name arguments (S.label.line line)) := by
  refine hS.orFault_follows line (fun hm => ?_) fun m => ?_
  · unfold Machine.answer
    rw [hS.answers hm]
  · unfold Machine.answer
    split <;> nofun

end Lawful

end Simulation

end Lox
