import Lox.Evaluation.Call
import Lox.Proofs.Store.Growth

namespace Lox

/-- A machine that is reached from another by a run that is over, and that may have brought in the
    names `new` in the innermost frame. -/
structure Machine.Later (new : List String) (m m' : Machine) : Prop where
  chain : m'.chain = m.chain
  depths : m'.depths = m.depths
  calls : m'.calls = m.calls
  maxCalls : m'.maxCalls = m.maxCalls
  grows : m.store.Grows m'.store
  names : ∀ {frame name}, (m.store.kind? frame).isSome → m'.store.Has frame name →
    m.store.Has frame name ∨ (m.chain.head? = some frame ∧ name ∈ new)

namespace Machine.Later

variable {new : List String} {m m₁ m₂ : Machine}

theorem refl (m : Machine) : m.Later new m :=
  ⟨rfl, rfl, rfl, rfl, .refl _, fun _ h => .inl h⟩

/-- A run after another one brings in what either of them does. -/
theorem trans (h : m.Later new m₁) (h' : m₁.Later new m₂) : m.Later new m₂ where
  chain := h'.chain.trans h.chain
  depths := h'.depths.trans h.depths
  calls := h'.calls.trans h.calls
  maxCalls := h'.maxCalls.trans h.maxCalls
  grows := h.grows.trans h'.grows
  names {frame name} hold hnow := by
    obtain ⟨kind, hkind⟩ := Option.isSome_iff_exists.mp hold
    have hmiddle := h.grows.kinds hkind
    rcases h'.names (by simp [hmiddle]) hnow with hbefore | ⟨hhead, hnew⟩
    · exact h.names hold hbefore
    · exact .inr ⟨h.chain ▸ hhead, hnew⟩

theorem mono {more : List String} (hsub : new ⊆ more) (h : m.Later new m₁) : m.Later more m₁ :=
  { h with names := fun hold hnow => (h.names hold hnow).imp id fun ⟨hh, hn⟩ => ⟨hh, hsub hn⟩ }

/-- Only the store has changed, and no old frame has a new name. -/
theorem of_adds {store : Store} (h : m.store.Adds store) : m.Later new { m with store } :=
  ⟨rfl, rfl, rfl, rfl, h.toGrows, fun hold hnow => .inl (h.noNames hold hnow)⟩

/-- What happens in view of a new frame concerns, of all frames, that frame only. -/
theorem of_fresh {kind : FrameKind} {birth : Option Birth} {chain : Chain}
    (h : ({ m with store := (m.store.newFrame kind birth).2,
                   chain := (m.store.newFrame kind birth).1 :: chain } : Machine).Later new m₁) :
    m.Later [] { m₁ with chain := m.chain } where
  chain := rfl
  depths := h.depths
  calls := h.calls
  maxCalls := h.maxCalls
  grows := (Store.grows_newFrame _ kind birth).trans h.grows
  names {frame name} hold hnow := by
    have hadds := Store.adds_newFrame m.store kind birth
    obtain ⟨k, hk⟩ := Option.isSome_iff_exists.mp hold
    have hlater : ((m.store.newFrame kind birth).2.kind? frame).isSome := by simp [hadds.kinds hk]
    rcases h.names hlater hnow with hbefore | ⟨hhead, _⟩
    · exact .inl (hadds.noNames hold hbefore)
    · have hfresh : m.store.frames.size = frame := by simpa [Store.newFrame] using hhead
      simp [← hfresh, Store.kind?_size] at hold

end Machine.Later

/-- An assignment goes to a frame that has the name. -/
theorem Machine.has_of_owner? {m : Machine} {ref : Ref} {frame : Nat}
    (h : m.owner? ref = some frame) : m.store.Has frame ref.mark.lexeme := by
  unfold owner? at h
  split at h
  · exact Store.has_of_owner? h
  · exact Store.has_of_ownerAt? h

namespace Run

variable {α β : Type} {new : List String}

/-- The machine that a run leaves behind, however it ends. -/
def after (x : Run α) (m : Machine) : Machine :=
  match x m with
  | .ok _ m' | .error _ m' => m'

/-- However the run ends, it has brought no name but these into the innermost frame, and everything
    else about the machine that it may not touch is as before. -/
def Keeps (new : List String) (x : Run α) : Prop :=
  ∀ m : Machine, m.Later new (x.after m)

theorem after_of_ok {x : Run α} {m m' : Machine} {a : α} (h : x m = .ok a m') :
    x.after m = m' := by
  simp [after, h]

theorem after_of_error {x : Run α} {m m' : Machine} {e : Halt} (h : x m = .error e m') :
    x.after m = m' := by
  simp [after, h]

theorem Keeps.ok {x : Run α} (hx : x.Keeps new) {m m' : Machine} {a : α} (h : x m = .ok a m') :
    m.Later new m' :=
  after_of_ok h ▸ hx m

theorem Keeps.error {x : Run α} (hx : x.Keeps new) {m m' : Machine} {e : Halt}
    (h : x m = .error e m') : m.Later new m' :=
  after_of_error h ▸ hx m

theorem Keeps.mono {more : List String} {x : Run α} (hsub : new ⊆ more) (hx : x.Keeps new) :
    x.Keeps more :=
  fun m => (hx m).mono hsub

theorem Keeps.weaken {x : Run α} (hx : x.Keeps []) : x.Keeps new :=
  hx.mono (List.nil_subset new)

theorem keeps_pure (a : α) : (pure a : Run α).Keeps new :=
  fun m => .refl m

/-- A sequence of two runs, as the machine goes through it. -/
theorem bind_apply (x : Run α) (f : α → Run β) (m : Machine) :
    (x >>= f) m = match x m with
      | .ok a m' => f a m'
      | .error e m' => .error e m' := by
  simp only [bind, EStateM.bind]
  cases x m <;> rfl

/-- What a sequence leaves behind has a property if the first run leaves it behind and the second
    keeps it. -/
theorem after_bind {P : Machine → Prop} {x : Run α} {f : α → Run β} {m : Machine}
    (hx : P (x.after m)) (hf : ∀ a m₁, x m = .ok a m₁ → P m₁ → P ((f a).after m₁)) :
    P ((x >>= f).after m) := by
  unfold after at hx ⊢
  rw [bind_apply]
  cases hfirst : x m with
  | ok a m₁ =>
    rw [hfirst] at hx
    exact hf a m₁ hfirst hx
  | error e m₁ =>
    rw [hfirst] at hx
    exact hx

/-- A sequence of two runs ends with a result if both runs do. -/
theorem bind_eq_ok_iff {x : Run α} {f : α → Run β} {b : β} {m m' : Machine} :
    (x >>= f) m = .ok b m' ↔ ∃ a m₁, x m = .ok a m₁ ∧ f a m₁ = .ok b m' := by
  rw [bind_apply]
  cases x m with
  | ok a m₁ =>
    refine ⟨fun h => ⟨a, m₁, rfl, h⟩, ?_⟩
    rintro ⟨_, _, hx, h⟩
    cases hx
    exact h
  | error e m₁ => exact ⟨nofun, fun ⟨_, _, hx, _⟩ => nomatch hx⟩

/-- A question about the store changes nothing. -/
theorem query_eq_ok_iff {find : Store → α} {a : α} {m m' : Machine} :
    query find m = .ok a m' ↔ find m.store = a ∧ m = m' := by
  rw [query, EStateM.Result.ok.injEq]

/-- A sequence of two runs halts where one of them does. -/
theorem bind_eq_error_iff {x : Run α} {f : α → Run β} {e : Halt} {m m' : Machine} :
    (x >>= f) m = .error e m' ↔
      x m = .error e m' ∨ ∃ a m₁, x m = .ok a m₁ ∧ f a m₁ = .error e m' := by
  rw [bind_apply]
  cases x m with
  | ok a m₁ =>
    refine ⟨fun h => .inr ⟨a, m₁, rfl, h⟩, ?_⟩
    rintro (h | ⟨_, _, hx, h⟩)
    · cases h
    · cases hx
      exact h
  | error e' m₁ =>
    refine ⟨fun h => .inl (by cases h; rfl), ?_⟩
    rintro (h | ⟨_, _, hx, _⟩)
    · cases h
      rfl
    · cases hx

/-- A run in another chain ends as it does there, with the chain before put back. -/
theorem inChain_eq_ok_iff {chain : Chain} {x : Run α} {a : α} {m m' : Machine} :
    inChain chain x m = .ok a m' ↔
      ∃ inside, x { m with chain } = .ok a inside ∧ m' = { inside with chain := m.chain } := by
  unfold inChain
  cases x { m with chain } with
  | ok a' after =>
    constructor
    · intro h
      cases h
      exact ⟨after, rfl, rfl⟩
    · rintro ⟨inside, hx, rfl⟩
      cases hx
      rfl
  | error e after => exact ⟨nofun, fun ⟨_, hx, _⟩ => nomatch hx⟩

/-- A run in another chain halts as it does there, with the chain before put back. -/
theorem inChain_eq_error_iff {chain : Chain} {x : Run α} {e : Halt} {m m' : Machine} :
    inChain chain x m = .error e m' ↔
      ∃ inside, x { m with chain } = .error e inside ∧ m' = { inside with chain := m.chain } := by
  unfold inChain
  cases x { m with chain } with
  | ok a after => exact ⟨nofun, fun ⟨_, hx, _⟩ => nomatch hx⟩
  | error e' after =>
    constructor
    · intro h
      cases h
      exact ⟨after, rfl, rfl⟩
    · rintro ⟨inside, hx, rfl⟩
      cases hx
      rfl

/-- A call gives what its body does, with one call fewer active. -/
theorem counted_eq_ok_iff {x : Run α} {a : α} {m m' : Machine} :
    counted x m = .ok a m' ↔ ∃ inside,
      x { m with calls := m.calls + 1 } = .ok a inside ∧
        m' = { inside with calls := inside.calls - 1 } := by
  unfold counted
  cases x { m with calls := m.calls + 1 } with
  | ok a' after =>
    constructor
    · intro h
      cases h
      exact ⟨after, rfl, rfl⟩
    · rintro ⟨inside, hx, rfl⟩
      cases hx
      rfl
  | error e after => exact ⟨nofun, fun ⟨_, hx, _⟩ => nomatch hx⟩

/-- A call halts as its body does, with one call fewer active. -/
theorem counted_eq_error_iff {x : Run α} {e : Halt} {m m' : Machine} :
    counted x m = .error e m' ↔ ∃ inside,
      x { m with calls := m.calls + 1 } = .error e inside ∧
        m' = { inside with calls := inside.calls - 1 } := by
  unfold counted
  cases x { m with calls := m.calls + 1 } with
  | ok a after => exact ⟨nofun, fun ⟨_, hx, _⟩ => nomatch hx⟩
  | error e' after =>
    constructor
    · intro h
      cases h
      exact ⟨after, rfl, rfl⟩
    · rintro ⟨inside, hx, rfl⟩
      cases hx
      rfl

/-- A run in another chain comes back to the chain before, however it ends. -/
theorem after_inChain (chain : Chain) (x : Run α) (m : Machine) :
    (inChain chain x).after m = { x.after { m with chain } with chain := m.chain } := by
  unfold after inChain
  cases x { m with chain } <;> rfl

/-- Runs that come to the same in a chain do so from outside of it. -/
theorem inChain_congr {chain : Chain} {x x' : Run α} {m : Machine}
    (h : x' { m with chain } = x { m with chain }) : inChain chain x' m = inChain chain x m := by
  unfold inChain
  rw [h]

/-- A call that is over is not active any more, however it ends. -/
theorem after_counted (x : Run α) (m : Machine) :
    (counted x).after m =
      { x.after { m with calls := m.calls + 1 } with
        calls := (x.after { m with calls := m.calls + 1 }).calls - 1 } := by
  unfold after counted
  cases x { m with calls := m.calls + 1 } <;> rfl

/-- Runs that come to the same as one more active call do so when they are counted. -/
theorem counted_congr {x x' : Run α} {m : Machine}
    (h : x' { m with calls := m.calls + 1 } = x { m with calls := m.calls + 1 }) :
    counted x' m = counted x m := by
  unfold counted
  rw [h]

theorem Keeps.bind {x : Run α} {f : α → Run β} (hx : x.Keeps new) (hf : ∀ a, (f a).Keeps new) :
    (x >>= f).Keeps new :=
  fun m => after_bind (hx m) fun a m₁ _ hfirst => hfirst.trans (hf a m₁)

theorem keeps_fault (f : Fault) (line : Nat) : (fault f line : Run α).Keeps new :=
  fun m => .refl m

theorem keeps_outOfFuel : (outOfFuel : Run α).Keeps new :=
  fun m => .refl m

theorem after_orFault (line : Nat) (result : Except Fault α) (m : Machine) :
    (orFault line result).after m = m := by
  cases result <;> rfl

theorem keeps_orFault (line : Nat) (result : Except Fault α) :
    (orFault line result).Keeps new := by
  cases result with
  | ok a => exact keeps_pure a
  | error f => exact keeps_fault f line

theorem keeps_query (find : Store → α) : (query find).Keeps new :=
  fun m => .refl m

theorem keeps_chain : chain.Keeps new :=
  fun m => .refl m

theorem keeps_exhausted : exhausted.Keeps new :=
  fun m => .refl m

theorem keeps_allocate {add : Store → α × Store} (h : ∀ s : Store, s.Adds (add s).2) :
    (allocate add).Keeps new :=
  fun m => .of_adds (h m.store)

theorem keeps_modifyStore {change : Store → Store} (h : ∀ s : Store, s.Adds (change s)) :
    (modifyStore change).Keeps new :=
  fun m => .of_adds (h m.store)

/-- A definition brings its own name into the innermost frame and no other. -/
theorem keeps_define (name : String) (value : Value) : (define name value).Keeps [name] := by
  intro m
  refine ⟨rfl, rfl, rfl, rfl, Store.grows_define _ _ _ _, fun _ hnow => ?_⟩
  simpa using Store.has_of_has_define hnow

/-- A declaration brings its own name into the innermost frame and no other. -/
theorem keeps_declare (name : String) : (declare name).Keeps [name] := by
  intro m
  refine ⟨rfl, rfl, rfl, rfl, Store.grows_declare _ _ _, fun _ hnow => ?_⟩
  simpa using Store.has_of_has_declare hnow

theorem keeps_read (ref : Ref) : (read ref).Keeps new :=
  fun m => keeps_orFault _ _ m

theorem keeps_callHost (name : String) (arguments : List Value) (line : Nat) :
    (callHost name arguments line).Keeps new :=
  fun m => keeps_orFault line _ m

/-- An assignment finds the name in a frame, so the frame does not get a new one. -/
theorem later_assignIn {owner : Option Nat} {name : Mark} (value : Value) {m : Machine}
    (h : ∀ frame, owner = some frame → m.store.Has frame name.lexeme) :
    m.Later new ((assignIn owner name value).after m) := by
  cases owner with
  | none => exact .refl m
  | some frame => exact .of_adds (Store.adds_setSlot _ (h frame rfl))

theorem keeps_assign (ref : Ref) (value : Value) : (assign ref value).Keeps new :=
  fun _ => later_assignIn value fun _ howner => Machine.has_of_owner? howner

/-- Writing changes the sink and nothing else, also where the sink refuses a piece. -/
theorem after_write (pieces : List String) (line : Nat) (m : Machine) :
    (write pieces line).after m = { m with sink := (m.sink.put pieces).1 } := by
  unfold after write
  rcases m.sink.put pieces with ⟨sink, _ | message⟩ <;> rfl

/-- What fails when something is written is what the sink refuses. -/
theorem write_eq_error {pieces : List String} {line : Nat} {m m' : Machine} {halt : Halt}
    (h : write pieces line m = .error halt m') :
    ∃ message, (m.sink.put pieces).2 = some message ∧
      halt = .error ⟨@Fault.outputClosed message, line⟩ := by
  unfold write at h
  rcases hput : m.sink.put pieces with ⟨sink, _ | message⟩ <;> rw [hput] at h <;> cases h
  exact ⟨message, rfl, rfl⟩

/-- What is written changes no frame. -/
theorem keeps_write (pieces : List String) (line : Nat) : (write pieces line).Keeps new := by
  intro m
  rw [after_write]
  exact ⟨rfl, rfl, rfl, rfl, .refl _, fun _ h => .inl h⟩

theorem keeps_print (value : Value) (line : Nat) : (print value line).Keeps new :=
  (keeps_query _).bind fun _ => keeps_write _ line

theorem keeps_readClock : readClock.Keeps new :=
  fun _ => ⟨rfl, rfl, rfl, rfl, .refl _, fun _ h => .inl h⟩

/-- A call keeps what its body keeps, and the number of active calls. -/
theorem Keeps.counted {x : Run α} (hx : x.Keeps new) : (counted x).Keeps new := by
  intro m
  have hinside := hx { m with calls := m.calls + 1 }
  rw [after_counted]
  exact ⟨hinside.chain, hinside.depths, by simp [hinside.calls], hinside.maxCalls, hinside.grows,
    hinside.names⟩

/-- A run in view of a new frame, after which the frames in view are those of before. -/
theorem Keeps.inFresh {kind : FrameKind} {birth : Option Birth} {chain : Chain} {x : Run α}
    (hx : x.Keeps new) (m : Machine) :
    m.Later [] ((inChain ((m.store.newFrame kind birth).1 :: chain) x).after
      { m with store := (m.store.newFrame kind birth).2 }) := by
  rw [after_inChain]
  exact .of_fresh (hx _)

end Run

end Lox
