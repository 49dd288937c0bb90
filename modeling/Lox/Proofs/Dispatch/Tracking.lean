import Lox.Proofs.Dispatch.Store
import Lox.Proofs.Evaluation.Moment
import Lox.Proofs.Run.Keeping

namespace Lox

namespace Machine

/-- A run has got from one machine to another: the store is rooted, `this` and `super` stand in every frame
    for what they did, and the same frames are in view. -/
structure Advances (m m' : Machine) : Prop where
  rooted : m'.store.Rooted
  secures : m.store.Secures m'.store
  chain : m'.chain = m.chain

/-- The store is rooted, and the frames in view belong to the method that code with these numbers is in. -/
structure Within (ids : List Nat) (m : Machine) : Prop where
  rooted : m.store.Rooted
  houses : m.store.Houses ids m.chain

variable {m m₁ m₂ : Machine} {ids : List Nat}

theorem Advances.refl (h : m.store.Rooted) : m.Advances m :=
  ⟨h, .refl _, rfl⟩

theorem Advances.trans (h : m.Advances m₁) (h' : m₁.Advances m₂) : m.Advances m₂ :=
  ⟨h'.rooted, h.secures.trans h'.secures, h'.chain.trans h.chain⟩

theorem Within.advance (h : m.Within ids) (hm : m.Advances m₁) : m₁.Within ids :=
  ⟨hm.rooted, hm.chain ▸ h.houses.mono hm.secures.toGrows⟩

theorem Within.part {ids' : List Nat} (h : m.Within ids) (hpart : ids' ⊆ ids) : m.Within ids' :=
  ⟨h.rooted, h.houses.part hpart⟩

/-- Inside a new frame, that of a block or a call, wherever its other frames are. -/
theorem within_newFrame {chain : Chain} {kind : FrameKind} (hrooted : m.store.Rooted)
    (hhouses : m.store.Houses ids chain) (hother : kind ≠ .this) (birth : Option Birth) :
    ({ m with store := (m.store.newFrame kind birth).2,
              chain := (m.store.newFrame kind birth).1 :: chain } : Machine).Within ids :=
  ⟨hrooted.newFrame kind birth, hhouses.newFrame hother birth⟩

end Machine

namespace Run

variable {final : Store} {alarm : Halt} {α β : Type} {x' x : Run α} {m : Machine}
  {Q R : α → Machine → Prop}

/-- The second run gets on from the machine `m`, with results as `Q` says. If what it leaves behind is on
    the way to the final store, then the first run comes to the same, unless the second gives the alarm. -/
structure Tracks (final : Store) (alarm : Halt) (x' x : Run α) (m : Machine)
    (Q : α → Machine → Prop := fun _ _ => True) : Prop where
  advances : m.Advances (x.after m)
  ok : ∀ {a m'}, x m = .ok a m' → Q a m'
  same : (x.after m).store.Secures final → x' m = x m ∨ ∃ m', x m = .error alarm m'

theorem Tracks.mono (h : Tracks final alarm x' x m Q) (hQ : ∀ {a m'}, Q a m' → R a m') :
    Tracks final alarm x' x m R :=
  ⟨h.advances, fun hx => hQ (h.ok hx), h.same⟩

/-- The machine after a sequence of two runs whose first has a result. -/
theorem after_bind_of_ok {f : α → Run β} {a : α} {m' : Machine} (hx : x m = .ok a m') :
    (x >>= f).after m = (f a).after m' := by
  unfold after
  rw [bind_apply, hx]

/-- A sequence leaves the machine behind at which its first part halted. -/
theorem after_bind_of_error {f : α → Run β} {halt : Halt} {m' : Machine} (hx : x m = .error halt m') :
    (x >>= f).after m = m' := by
  unfold after
  rw [bind_apply, hx]

/-- Runs that track can go on one after the other. The second part starts from wherever the first
    one got to. -/
theorem Tracks.bind {f' f : α → Run β} {R : β → Machine → Prop} (h : Tracks final alarm x' x m Q)
    (hnext : ∀ {a m'}, m.Advances m' → Q a m' → Tracks final alarm (f' a) (f a) m' R) :
    Tracks final alarm (x' >>= f') (x >>= f) m R := by
  cases hx : x m with
  | ok a m₁ =>
    have hm₁ : m.Advances m₁ := after_of_ok hx ▸ h.advances
    have hthen := hnext hm₁ (h.ok hx)
    have hright : (x >>= f) m = f a m₁ := by rw [bind_apply, hx]
    have hafter := after_bind_of_ok (f := f) hx
    refine ⟨hafter ▸ hm₁.trans hthen.advances, fun hok => hthen.ok (hright ▸ hok), fun hfinal => ?_⟩
    rw [hafter] at hfinal
    -- What the first part leaves is on the way to the final store as well, by what the second part does.
    have hfirst : x' m = .ok a m₁ := by
      rcases h.same (after_of_ok hx ▸ hthen.advances.secures.trans hfinal) with hsame | ⟨_, halarm⟩
      · exact hsame.trans hx
      · cases hx.symm.trans halarm
    have hleft : (x' >>= f') m = f' a m₁ := by rw [bind_apply, hfirst]
    rw [hleft, hright]
    exact hthen.same hfinal
  | error halt m₁ =>
    have hright : (x >>= f) m = .error halt m₁ := by rw [bind_apply, hx]
    have hafter := after_bind_of_error (f := f) hx
    have hm₁ : x.after m = m₁ := after_of_error hx
    refine ⟨hafter ▸ hm₁ ▸ h.advances, fun hok => ?_, fun hfinal => ?_⟩
    · cases hright.symm.trans hok
    · rw [hafter] at hfinal
      rcases h.same (hm₁ ▸ hfinal) with hsame | ⟨m', halarm⟩
      · exact .inl (by rw [bind_apply, hsame, hx, hright])
      · exact .inr ⟨m', bind_eq_error_iff.mpr (.inl halarm)⟩

/-- What is not watched tracks itself. -/
theorem tracks_self {x : Run α} (hm : m.Advances (x.after m)) (hQ : ∀ {a m'}, x m = .ok a m' → Q a m') :
    Tracks final alarm x x m Q :=
  ⟨hm, hQ, fun _ => .inl rfl⟩

theorem tracks_pure {a : α} (hm : m.store.Rooted) (hQ : Q a m) :
    Tracks final alarm (pure a) (pure a) m Q :=
  tracks_self (.refl hm) fun h => by cases h; exact hQ

theorem tracks_fault (fault : Fault) (line : Nat) (hm : m.store.Rooted) :
    Tracks final alarm (Run.fault fault line) (Run.fault fault line) m Q :=
  tracks_self (.refl hm) (fun h => nomatch h)

theorem tracks_outOfFuel (hm : m.store.Rooted) :
    Tracks final alarm (outOfFuel : Run α) outOfFuel m Q :=
  tracks_self (.refl hm) (fun h => nomatch h)

/-- What is found or else is a fault, on both sides alike. -/
theorem tracks_orFault {result : Except Fault α} (line : Nat) (hm : m.store.Rooted)
    (hQ : ∀ a, result = .ok a → Q a m) :
    Tracks final alarm (orFault line result) (orFault line result) m Q := by
  cases result with
  | ok a => exact tracks_pure hm (hQ a rfl)
  | error fault => exact tracks_fault fault line hm

/-- A step that does not fail. -/
theorem Tracks.step {x : Run α} {f' f : α → Run β} {a : α} {m' : Machine} {R : β → Machine → Prop}
    (hx : x m = .ok a m') (hm : m.Advances m') (h : Tracks final alarm (f' a) (f a) m' R) :
    Tracks final alarm (x >>= f') (x >>= f) m R := by
  have hself : Tracks final alarm x x m fun a' m'' => a' = a ∧ m'' = m' := by
    refine tracks_self (after_of_ok hx ▸ hm) fun hok => ?_
    rw [hx] at hok
    cases hok
    exact ⟨rfl, rfl⟩
  apply hself.bind
  rintro _ _ - ⟨rfl, rfl⟩
  exact h

/-- What is looked up is the same for both runs. -/
theorem Tracks.query {find : Store → α} {f' f : α → Run β} {R : β → Machine → Prop}
    (hm : m.store.Rooted) (h : Tracks final alarm (f' (find m.store)) (f (find m.store)) m R) :
    Tracks final alarm (query find >>= f') (query find >>= f) m R :=
  .step rfl (.refl hm) h

/-- The chain in view is the same for both runs. -/
theorem Tracks.chain {f' f : Chain → Run β} {R : β → Machine → Prop} (hm : m.store.Rooted)
    (h : Tracks final alarm (f' m.chain) (f m.chain) m R) :
    Tracks final alarm (chain >>= f') (chain >>= f) m R :=
  .step rfl (.refl hm) h

/-- An addition that keeps the store rooted is the same for both runs. -/
theorem Tracks.allocate {add : Store → α × Store} {f' f : α → Run β} {R : β → Machine → Prop}
    (hrooted : (add m.store).2.Rooted) (hsecures : m.store.Secures (add m.store).2)
    (h : Tracks final alarm (f' (add m.store).1) (f (add m.store).1)
      { m with store := (add m.store).2 } R) :
    Tracks final alarm (allocate add >>= f') (allocate add >>= f) m R :=
  .step rfl ⟨hrooted, hsecures, rfl⟩ h

/-- An addition that keeps the store rooted, at the end of both runs. -/
theorem tracks_allocate {add : Store → α × Store} (hrooted : (add m.store).2.Rooted)
    (hsecures : m.store.Secures (add m.store).2)
    (hQ : Q (add m.store).1 { m with store := (add m.store).2 }) :
    Tracks final alarm (Run.allocate add) (Run.allocate add) m Q :=
  tracks_self ⟨hrooted, hsecures, rfl⟩ fun h => by cases h; exact hQ

/-- A definition of a name like others is the same for both runs. -/
theorem Tracks.define {name : String} {value : Value} {f' f : Unit → Run β} {R : β → Machine → Prop}
    (hm : m.store.Rooted) (hplain : IsPlain name) (hlive : value.Live m.store)
    (h : Tracks final alarm (f' ()) (f ())
      { m with store := m.store.define m.chain name value } R) :
    Tracks final alarm (define name value >>= f') (define name value >>= f) m R :=
  .step (a := ()) rfl ⟨hm.define m.chain hplain hlive, Store.secures_define _ _ value hplain, rfl⟩ h

/-- An assignment to a name like others tracks wherever the name is found. -/
theorem tracks_assignIn (owner : Option Nat) {name : Mark} {value : Value} (hm : m.store.Rooted)
    (hplain : name.Plain) (hlive : value.Live m.store) :
    Tracks final alarm (assignIn owner name value) (assignIn owner name value) m := by
  cases owner with
  | none => exact tracks_fault _ _ hm
  | some frame =>
    have hsecures := Store.secures_setSlot m.store frame (.set value) hplain
    exact tracks_self ⟨hm.setSlot frame hplain hlive, hsecures, rfl⟩ fun _ => trivial

/-- A step that touches neither the store nor the frames in view. -/
theorem tracks_aside {x : Run α} (hm : m.store.Rooted) (hstore : (x.after m).store = m.store)
    (hchain : (x.after m).chain = m.chain) (hQ : ∀ {a m'}, x m = .ok a m' → Q a m') :
    Tracks final alarm x x m Q :=
  tracks_self ⟨hstore ▸ hm, hstore ▸ .refl _, hchain⟩ hQ

/-- What a host answers is no object. -/
theorem tracks_callHost (name : String) (arguments : List Value) (line : Nat) (hm : m.store.Rooted) :
    Tracks final alarm (callHost name arguments line) (callHost name arguments line) m
      fun value m' => value.Live m'.store := by
  have hafter : (callHost name arguments line).after m = m := after_orFault line _ m
  refine tracks_aside hm (by rw [hafter]) (by rw [hafter]) fun {value m'} h => ?_
  unfold callHost Machine.answer at h
  split at h <;> cases h
  exact Value.live_ofLiteral _ _

/-- What is written does not touch the store. -/
theorem tracks_write (pieces : List String) (line : Nat) (hm : m.store.Rooted) :
    Tracks final alarm (write pieces line) (write pieces line) m := by
  have hafter := after_write pieces line m
  exact tracks_aside hm (by rw [hafter]) (by rw [hafter]) fun _ => trivial

theorem tracks_print (value : Value) (line : Nat) (hm : m.store.Rooted) :
    Tracks final alarm (print value line) (print value line) m :=
  .query hm (tracks_write _ line hm)

/-- Runs that track in a chain do so from outside of it. -/
theorem Tracks.inChain {chain : Chain} (h : Tracks final alarm x' x { m with chain } Q)
    (hQ : ∀ {a m'}, Q a m' → R a { m' with chain := m.chain }) :
    Tracks final alarm (inChain chain x') (inChain chain x) m R := by
  refine ⟨?_, fun hok => ?_, fun hfinal => ?_⟩
  · rw [after_inChain]
    exact ⟨h.advances.rooted, h.advances.secures, rfl⟩
  · obtain ⟨inside, hx, rfl⟩ := inChain_eq_ok_iff.mp hok
    exact hQ (h.ok hx)
  · rw [after_inChain] at hfinal
    rcases h.same hfinal with hsame | ⟨inside, halarm⟩
    · exact .inl (inChain_congr hsame)
    · exact .inr ⟨_, inChain_eq_error_iff.mpr ⟨inside, halarm, rfl⟩⟩

/-- Runs that track still do so as one more active call. -/
theorem Tracks.counted (h : Tracks final alarm x' x { m with calls := m.calls + 1 } Q)
    (hQ : ∀ {a m'}, Q a m' → R a { m' with calls := m'.calls - 1 }) :
    Tracks final alarm (counted x') (counted x) m R := by
  refine ⟨?_, fun hok => ?_, fun hfinal => ?_⟩
  · rw [after_counted]
    exact ⟨h.advances.rooted, h.advances.secures, h.advances.chain⟩
  · obtain ⟨inside, hx, rfl⟩ := counted_eq_ok_iff.mp hok
    exact hQ (h.ok hx)
  · rw [after_counted] at hfinal
    rcases h.same hfinal with hsame | ⟨inside, halarm⟩
    · exact .inl (counted_congr hsame)
    · exact .inr ⟨_, counted_eq_error_iff.mpr ⟨inside, halarm, rfl⟩⟩

/-- Where the condition of the second watch holds, and the final store is still to come, that of the first
    has to hold; anywhere else the second watch gives the alarm. -/
theorem Tracks.guard {watch' watch : Watch} {moment : Moment} (hm : m.store.Rooted)
    (hkept : watch.condition moment m → m.store.Secures final → watch'.condition moment m)
    (h : watch.condition moment m → Tracks final watch.alarm x' x m Q) :
    Tracks final watch.alarm (watch'.guard moment x') (watch.guard moment x) m Q := by
  by_cases hcondition : watch.condition moment m
  · have hsame : watch.guard moment x m = x m := Watch.guard_of_condition x hcondition
    have hafter : (watch.guard moment x).after m = x.after m := by
      unfold after
      rw [hsame]
    have htracks := h hcondition
    refine ⟨hafter ▸ htracks.advances, fun hok => htracks.ok (hsame ▸ hok), fun hfinal => ?_⟩
    rw [hafter] at hfinal
    rw [hsame, Watch.guard_of_condition x' (hkept hcondition (htracks.advances.secures.trans hfinal))]
    exact htracks.same hfinal
  · have halarm : watch.guard moment x m = .error watch.alarm m :=
      Watch.guard_of_not_condition x hcondition
    have hafter : (watch.guard moment x).after m = m := after_of_error halarm
    refine ⟨by rw [hafter]; exact .refl hm, fun hok => ?_, fun _ => .inr ⟨m, halarm⟩⟩
    cases halarm.symm.trans hok

end Run

end Lox
