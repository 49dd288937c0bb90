import Lox.Proofs.Alignment.Store
import Lox.Proofs.Run.Keeping

namespace Lox

/-- A fault that no program has which is read and bound without an error. -/
def Fault.Internal : Fault → Prop
  | missingOperand => True
  | undefinedVariable name => ¬IsPlain name
  | _ => False

/-- Not the halt of an internal fault. -/
def Halt.Clean (halt : Halt) : Prop :=
  ∀ e, halt = .error e → ¬e.fault.Internal

namespace Run

variable {visits : Visit → Prop} {α β : Type} {x y : Run α} {m : Machine}
  {Q R : α → Machine → Prop}

/-- From the machine `m` both runs come to the same. What the store holds stays sound, and a result
    is as `Q` says. -/
structure Agrees (visits : Visit → Prop) (x y : Run α) (m : Machine)
    (Q : α → Machine → Prop := fun _ _ => True) : Prop where
  same : x m = y m
  ok : ∀ {a m'}, y m = .ok a m' → m'.store.Sound visits ∧ Q a m'
  error : ∀ {halt m'}, y m = .error halt m' → m'.store.Sound visits ∧ halt.Clean

theorem Agrees.mono (h : Agrees visits x y m Q)
    (hQ : ∀ {a m'}, y m = .ok a m' → Q a m' → R a m') : Agrees visits x y m R :=
  ⟨h.same, fun hy => ⟨(h.ok hy).1, hQ hy (h.ok hy).2⟩, h.error⟩

theorem Agrees.forget (h : Agrees visits x y m Q) : Agrees visits x y m :=
  h.mono fun _ _ => trivial

/-- Runs that agree leave a sound store behind. -/
theorem Agrees.after_sound (h : Agrees visits x y m Q) : (y.after m).store.Sound visits := by
  unfold after
  cases hy : y m with
  | ok a m' => exact (h.ok hy).1
  | error halt m' => exact (h.error hy).1

/-- What runs after agreeing runs only has to agree where these have come to. -/
theorem Agrees.bind {f g : α → Run β} {R : β → Machine → Prop} (h : Agrees visits x y m Q)
    (hnext : ∀ {a m'}, y m = .ok a m' → m'.store.Sound visits → Q a m' →
      Agrees visits (f a) (g a) m' R) :
    Agrees visits (x >>= f) (y >>= g) m R := by
  cases hy : y m with
  | ok a m' =>
    obtain ⟨hsound, hQ⟩ := h.ok hy
    have hthen := hnext hy hsound hQ
    have hleft : (x >>= f) m = f a m' := by rw [bind_apply, h.same, hy]
    have hright : (y >>= g) m = g a m' := by rw [bind_apply, hy]
    exact ⟨by rw [hleft, hright, hthen.same], fun hok => hthen.ok (hright ▸ hok),
      fun herror => hthen.error (hright ▸ herror)⟩
  | error halt m' =>
    have hleft : (x >>= f) m = .error halt m' := by rw [bind_apply, h.same, hy]
    have hright : (y >>= g) m = .error halt m' := by rw [bind_apply, hy]
    refine ⟨by rw [hleft, hright], fun hok => ?_, fun herror => ?_⟩
    · rw [hright] at hok
      cases hok
    · rw [hright] at herror
      cases herror
      exact h.error hy

theorem agrees_pure {a : α} (hsound : m.store.Sound visits) (hQ : Q a m) :
    Agrees visits (pure a) (pure a) m Q :=
  ⟨rfl, fun h => by cases h; exact ⟨hsound, hQ⟩, fun h => nomatch h⟩

/-- A fault that binding is not to blame for is one that both runs may come to. -/
theorem agrees_fault {fault : Fault} (line : Nat) (hsound : m.store.Sound visits)
    (hclean : ¬fault.Internal := by exact fun h => h) :
    Agrees visits (Run.fault fault line) (Run.fault fault line) m Q := by
  refine ⟨rfl, (fun h => nomatch h), fun h => ?_⟩
  cases h
  exact ⟨hsound, fun e he => by cases he; exact hclean⟩

theorem agrees_outOfFuel (hsound : m.store.Sound visits) :
    Agrees visits (outOfFuel : Run α) outOfFuel m Q := by
  refine ⟨rfl, (fun h => nomatch h), fun h => ?_⟩
  cases h
  exact ⟨hsound, fun e he => nomatch he⟩

/-- What is found or else is a fault, on both sides alike. -/
theorem agrees_orFault {result : Except Fault α} (hsound : m.store.Sound visits)
    (hclean : ∀ fault, result = .error fault → ¬fault.Internal)
    (hQ : ∀ a, result = .ok a → Q a m) (line : Nat) :
    Agrees visits (orFault line result) (orFault line result) m Q := by
  cases result with
  | ok a => exact agrees_pure hsound (hQ a rfl)
  | error fault => exact agrees_fault line hsound (hclean fault rfl)

/-- A step that is the same on both sides and does not fail. -/
theorem Agrees.step {x : Run α} {f g : α → Run β} {a : α} {m' : Machine} {R : β → Machine → Prop}
    (hx : x m = .ok a m') (h : Agrees visits (f a) (g a) m' R) :
    Agrees visits (x >>= f) (x >>= g) m R := by
  have hnext (k : α → Run β) : (x >>= k) m = k a m' := by rw [bind_apply, hx]
  exact ⟨by rw [hnext, hnext, h.same], fun hok => h.ok (hnext g ▸ hok),
    fun herror => h.error (hnext g ▸ herror)⟩

/-- What is looked up is the same for runs from one machine. -/
theorem Agrees.query {find : Store → α} {f g : α → Run β} {R : β → Machine → Prop}
    (h : Agrees visits (f (find m.store)) (g (find m.store)) m R) :
    Agrees visits (query find >>= f) (query find >>= g) m R :=
  .step rfl h

/-- The chain in view is the same for runs from one machine. -/
theorem Agrees.chain {f g : Chain → Run β} {R : β → Machine → Prop}
    (h : Agrees visits (f m.chain) (g m.chain) m R) :
    Agrees visits (chain >>= f) (chain >>= g) m R :=
  .step rfl h

/-- What is added to the store is the same for runs from one machine. -/
theorem Agrees.allocate {add : Store → α × Store} {f g : α → Run β} {R : β → Machine → Prop}
    (h : Agrees visits (f (add m.store).1) (g (add m.store).1) { m with store := (add m.store).2 } R) :
    Agrees visits (allocate add >>= f) (allocate add >>= g) m R :=
  .step rfl h

/-- An addition that keeps the store sound, at the end of both runs. -/
theorem agrees_allocate {add : Store → α × Store} (hsound : (add m.store).2.Sound visits)
    (hQ : Q (add m.store).1 { m with store := (add m.store).2 }) :
    Agrees visits (Run.allocate add) (Run.allocate add) m Q := by
  refine ⟨rfl, fun h => ?_, (fun h => nomatch h)⟩
  cases h
  exact ⟨hsound, hQ⟩

/-- Runs that agree still do so as one more active call. -/
theorem Agrees.counted (h : Agrees visits x y { m with calls := m.calls + 1 }) :
    Agrees visits (counted x) (counted y) m := by
  refine ⟨counted_congr h.same, fun hok => ?_, fun herror => ?_⟩
  · obtain ⟨inside, hy, rfl⟩ := counted_eq_ok_iff.mp hok
    exact ⟨(h.ok hy).1, trivial⟩
  · obtain ⟨inside, hy, rfl⟩ := counted_eq_error_iff.mp herror
    exact ⟨(h.error hy).1, (h.error hy).2⟩

/-- Runs that agree in a chain do so from outside of it. -/
theorem Agrees.inChain {chain : Chain} (h : Agrees visits x y { m with chain } Q)
    (hQ : ∀ {a m'}, Q a m' → R a { m' with chain := m.chain }) :
    Agrees visits (inChain chain x) (inChain chain y) m R := by
  refine ⟨inChain_congr h.same, fun hok => ?_, fun herror => ?_⟩
  · obtain ⟨inside, hy, rfl⟩ := inChain_eq_ok_iff.mp hok
    exact ⟨(h.ok hy).1, hQ (h.ok hy).2⟩
  · obtain ⟨inside, hy, rfl⟩ := inChain_eq_error_iff.mp herror
    exact ⟨(h.error hy).1, (h.error hy).2⟩

end Run

end Lox
