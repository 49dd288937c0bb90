import Lox.Proofs.Grammar.Reading
import Lox.Proofs.Grammar.State

namespace Lox.Grammar

variable {α β : Type} {p : Prop} {bound inner : Nat} {read read' : Reader α}
  {f f' : α → Reader β} {s : State}

/-- The state that a reader leaves, whether it fails or not. -/
def stateAfter (read : Reader α) (s : State) : State :=
  match read s with
  | .ok _ after => after
  | .error _ after => after

theorem stateAfter_of_ok {a : α} {s' : State} (h : read s = .ok a s') : stateAfter read s = s' := by
  unfold stateAfter
  rw [h]

theorem stateAfter_of_error {e : SyntaxError} {s' : State} (h : read s = .error e s') :
    stateAfter read s = s' := by
  unfold stateAfter
  rw [h]

/-- From the state on, the first reader comes back to the context and passes tokens before the next end. If
    `p` holds, the second reader does the same as the first. -/
structure SteadyAt (p : Prop) (read read' : Reader α) (s : State) : Prop where
  context : (stateAfter read s).context = s.context
  passes : s.Passes (stateAfter read s)
  same : p → read' s = read s

/-- A reader is steady from every state; where fewer than `bound` tokens are left, the other reader does
    the same. -/
def Steady (bound : Nat) (read read' : Reader α) : Prop :=
  ∀ s, SteadyAt (s.rest.length < bound) read read' s

/-- A reading that ends in a result of this kind has taken a token at least. -/
structure Shortens (read : Reader α) (c : α → Prop) : Prop where
  ok : ∀ {s a s'}, read s = .ok a s' → c a → s'.rest.length < s.rest.length

theorem SteadyAt.mono {q : Prop} (h : SteadyAt p read read' s) (hq : q → p) :
    SteadyAt q read read' s :=
  ⟨h.context, h.passes, fun hp => h.same (hq hp)⟩

theorem SteadyAt.rest (h : SteadyAt p read read' s) : (stateAfter read s).rest <:+ s.rest :=
  h.passes.suffix

/-- What is said of readers at a state is about what they do there. -/
theorem SteadyAt.congr {other other' : Reader α} (h : SteadyAt p read read' s)
    (hread : other s = read s) (hread' : other' s = read' s) : SteadyAt p other other' s := by
  have hstate : stateAfter other s = stateAfter read s := by
    unfold stateAfter
    rw [hread]
  exact ⟨hstate ▸ h.context, hstate ▸ h.passes, fun hp => by rw [hread, hread', h.same hp]⟩

theorem Steady.less (h : Steady bound read read') (hinner : inner ≤ bound) : Steady inner read read' :=
  fun s => (h s).mono fun hshort => by omega

/-- Nothing is said of the other reader where no number of tokens is small enough. -/
theorem Steady.of_none {other : Reader α} (h : Steady inner read other) (hbound : bound = 0) :
    Steady bound read read' :=
  fun s => ⟨(h s).context, (h s).passes, fun hshort => by omega⟩

theorem Steady.suffix (h : Steady bound read read') {a : α} {s' : State} (hread : read s = .ok a s') :
    s'.rest <:+ s.rest :=
  stateAfter_of_ok hread ▸ (h s).rest

/-- A reader that leaves the state as it is agrees with itself. -/
theorem steadyAt_of_stateAfter (h : stateAfter read s = s) : SteadyAt p read read s :=
  ⟨by rw [h], by rw [h]; exact .refl s, fun _ => rfl⟩

/-- So does one that notes something beside the tokens and the context. -/
theorem steadyAt_of_same (hcontext : (stateAfter read s).context = s.context)
    (htokens : (stateAfter read s).tokens = s.tokens)
    (hcurrent : (stateAfter read s).current = s.current) : SteadyAt p read read s :=
  ⟨hcontext, .of_same htokens hcurrent, fun _ => rfl⟩

/-- Readers from one state agree if the second parts do wherever the first part gets to. -/
theorem SteadyAt.bind (h : SteadyAt p read read' s)
    (hnext : ∀ a s', read s = .ok a s' → s'.rest <:+ s.rest → SteadyAt p (f a) (f' a) s') :
    SteadyAt p (read >>= f) (read' >>= f') s := by
  cases hread : read s with
  | ok a s' =>
    have hafter := stateAfter_of_ok hread
    have hf := hnext a s' hread (hafter ▸ h.rest)
    have hboth : (read >>= f) s = f a s' := by rw [bind_apply, hread]
    have hstate : stateAfter (read >>= f) s = stateAfter (f a) s' := by
      unfold stateAfter
      rw [hboth]
    refine ⟨?_, ?_, fun hp => ?_⟩
    · rw [hstate, hf.context, ← h.context, hafter]
    · rw [hstate]
      exact (hafter ▸ h.passes).trans hf.passes
    · rw [hboth, bind_apply, h.same hp, hread]
      exact hf.same hp
  | error e s' =>
    have hafter := stateAfter_of_error hread
    have hboth : (read >>= f) s = .error e s' := by rw [bind_apply, hread]
    have hstate : stateAfter (read >>= f) s = stateAfter read s :=
      (stateAfter_of_error hboth).trans hafter.symm
    refine ⟨hstate ▸ h.context, hstate ▸ h.passes, fun hp => ?_⟩
    rw [hboth, bind_apply, h.same hp, hread]

/-- Readers that agree on inputs of some length can go on one after the other. -/
theorem Steady.bind (h : Steady bound read read') (hnext : ∀ a, Steady bound (f a) (f' a)) :
    Steady bound (read >>= f) (read' >>= f') :=
  fun s => (h s).bind fun a s' _ hsuffix => (hnext a s').mono fun hshort =>
    Nat.lt_of_le_of_lt hsuffix.length_le hshort

/-- Once a token has been taken, fewer are left for the readers that come next. -/
theorem Steady.bind_shorter {c : α → Prop} (h : Steady bound read read') (hshortens : Shortens read c)
    (hshort : ∀ a, c a → Steady (bound - 1) (f a) (f' a))
    (hlong : ∀ a, ¬ c a → Steady bound (f a) (f' a)) :
    Steady bound (read >>= f) (read' >>= f') := by
  refine fun s => (h s).bind fun a s' hread hsuffix => ?_
  by_cases hc : c a
  · have hless := hshortens.ok hread hc
    exact (hshort a hc s').mono fun hbound => by omega
  · have hle := hsuffix.length_le
    exact (hlong a hc s').mono fun hbound => by omega

/-- What has been found has been taken. -/
theorem Steady.found {read read' : Reader (Option α)} {f f' : Option α → Reader β}
    (h : Steady bound read read') (hshortens : Shortens read fun found => found.isSome)
    (hsome : ∀ a, Steady (bound - 1) (f (some a)) (f' (some a)))
    (hnone : Steady bound (f none) (f' none)) : Steady bound (read >>= f) (read' >>= f') := by
  refine h.bind_shorter hshortens (fun found hfound => ?_) fun found hfound => ?_
  · obtain ⟨a, rfl⟩ := Option.isSome_iff_exists.mp hfound
    exact hsome a
  · cases found with
    | none => exact hnone
    | some a => exact (hfound rfl).elim

/-- A token is taken by the first reader or by each of those that may come after it. -/
theorem Shortens.bind {c : α → Prop} {next : α → Reader β} {d : β → Prop} (h : Shortens read c)
    (hread : Steady bound read read') (hnext : ∀ a, Steady inner (f a) (next a))
    (hlong : ∀ a, ¬ c a → Shortens (f a) d) : Shortens (read >>= f) d where
  ok {s b s'} hboth hd := by
    rw [bind_apply] at hboth
    cases hfirst : read s with
    | error e s₁ =>
      rw [hfirst] at hboth
      cases hboth
    | ok a s₁ =>
      rw [hfirst] at hboth
      by_cases hc : c a
      · exact Nat.lt_of_le_of_lt ((hnext a).suffix hboth).length_le (h.ok hfirst hc)
      · exact Nat.lt_of_lt_of_le ((hlong a hc).ok hboth hd) (hread.suffix hfirst).length_le

/-- The readers that come next take a token. -/
theorem Shortens.later {next : α → Reader β} {d : β → Prop} (hread : Steady bound read read')
    (hnext : ∀ a, Steady inner (f a) (next a)) (h : ∀ a, Shortens (f a) d) :
    Shortens (read >>= f) d :=
  have hnever : Shortens read fun _ => False := ⟨fun _ hfalse => hfalse.elim⟩
  hnever.bind hread hnext fun a _ => h a

/-- A steady reader that takes a token whenever it does not fail. -/
structure Proceeds (bound : Nat) (read read' : Reader α) : Prop where
  steady : Steady bound read read'
  shortens : Shortens read fun _ => True

theorem Proceeds.less (h : Proceeds bound read read') (hinner : inner ≤ bound) :
    Proceeds inner read read' :=
  ⟨h.steady.less hinner, h.shortens⟩

/-- Behind a token that was taken one token less has to be within bounds. -/
theorem Proceeds.bind (h : Proceeds bound read read')
    (hnext : ∀ a, Steady (bound - 1) (f a) (f' a)) : Proceeds bound (read >>= f) (read' >>= f') where
  steady := h.steady.bind_shorter h.shortens (fun a _ => hnext a) fun _ hc => (hc trivial).elim
  shortens := h.shortens.bind h.steady hnext fun _ hc => (hc trivial).elim

/-- A reader may look ahead before it takes a token. -/
theorem Proceeds.later (h : Steady bound read read') (hnext : ∀ a, Proceeds bound (f a) (f' a)) :
    Proceeds bound (read >>= f) (read' >>= f') where
  steady := h.bind fun a => (hnext a).steady
  shortens := .later h (fun a => (hnext a).steady) fun a => (hnext a).shortens

/-- A reader that takes a token if it finds one may go on further out in that case. -/
theorem Proceeds.found {read read' : Reader (Option α)} {f f' : Option α → Reader β}
    (h : Steady bound read read') (hshortens : Shortens read fun found => found.isSome)
    (hsome : ∀ a, Steady (bound - 1) (f (some a)) (f' (some a)))
    (hnone : Proceeds bound (f none) (f' none)) : Proceeds bound (read >>= f) (read' >>= f') where
  steady := h.found hshortens hsome hnone.steady
  shortens := by
    have hnext (found : Option α) : Steady (bound - 1) (f found) (f' found) := by
      cases found with
      | none => exact hnone.steady.less (Nat.sub_le bound 1)
      | some a => exact hsome a
    refine hshortens.bind h hnext fun found hfound => ?_
    cases found with
    | none => exact hnone.shortens
    | some a => exact (hfound rfl).elim

theorem Steady.some (h : Steady bound read read') :
    Steady bound (Option.some <$> read) (Option.some <$> read') := by
  intro s
  have hstate : stateAfter (Option.some <$> read) s = stateAfter read s := by
    simp only [stateAfter, Functor.map, EStateM.map]
    cases read s <;> rfl
  refine ⟨hstate ▸ (h s).context, hstate ▸ (h s).passes, fun hshort => ?_⟩
  simp only [Functor.map, EStateM.map]
  rw [(h s).same hshort]

/-- A reader that comes back to the context it is given leaves the change of it to be undone. -/
theorem Steady.within (h : Steady bound read read') (change : Change) :
    Steady bound (within change read) (within change read') := by
  intro s
  have hinner := h { s with context := change.enter s.context }
  have hstate : stateAfter (Grammar.within change read) s =
      { stateAfter read { s with context := change.enter s.context } with context := s.context } := by
    have hleave :
        change.leave s.context (stateAfter read { s with context := change.enter s.context }).context =
          s.context := by
      rw [hinner.context]
      exact change.leave_enter s.context
    unfold stateAfter Grammar.within at *
    cases hread : read { s with context := change.enter s.context } <;>
      simp only [hread] at hleave ⊢ <;> rw [hleave]
  refine ⟨by rw [hstate], by rw [hstate]; exact ⟨hinner.passes.tokens, hinner.passes.passed⟩,
    fun hshort => ?_⟩
  unfold Grammar.within
  rw [hinner.same hshort]

theorem steady_pure (a : α) : Steady bound (pure a) (pure a) :=
  fun _ => steadyAt_of_stateAfter rfl

theorem steady_fail (cause : SyntaxCause) : Steady bound (fail cause : Reader α) (fail cause) :=
  fun _ => steadyAt_of_stateAfter rfl

theorem steady_report (cause : SyntaxCause) (site : Site) :
    Steady bound (report cause site) (report cause site) :=
  fun _ => steadyAt_of_same rfl rfl rfl

theorem steady_reportHere (cause : SyntaxCause) :
    Steady bound (reportHere cause) (reportHere cause) :=
  fun _ => steadyAt_of_same rfl rfl rfl

theorem steady_freshId : Steady bound freshId freshId :=
  fun _ => steadyAt_of_same rfl rfl rfl

theorem steady_get : Steady bound get get :=
  fun _ => steadyAt_of_stateAfter rfl

theorem steady_atEnd : Steady bound atEnd atEnd :=
  fun _ => steadyAt_of_stateAfter rfl

theorem steady_next (kind : TokenKind) : Steady bound (next kind) (next kind) :=
  fun _ => steadyAt_of_stateAfter rfl

theorem steady_take? (choose : TokenKind → Option α) :
    Steady bound (take? choose) (take? choose) := by
  intro s
  rcases take?_cases choose s with htake | ⟨a, token, more, hrest, -, htake⟩
  · exact steadyAt_of_stateAfter (stateAfter_of_ok htake)
  · have hafter := stateAfter_of_ok htake
    refine ⟨by rw [hafter], ?_, fun _ => rfl⟩
    rw [hafter]
    exact @State.Passes.of_rest s _ [token] more rfl rfl hrest

/-- A token that is chosen is taken. -/
theorem shortens_take? (choose : TokenKind → Option α) :
    Shortens (take? choose) fun found => found.isSome where
  ok {s found s'} htake hfound := by
    rcases take?_cases choose s with hnone | ⟨a, token, more, hrest, -, hsome⟩
    · rw [hnone] at htake
      cases htake
      cases hfound
    · rw [hsome] at htake
      cases htake
      rw [State.rest_succ hrest, hrest]
      exact Nat.lt_succ_self _

theorem steady_accept (kind : TokenKind) : Steady bound (accept kind) (accept kind) :=
  (steady_take? _).bind fun _ => steady_pure _

theorem shortens_accept (kind : TokenKind) : Shortens (accept kind) fun found => found.isSome := by
  have hpure (found : Option (Unit × Mark)) : Steady 0 (pure (found.map (·.2)) : Reader _) (pure _) :=
    steady_pure _
  have htake : Steady 0 (take? fun k => if k = kind then some () else none) _ := steady_take? _
  refine (shortens_take? _).bind htake hpure fun found hnone => ?_
  cases found with
  | none => exact ⟨fun hread hsome => by cases hread; cases hsome⟩
  | some _ => exact (hnone rfl).elim

/-- Where nothing is accepted, the reading fails: `expect` and `expectName`. -/
private theorem proceeds_accepted {kind : TokenKind} {cause : SyntaxCause} :
    Proceeds bound
      (accept kind >>= fun found =>
        (match found with | some mark => pure mark | none => fail cause : Reader Mark))
      (accept kind >>= fun found =>
        (match found with | some mark => pure mark | none => fail cause : Reader Mark)) :=
  .found (steady_accept kind) (shortens_accept kind) steady_pure
    ⟨steady_fail cause, ⟨fun hread => nomatch hread⟩⟩

theorem proceeds_expect (place : Place) : Proceeds bound (expect place) (expect place) :=
  proceeds_accepted

theorem steady_expect (place : Place) : Steady bound (expect place) (expect place) :=
  (proceeds_expect place).steady

theorem proceeds_expectName (role : NameRole) : Proceeds bound (expectName role) (expectName role) :=
  proceeds_accepted

theorem steady_expectName (role : NameRole) : Steady bound (expectName role) (expectName role) :=
  (proceeds_expectName role).steady

end Lox.Grammar
