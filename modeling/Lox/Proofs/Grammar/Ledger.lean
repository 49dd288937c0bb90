import Mathlib.Algebra.Order.Monoid.Prod
import Mathlib.Data.Multiset.OrderedMonoid
import Mathlib.Order.Interval.Finset.Nat
import Mathlib.Order.Interval.Multiset
import Lox.Proofs.Grammar.Reading
import Lox.Proofs.Tree.Breaks

namespace Lox

/-- Numbers of occurrences, and breaks. -/
abbrev Ledger := Multiset Nat × Multiset Break

/-- The occurrences and the breaks of a tree. -/
def Ledger.of (ids : List Nat) (breaks : List Break) : Ledger :=
  (ids, breaks)

/-- What an expression holds of numbers and breaks. -/
def Expr.ledger (e : Expr) : Ledger :=
  .of e.ids e.breaks

/-- What some code holds of numbers and breaks. -/
def Lambda.ledger (code : Lambda) : Ledger :=
  .of code.ids code.breaks

/-- What a statement holds of numbers and breaks, in a loop or not. -/
def Stmt.ledger (inLoop : Bool) (s : Stmt) : Ledger :=
  .of s.ids (s.breaks inLoop)

/-- Expressions in a row hold what each of them does. -/
theorem Expr.ledger_all (es : List Expr) :
    Ledger.of (Expr.idsAll es) (Expr.breaksAll es) = (es.map Expr.ledger).sum := by
  induction es with
  | nil => rfl
  | cons e rest ih =>
    rw [List.map_cons, List.sum_cons, ← ih]
    rfl

theorem Definition.ledger_all (ds : List Definition) :
    Ledger.of (Definition.idsAll ds) (Definition.breaksAll ds) =
      (ds.map fun d => d.code.ledger).sum := by
  induction ds with
  | nil => rfl
  | cons d rest ih =>
    obtain ⟨name, code⟩ := d
    rw [List.map_cons, List.sum_cons, ← ih]
    rfl

/-- Statements in a row hold what each of them does. -/
theorem Stmt.ledger_all (inLoop : Bool) (body : List Stmt) :
    Ledger.of (Stmt.idsAll body) (Stmt.breaksAll inLoop body) = (body.map (Stmt.ledger inLoop)).sum := by
  induction body with
  | nil => rfl
  | cons s rest ih =>
    rw [List.map_cons, List.sum_cons, ← ih]
    rfl

/-- Where a break is reported that no loop catches, if the error is about that. -/
def SyntaxError.breakSite? (e : SyntaxError) : Option Site :=
  if e.cause = .breakOutsideLoop then some e.site else none

/-- The places of the errors about breaks. -/
def breakSites (errors : List SyntaxError) : Multiset Site :=
  errors.filterMap SyntaxError.breakSite?

/-- The places of the breaks that no loop catches. -/
def straySites (breaks : Multiset Break) : Multiset Site :=
  (breaks.filter fun b => b.stray).map fun b => .ofMark b.keyword

/-- The keywords of breaks among the tokens. -/
def breakMarks (tokens : List Token) : Multiset Mark :=
  (tokens.filter fun token => token.kind = .break).map Token.toMark

/-- The sites of breaks that are reported in two parts. -/
theorem breakSites_append (errors others : List SyntaxError) :
    breakSites (errors ++ others) = breakSites errors + breakSites others := by
  unfold breakSites
  rw [List.filterMap_append, ← Multiset.coe_add]

/-- An error of any other kind is no site of a break. -/
theorem breakSites_cons {e : SyntaxError} (h : e.cause ≠ .breakOutsideLoop)
    (errors : List SyntaxError) : breakSites (e :: errors) = breakSites errors := by
  unfold breakSites
  rw [List.filterMap_cons_none]
  exact if_neg h

theorem breakSites_reverse (errors : List SyntaxError) :
    breakSites errors.reverse = breakSites errors := by
  unfold breakSites
  rw [List.filterMap_reverse, Multiset.coe_reverse]

/-- The breaks that no loop catches, in two parts. -/
theorem straySites_add (breaks others : Multiset Break) :
    straySites (breaks + others) = straySites breaks + straySites others := by
  unfold straySites
  rw [Multiset.filter_add, Multiset.map_add]

/-- The breaks among tokens in two parts. -/
theorem breakMarks_append (tokens others : List Token) :
    breakMarks (tokens ++ others) = breakMarks tokens + breakMarks others := by
  unfold breakMarks
  rw [List.filter_append, List.map_append, ← Multiset.coe_add]

namespace Grammar

/-- Between the states the numbers on the ledger have been given out, and the breaks on it have been come
    to: their keywords are among the tokens taken, and those that no loop catches are reported. -/
structure Records (s s' : State) (l : Ledger) : Prop where
  context : s'.context = s.context
  forward : s.nextId ≤ s'.nextId
  ids : l.1 = Multiset.Ico s.nextId s'.nextId
  tokens : ∃ taken, s.rest = taken ++ s'.rest ∧ l.2.map Break.keyword ≤ breakMarks taken
  errors : ∃ found, s'.errors = found ++ s.errors ∧ breakSites found = straySites l.2

namespace Records

variable {s s₁ s' : State} {l l' : Ledger}

theorem refl (s : State) : Records s s 0 :=
  ⟨rfl, Nat.le_refl _, by simp, ⟨[], rfl, by simp⟩, ⟨[], rfl, rfl⟩⟩

/-- What is recorded on the way from state to state adds up. -/
theorem trans (h : Records s s₁ l) (h' : Records s₁ s' l') : Records s s' (l + l') where
  context := h'.context.trans h.context
  forward := Nat.le_trans h.forward h'.forward
  ids := by
    rw [Prod.fst_add, h.ids, h'.ids, Multiset.Ico_add_Ico_eq_Ico h.forward h'.forward]
  tokens := by
    obtain ⟨taken, htaken, hle⟩ := h.tokens
    obtain ⟨taken', htaken', hle'⟩ := h'.tokens
    refine ⟨taken ++ taken', by rw [htaken, htaken', List.append_assoc], ?_⟩
    rw [Prod.snd_add, Multiset.map_add, breakMarks_append]
    exact add_le_add hle hle'
  errors := by
    obtain ⟨found, hfound, hsites⟩ := h.errors
    obtain ⟨found', hfound', hsites'⟩ := h'.errors
    refine ⟨found' ++ found, by rw [hfound', hfound, List.append_assoc], ?_⟩
    rw [breakSites_append, hsites, hsites', Prod.snd_add, straySites_add, add_comm]

/-- Tokens may be passed. -/
theorem pass {s s' : State} (h : s.Passes s') (hcontext : s'.context = s.context)
    (hid : s'.nextId = s.nextId) (herrors : s'.errors = s.errors) : Records s s' 0 := by
  obtain ⟨taken, htaken, -⟩ := h.passed
  exact ⟨hcontext, hid.ge, by simp [hid], ⟨taken, htaken, by simp⟩, ⟨[], herrors, rfl⟩⟩

/-- An error that is not about a break is not on the ledger. -/
theorem error {e : SyntaxError} (s : State) (h : e.cause ≠ .breakOutsideLoop) :
    Records s { s with errors := e :: s.errors } 0 :=
  ⟨rfl, Nat.le_refl _, by simp, ⟨[], rfl, by simp⟩, ⟨[e], rfl, breakSites_cons h []⟩⟩

theorem freshId (s : State) : Records s { s with nextId := s.nextId + 1 } (.of [s.nextId] []) := by
  refine ⟨rfl, Nat.le_succ _, ?_, ⟨[], rfl, by simp [Ledger.of]⟩, ⟨[], rfl, rfl⟩⟩
  simp [Ledger.of, Multiset.Ico, Nat.Ico_succ_singleton]

end Records

variable {α β : Type} {c : Context} {credit : Ledger} {content : α → Ledger}

/-- What has been read is on the ledger or on the credit given from before, and a failure is not about a
    break. -/
def AccountsAt (credit : Ledger) (s : State) (content : α → Ledger)
    (result : EStateM.Result SyntaxError State α) : Prop :=
  match result with
  | .ok a s' => ∃ l, Records s s' l ∧ content a ≤ credit + l
  | .error e s' => e.cause ≠ .breakOutsideLoop ∧ ∃ l, Records s s' l

/-- In the context, the reader accounts for what it reads, and it may use up some credit. -/
def Accounts (c : Context) (credit : Ledger) (read : Reader α) (content : α → Ledger) : Prop :=
  ∀ s, s.context = c → AccountsAt credit s content (read s)

/-- What is recorded on the way to a state may be accounted for from there. -/
theorem AccountsAt.of_records {s s₁ : State} {l : Ledger} {result : EStateM.Result SyntaxError State α}
    (h : Records s s₁ l) (hnext : AccountsAt (credit + l) s₁ content result) :
    AccountsAt credit s content result := by
  cases result with
  | ok a s' =>
    obtain ⟨l', hl', hle⟩ := hnext
    exact ⟨l + l', h.trans hl', by rwa [← add_assoc]⟩
  | error e s' =>
    obtain ⟨hcause, l', hl'⟩ := hnext
    exact ⟨hcause, l + l', h.trans hl'⟩

/-- What accounts for much accounts for less of it, and on more credit. -/
theorem AccountsAt.mono {s : State} {result : EStateM.Result SyntaxError State α} {more : Ledger}
    {less : α → Ledger} (h : AccountsAt credit s content result) (hcredit : credit ≤ more)
    (hless : ∀ a, less a ≤ content a) : AccountsAt more s less result := by
  cases result with
  | ok a s' =>
    obtain ⟨l, hl, hle⟩ := h
    exact ⟨l, hl, (hless a).trans (hle.trans (add_le_add_left hcredit l))⟩
  | error e s' => exact h

namespace Accounts

variable {read : Reader α} {f : α → Reader β} {last : β → Ledger}

theorem mono {less : α → Ledger} (h : Accounts c credit read content)
    (hless : ∀ a, less a ≤ content a) : Accounts c credit read less :=
  fun s hs => (h s hs).mono le_rfl hless

/-- What is on credit is still there when something else has been read. -/
theorem keeping (h : Accounts c 0 read content) (credit : Ledger) :
    Accounts c credit read fun a => credit + content a := by
  intro s hs
  have hread := h s hs
  cases hresult : read s with
  | ok a s' =>
    rw [hresult] at hread
    obtain ⟨l, hl, hle⟩ := hread
    rw [zero_add] at hle
    exact ⟨l, hl, add_le_add_right hle credit⟩
  | error e s' =>
    rw [hresult] at hread
    exact hread

/-- What the first reader accounts for is the credit of the second. -/
theorem seq (h : Accounts c credit read content) (hf : ∀ a, Accounts c (content a) (f a) last) :
    Accounts c credit (read >>= f) last := by
  intro s hs
  have hread := h s hs
  rw [bind_apply]
  cases hresult : read s with
  | ok a s₁ =>
    rw [hresult] at hread
    obtain ⟨l, hl, hle⟩ := hread
    exact .of_records hl ((hf a s₁ (hl.context.trans hs)).mono hle fun _ => le_rfl)
  | error e s₁ =>
    rw [hresult] at hread
    exact hread

/-- What has been read comes to the credit from before. -/
theorem bind (h : Accounts c 0 read content) (hf : ∀ a, Accounts c (credit + content a) (f a) last) :
    Accounts c credit (read >>= f) last :=
  (h.keeping credit).seq hf

/-- A reader with nothing to account for leaves the credit to the next one. -/
theorem skip (h : Accounts c 0 read fun _ => 0) (hf : ∀ a, Accounts c credit (f a) last) :
    Accounts c credit (read >>= f) last :=
  h.bind fun a => by simpa using hf a

theorem some (h : Accounts c 0 read content) :
    Accounts c 0 (Option.some <$> read) fun found => found.elim 0 content := by
  intro s hs
  have hread := h s hs
  simp only [Functor.map, EStateM.map]
  cases hresult : read s with
  | ok a s' =>
    rw [hresult] at hread
    exact hread
  | error e s' =>
    rw [hresult] at hread
    exact hread

/-- A reader accounts in a changed context, which it comes back from. -/
theorem within {change : Change} (h : Accounts (change.enter c) 0 read content) :
    Accounts c 0 (within change read) content := by
  intro s hs
  have hread := h { s with context := change.enter s.context } (congrArg change.enter hs)
  have hback {s' : State} {l : Ledger} (hl : Records { s with context := change.enter s.context } s' l) :
      Records s { s' with context := change.leave s.context s'.context } l :=
    ⟨by rw [hl.context]; exact change.leave_enter s.context, hl.forward, hl.ids, hl.tokens, hl.errors⟩
  unfold Grammar.within
  cases hresult : read { s with context := change.enter s.context } with
  | ok a s' =>
    rw [hresult] at hread
    obtain ⟨l, hl, hle⟩ := hread
    exact ⟨l, hback hl, hle⟩
  | error e s' =>
    rw [hresult] at hread
    obtain ⟨hcause, l, hl⟩ := hread
    exact ⟨hcause, l, hback hl⟩

end Accounts

theorem accounts_pure {a : α} (h : content a ≤ credit) : Accounts c credit (pure a) content :=
  fun s _ => ⟨0, .refl s, by rwa [add_zero]⟩

theorem accounts_fail {cause : SyntaxCause} (h : cause ≠ .breakOutsideLoop) :
    Accounts c credit (fail cause) content :=
  fun s _ => ⟨h, 0, .refl s⟩

theorem accounts_report {cause : SyntaxCause} (h : cause ≠ .breakOutsideLoop) (site : Site) :
    Accounts c 0 (report cause site) fun _ => 0 :=
  fun s _ => ⟨0, .error s h, le_rfl⟩

theorem accounts_reportHere {cause : SyntaxCause} (h : cause ≠ .breakOutsideLoop) :
    Accounts c 0 (reportHere cause) fun _ => 0 :=
  fun s _ => ⟨0, .error s h, le_rfl⟩

theorem accounts_freshId : Accounts c 0 freshId fun id => .of [id] [] :=
  fun s _ => ⟨.of [s.nextId] [], .freshId s, by rw [zero_add]⟩

/-- What is read next may depend on the context. -/
theorem accounts_get {f : State → Reader β} {last : β → Ledger}
    (h : ∀ s, s.context = c → Accounts c credit (f s) last) : Accounts c credit (get >>= f) last :=
  fun s hs => h s hs s hs

theorem accounts_atEnd : Accounts c 0 atEnd fun _ => 0 :=
  fun s _ => ⟨0, .refl s, le_rfl⟩

theorem accounts_next (kind : TokenKind) : Accounts c 0 (next kind) fun _ => 0 :=
  fun s _ => ⟨0, .refl s, le_rfl⟩

/-- A token that is taken may be of account for what comes next. -/
theorem accounts_token {choose : TokenKind → Option α} {f : Option (α × Mark) → Reader β}
    {last : β → Ledger} (hnone : Accounts c credit (f none) last)
    (hsome : ∀ a token more s, choose token.kind = some a → s.rest = token :: more → s.context = c →
      AccountsAt credit s last (f (some (a, token.toMark)) { s with current := s.current + 1 })) :
    Accounts c credit (take? choose >>= f) last := by
  intro s hs
  rw [bind_apply]
  rcases take?_cases choose s with htake | ⟨a, token, more, hrest, hchoose, htake⟩
  · rw [htake]
    exact hnone s hs
  · rw [htake]
    exact hsome a token more s hchoose hrest hs

/-- Where a token is taken that is of no account. -/
theorem Accounts.behind {read : Reader α} (h : Accounts c credit read content) {token : Token}
    {more : List Token} {s : State} (hrest : s.rest = token :: more) (hs : s.context = c) :
    AccountsAt credit s content (read { s with current := s.current + 1 }) := by
  have hpass : Records s { s with current := s.current + 1 } 0 :=
    .pass (@State.Passes.of_rest s _ [token] more rfl rfl hrest) rfl rfl rfl
  exact .of_records hpass (by simpa using h { s with current := s.current + 1 } hs)

theorem accounts_take? (choose : TokenKind → Option α) :
    Accounts c 0 (take? choose) fun _ => 0 := by
  rw [← bind_pure (take? choose)]
  exact accounts_token (accounts_pure le_rfl) fun _ _ _ _ _ hrest hs => (accounts_pure le_rfl).behind hrest hs

theorem accounts_accept (kind : TokenKind) : Accounts c 0 (accept kind) fun _ => 0 :=
  (accounts_take? _).skip fun _ => accounts_pure le_rfl

theorem accounts_expect (place : Place) : Accounts c 0 (expect place) fun _ => 0 := by
  refine (accounts_accept _).skip fun found => ?_
  cases found with
  | none => exact accounts_fail nofun
  | some mark => exact accounts_pure le_rfl

theorem accounts_expectName (role : NameRole) : Accounts c 0 (expectName role) fun _ => 0 := by
  refine (accounts_accept _).skip fun found => ?_
  cases found with
  | none => exact accounts_fail nofun
  | some mark => exact accounts_pure le_rfl

/-- One item more accounts for itself and the items before it. -/
theorem accounts_oneMore {tooMany : SyntaxCause} (h : tooMany ≠ .breakOutsideLoop) {item : Reader α}
    (hitem : Accounts c 0 item content) (before : List α) :
    Accounts c (before.map content).sum (oneMore tooMany item before) fun found =>
      (found.1.map content).sum := by
  have hrest : Accounts c (before.map content).sum
      (do let x ← item; return (x :: before, (← accept .comma).isSome)) fun found =>
        (found.1.map content).sum := by
    refine hitem.bind fun x => (accounts_accept _).skip fun _ => accounts_pure ?_
    rw [List.map_cons, List.sum_cons, add_comm]
  unfold oneMore
  split
  · exact (accounts_reportHere h).skip fun _ => hrest
  · exact hrest

/-- What has been read last first is of the same account in the order of the tokens. -/
theorem accounts_reverse (xs : List α) :
    Accounts c (xs.map content).sum (pure xs.reverse) fun items => (items.map content).sum :=
  accounts_pure (by rw [List.map_reverse, List.sum_reverse])

/-- Items in a row account for themselves, behind those before them. -/
theorem accounts_separated {tooMany : SyntaxCause} (h : tooMany ≠ .breakOutsideLoop) {item : Reader α}
    (hitem : Accounts c 0 item content) (commas : Nat) (before : List α) :
    Accounts c (before.map content).sum (separated tooMany item commas before) fun items =>
      (items.map content).sum := by
  induction commas generalizing before with
  | zero => exact (accounts_oneMore h hitem before).seq fun found => accounts_reverse found.1
  | succ commas ih =>
    refine (accounts_oneMore h hitem before).seq fun found => ?_
    obtain ⟨items, comma⟩ := found
    cases comma with
    | true => exact ih items
    | false => exact accounts_reverse items

end Grammar

end Lox
