import Lox.Proofs.Grammar.Derivation
import Lox.Proofs.Grammar.Leading

namespace Lox.Grammar

/-- The level of the operands. -/
def Level.tighter : Level → Level
  | assignment => or
  | or => and
  | and => conditional
  | conditional => comma
  | comma => equality
  | equality => comparison
  | comparison => term
  | term => factor
  | factor | unary => unary

theorem Level.height_tighter {level : Level} (h : level ≠ .unary) :
    level.tighter.height = level.height + 1 := by
  cases level <;> first | rfl | exact absurd rfl h

theorem Level.height_inj {level level' : Level} (h : level.height = level'.height) : level = level' := by
  cases level <;> cases level' <;> first | rfl | cases h

section Reading

variable {c : Context} {e : Expr} {ts ts' rest : List Token} {lo mid hi : Nat}

/-- On these tokens, operator by operator, a run of operators comes to this expression. -/
def ChainsTo {op : Type} (r : Rules) (level : Level) (operator? : TokenKind → Option op)
    (join : op → Mark → Expr → Expr → Expr) (c : Context) (e : Expr) (ts : List Token)
    (lo hi : Nat) : Prop :=
  ∃ used, used ≤ ts.length ∧ ∀ count rest, Stops (level.height + 1) c rest →
    Leads (chain (used + count) (r.expressionAt level.tighter) operator? join)
      (chainFrom (r.expressionAt level.tighter) operator? join count e) c ts lo hi rest

namespace ChainsTo

variable {op : Type} {r : Rules} {level : Level} {operator? : TokenKind → Option op}
  {join : op → Mark → Expr → Expr → Expr}

/-- The first operand. -/
theorem first (h : ∀ rest, Stops (level.height + 1) c rest →
      Yields (r.expressionAt level.tighter) c ts e lo hi rest) :
    ChainsTo r level operator? join c e ts lo hi := by
  refine ⟨0, Nat.zero_le _, fun count rest hstops => ?_⟩
  rw [Nat.zero_add]
  exact Leads.bind_last (h rest hstops) .refl

/-- One more operator with its right operand. -/
theorem more {left right : Expr} {token : Token} {o : op}
    (h : ChainsTo r level operator? join c left ts lo mid) (htoken : operator? token.kind = some o)
    (hgrip : c.grip? token.kind = some level.height)
    (hright : ∀ rest, Stops (level.height + 1) c rest →
      Yields (r.expressionAt level.tighter) c ts' right mid hi rest) :
    ChainsTo r level operator? join c (join o token.toMark left right) (ts ++ token :: ts') lo hi := by
  obtain ⟨used, hused, hleads⟩ := h
  refine ⟨used + 1, by simp; omega, fun count rest hstops => ?_⟩
  rw [Nat.add_assoc, Nat.add_comm 1 count]
  refine (hleads (count + 1) _ (Stops.cons fun grip hg => ?_)).trans ?_
  · cases hgrip.symm.trans hg
    exact Nat.lt_succ_self _
  · exact Leads.take? htoken (Leads.bind_last (hright rest hstops) .refl)

/-- The run ends where no operator of its level comes next. -/
theorem yields {count : Nat} (h : ChainsTo r level operator? join c e ts lo hi)
    (hcount : ts.length ≤ count) (hgrip : ∀ {k o}, operator? k = some o → c.grip? k = some level.height)
    (hstops : Stops level.height c rest) :
    Yields (chain count (r.expressionAt level.tighter) operator? join) c ts e lo hi rest := by
  obtain ⟨used, hused, hleads⟩ := h
  obtain ⟨left, rfl⟩ := Nat.exists_eq_add_of_le (Nat.le_trans hused hcount)
  rw [← List.append_nil ts]
  refine (hleads left rest (hstops.mono (Nat.le_succ _))).trans ?_
  cases left with
  | zero => exact .refl
  | succ left => exact Leads.take?_none (hstops.choose_none (Nat.le_refl _) hgrip) .refl

end ChainsTo

/-- A level reads these tokens as this expression, or comes to it on the way through its operators. -/
def ReadsAt (r : Rules) (level : Level) (c : Context) (e : Expr) (ts : List Token) (lo hi : Nat) : Prop :=
  match level with
  | .equality | .comparison | .term | .factor => ChainsTo r level level.binaryOp? .binary c e ts lo hi
  | .or | .and => ChainsTo r level level.logicalOp? .logical c e ts lo hi
  | .comma =>
    if c.commas then
      ChainsTo r .comma commaOp? (fun _ _ left right => .comma left right) c e ts lo hi
    else
      ∀ rest, Stops Level.comma.height c rest → Yields (r.expressionAt .comma) c ts e lo hi rest
  | .assignment | .conditional | .unary =>
    ∀ rest, Stops level.height c rest → Yields (r.expressionAt level) c ts e lo hi rest

/-- Where commas only separate, the level of the comma reads what is tighter. -/
private theorem comma_leads {r : Rules} {next : Reader Expr} (h : Leads
      (if c.commas then chain r.bound r.equality commaOp? fun _ _ left right => .comma left right
        else r.equality) next c ts lo hi rest) :
    Leads r.comma next c ts lo hi rest := by
  refine Leads.get fun s hs => ?_
  rw [hs]
  exact h

namespace ReadsAt

variable {r : Rules} {level : Level}

/-- A level reads an expression of its height from its tokens, up to where it stops. -/
theorem yields (h : ReadsAt r level c e ts lo hi) (hlength : ts.length ≤ r.bound)
    (hstops : Stops level.height c rest) : Yields (r.expressionAt level) c ts e lo hi rest := by
  cases level with
  | assignment | conditional | unary => exact h rest hstops
  | or | and => exact ChainsTo.yields h hlength grip?_logicalOp hstops
  | equality | comparison | term | factor => exact ChainsTo.yields h hlength grip?_binaryOp hstops
  | comma =>
    by_cases hcommas : c.commas
    · simp only [ReadsAt, if_pos hcommas] at h
      refine comma_leads ?_
      rw [if_pos hcommas]
      exact ChainsTo.yields h hlength (grip?_commaOp hcommas) hstops
    · simp only [ReadsAt, if_neg hcommas] at h
      exact h rest hstops

/-- Operands are expressions of the looser level as well. -/
theorem loosen (h : ReadsAt r level.tighter c e ts lo hi) (hlevel : level ≠ .unary)
    (hlength : ts.length ≤ r.bound) : ReadsAt r level c e ts lo hi := by
  have hoperand : ∀ rest, Stops (level.height + 1) c rest →
      Yields (r.expressionAt level.tighter) c ts e lo hi rest := fun rest hstops =>
    h.yields hlength (Level.height_tighter hlevel ▸ hstops)
  cases level with
  | unary => exact absurd rfl hlevel
  | equality | comparison | term | factor | or | and => exact ChainsTo.first hoperand
  | comma =>
    by_cases hcommas : c.commas
    · simp only [ReadsAt, if_pos hcommas]
      exact ChainsTo.first hoperand
    · simp only [ReadsAt, if_neg hcommas]
      refine fun rest hstops => comma_leads ?_
      rw [if_neg hcommas]
      exact hoperand rest (hstops.mono (Nat.le_succ _))
  | conditional =>
    intro rest hstops
    refine Leads.bind_last (hoperand rest (hstops.mono (Nat.le_succ _))) (Leads.accept_none ?_ .refl)
    exact hstops.kind_ne (Nat.le_refl _) rfl
  | assignment =>
    intro rest hstops
    refine Leads.bind_last (hoperand rest (hstops.mono (Nat.le_succ _))) (Leads.accept_none ?_ .refl)
    exact hstops.kind_ne (Nat.le_refl _) rfl

/-- An expression is one of all looser levels as well. -/
theorem climb {level' : Level} (h : ReadsAt r level c e ts lo hi) (hlength : ts.length ≤ r.bound)
    (hle : level'.height ≤ level.height) : ReadsAt r level' c e ts lo hi := by
  obtain ⟨steps, hsteps⟩ := Nat.exists_eq_add_of_le hle
  induction steps generalizing level' with
  | zero => exact Level.height_inj hsteps ▸ h
  | succ steps ih =>
    have hlevel : level' ≠ .unary := by
      rintro rfl
      have : level.height ≤ Level.unary.height := by cases level <;> decide
      omega
    have htighter := Level.height_tighter hlevel
    exact (ih (by omega) (by omega)).loosen hlevel hlength

end ReadsAt

/-- On these tokens a callee, with calls and properties behind it, comes to this expression. -/
def CallsTo (r : Rules) (c : Context) (e : Expr) (ts : List Token) (lo hi : Nat) : Prop :=
  ∃ used, used ≤ ts.length ∧ ∀ count rest,
    Leads (r.primary >>= r.callFrom (used + count)) (r.callFrom count e) c ts lo hi rest

namespace CallsTo

variable {r : Rules}

theorem primary (h : ∀ rest, Yields r.primary c ts e lo hi rest) : CallsTo r c e ts lo hi :=
  ⟨0, Nat.zero_le _, fun count rest => Leads.bind_last (h rest) (by rw [Nat.zero_add]; exact .refl)⟩

/-- A callee may be followed by one more call or property. -/
theorem more {callee : Expr} (h : CallsTo r c callee ts lo mid) (hts' : ts' ≠ [])
    (hsuffix : ∀ count rest, Leads (r.callFrom (count + 1) callee) (r.callFrom count e) c ts' mid hi rest) :
    CallsTo r c e (ts ++ ts') lo hi := by
  obtain ⟨used, hused, hleads⟩ := h
  have := List.length_pos_iff.mpr hts'
  refine ⟨used + 1, by rw [List.length_append]; omega, fun count rest => ?_⟩
  rw [Nat.add_assoc, Nat.add_comm 1 count]
  exact (hleads (count + 1) _).trans (hsuffix count rest)

/-- Calls are read from their tokens, up to where nothing holds on to them. -/
theorem yields (h : CallsTo r c e ts lo hi) (hlength : ts.length ≤ r.bound)
    (hstops : Stops callHeight c rest) : Yields r.call c ts e lo hi rest := by
  obtain ⟨used, hused, hleads⟩ := h
  obtain ⟨left, hleft⟩ := Nat.exists_eq_add_of_le (Nat.le_trans hused hlength)
  unfold Rules.call
  rw [hleft, ← List.append_nil ts]
  refine (hleads left rest).trans ?_
  cases left with
  | zero => exact .refl
  | succ left => exact Leads.take?_none (hstops.choose_none (Nat.le_refl _) grip?_suffix) .refl

end CallsTo

private theorem no_operator {k : TokenKind} (h : (start? k).isSome) :
    unaryOp? k = none ∧ binaryOnlyOp? k = none := by
  cases k <;> first | exact ⟨rfl, rfl⟩ | cases h

/-- A call is an operand of the tightest level: no operator stands in front of it. -/
theorem ReadsAt.of_calls {r : Rules} (h : CallsTo r c e ts lo hi) (hlength : ts.length ≤ r.bound)
    (hopens : (Phrase.expression e).Opens ts) (hheight : callHeight ≤ e.height) :
    ReadsAt r .unary c e ts lo hi := by
  intro rest hstops
  obtain ⟨first, more, rfl, hstart, _⟩ := hopens
  have hnone := no_operator (hstart.resolve_right fun h => Nat.not_succ_le_self _ (Nat.le_trans hheight h.2))
  refine Leads.take?_none ?_ (Leads.take?_none ?_ (h.yields hlength (hstops.mono (Nat.le_succ _))))
  · rintro _ ⟨⟩
    exact hnone.1
  · rintro _ ⟨⟩
    exact hnone.2

end Reading

section Separated

variable {α : Type} {item : Reader α} {P : α → List Token → Nat → Nat → Prop} {c : Context}
  {bound : Nat} {xs before : List α} {ts rest : List Token} {lo hi : Nat} {close : Token}

private theorem yields_oneMore (tooMany : SyntaxCause) {x : α} (hlimit : before.length < maxArguments)
    (hitem : Yields item c ts x lo hi (close :: rest)) (hclose : close.kind ≠ .comma) :
    Yields (oneMore tooMany item before) c ts (x :: before, false) lo hi (close :: rest) := by
  unfold oneMore
  rw [if_neg (Nat.not_le.mpr hlimit)]
  refine Leads.bind_last hitem (Leads.accept_none ?_ .refl)
  rintro _ ⟨⟩
  exact hclose

private theorem yields_oneMore_comma (tooMany : SyntaxCause) {x : α} {comma : Token}
    (hlimit : before.length < maxArguments) (hitem : Yields item c ts x lo hi (comma :: rest))
    (hcomma : comma.kind = .comma) :
    Yields (oneMore tooMany item before) c (ts ++ [comma]) (x :: before, true) lo hi rest := by
  unfold oneMore
  rw [if_neg (Nat.not_le.mpr hlimit)]
  exact Leads.bind hitem (Leads.accept hcomma .refl)

/-- Items with commas between them are read up to the parenthesis that closes them. -/
theorem yields_separated (tooMany : SyntaxCause)
    (hitem : ∀ {x ts lo hi token rest}, P x ts lo hi → ts.length ≤ bound →
      token.kind = .comma ∨ token.kind = .rightParen → Yields item c ts x lo hi (token :: rest))
    (h : Listed P xs ts lo hi) {commas : Nat} (before : List α) (hbound : ts.length ≤ bound)
    (hcommas : ts.length ≤ commas) (hlimit : before.length + xs.length ≤ maxArguments)
    (hclose : close.kind = .rightParen) :
    Yields (separated tooMany item commas before) c ts (before.reverse ++ xs) lo hi (close :: rest) := by
  induction h generalizing commas before with
  | @last x ts lo hi hx =>
    have hone := yields_oneMore tooMany hlimit
      (hitem hx hbound (.inr hclose) : Yields item c ts x lo hi (close :: rest))
      (by rw [hclose]; nofun)
    have hresult : (x :: before).reverse = before.reverse ++ [x] := List.reverse_cons
    cases commas with
    | zero => exact Leads.bind_pure hone (congrArg pure hresult)
    | succ commas => exact Leads.bind_pure hone (congrArg pure hresult)
  | @cons x xs comma ts ts' lo mid hi hx hcomma _ ih =>
    rw [List.length_append, List.length_cons] at hbound hcommas
    rw [List.length_cons] at hlimit
    obtain ⟨commas, rfl⟩ := Nat.exists_eq_add_one_of_ne_zero (show commas ≠ 0 by omega)
    have hfirst : Yields item c ts x lo mid (comma :: (ts' ++ close :: rest)) :=
      hitem hx (by omega) (.inl hcomma)
    have hone := yields_oneMore_comma tooMany (show before.length < maxArguments by omega) hfirst hcomma
    have hmore := ih (x :: before) (by omega) (show ts'.length ≤ commas by omega)
      (by rw [List.length_cons]; omega)
    rw [List.reverse_cons, List.append_assoc, List.singleton_append] at hmore
    rw [List.append_cons]
    exact Leads.bind hone hmore

end Separated

open Rules

/-- The rules for inputs of these tokens read them as this expression. -/
structure ReadsExpression (c : Context) (e : Expr) (ts : List Token) (lo hi : Nat) : Prop where
  level : ∀ {n level}, ts.length ≤ n → Level.height level ≤ e.height →
    ReadsAt (below n) level c e ts lo hi
  calls : ∀ {n}, ts.length ≤ n → callHeight ≤ e.height → CallsTo (below n) c e ts lo hi

/-- The rules for inputs of these tokens read them as this function. -/
def ReadsCode (c : Context) (code : Lambda) (ts : List Token) (lo hi : Nat) : Prop :=
  ∀ n role rest, ts.length ≤ n → Yields ((below n).code role) c ts code lo hi rest

namespace ReadsExpression

variable {c : Context} {e left right : Expr} {ts ts' ts'' rest : List Token} {token : Token}
  {lo mid mid' hi n : Nat} {level : Level}

/-- An expression is read at every level that is no higher than its height. -/
theorem yields (level : Level) (h : ReadsExpression c e ts lo hi) (hlength : ts.length ≤ n)
    (hlevel : level.height ≤ e.height) (hstops : Stops level.height c rest) :
    Yields ((below n).expressionAt level) c ts e lo hi rest :=
  (h.level hlength hlevel).yields (by rwa [bound_below]) hstops

/-- The rules that are nested in others are for one token less. -/
theorem nested (h : ReadsExpression c e ts lo hi) (hlength : ts.length < n)
    (hlevel : level.height ≤ e.height) (hstops : Stops level.height c rest) :
    Yields ((below n).expression level) c ts e lo hi rest := by
  obtain ⟨n, rfl⟩ := Nat.exists_eq_add_one_of_ne_zero (Nat.ne_zero_of_lt hlength)
  exact h.yields level (Nat.le_of_lt_succ hlength) hlevel hstops

/-- What the level of its height reads, all looser levels read. -/
theorem of_level (level : Level) (hheight : e.height = level.height)
    (h : ∀ n, ts.length ≤ n → ReadsAt (below n) level c e ts lo hi) : ReadsExpression c e ts lo hi where
  level hlength hle := (h _ hlength).climb (by rwa [bound_below]) (hheight ▸ hle)
  calls _ hle := by
    rw [hheight] at hle
    exact absurd hle (by cases level <;> decide)

/-- What is read as a call, all levels read. -/
theorem of_calls (hopens : (Phrase.expression e).Opens ts) (hheight : callHeight ≤ e.height)
    (h : ∀ n, ts.length ≤ n → CallsTo (below n) c e ts lo hi) : ReadsExpression c e ts lo hi where
  level {n level} hlength _ := by
    have hbound : ts.length ≤ (below n).bound := by rwa [bound_below]
    refine (ReadsAt.of_calls (h n hlength) hbound hopens hheight).climb hbound ?_
    cases level <;> decide
  calls hlength _ := h _ hlength

/-- What is read as a primary expression, all levels read. -/
theorem of_primary (hopens : (Phrase.expression e).Opens ts) (hheight : e.height = primaryHeight)
    (h : ∀ n rest, ts.length ≤ n → Yields (below n).primary c ts e lo hi rest) :
    ReadsExpression c e ts lo hi :=
  of_calls hopens (hheight ▸ Nat.le_succ _) fun n hlength =>
    CallsTo.primary fun rest => h n rest hlength

theorem literal {value : Literal} (hopens : (Phrase.expression (.literal value token.line)).Opens [token])
    (hkind : token.kind = value.kind) : ReadsExpression c (.literal value token.line) [token] lo lo :=
  of_primary hopens rfl fun _ _ _ => Leads.take? ((start?_eq_some (.literal value)).mpr hkind) .refl

/-- Parentheses raise what is in them to the top of the ladder, with commas as operators inside. -/
theorem grouping {inner : Expr} {right : Token}
    (hopens : (Phrase.expression (.grouping inner)).Opens (token :: (ts ++ [right])))
    (hleft : token.kind = .leftParen) (hinner : ReadsExpression c.inGrouping inner ts lo hi)
    (hright : right.kind = .rightParen) :
    ReadsExpression c (.grouping inner) (token :: (ts ++ [right])) lo hi := by
  refine of_primary hopens rfl fun n rest hlength => ?_
  rw [List.length_cons, List.length_append] at hlength
  refine Leads.take? ((start?_eq_some .grouping).mpr hleft) ?_
  refine Leads.bind (Leads.within (hinner.nested (by omega) (Nat.zero_le _) ?_)) (Leads.expect hright .refl)
  exact Stops.of_none (by rw [hright]; rfl)

theorem name (hopens : (Phrase.expression (.name ⟨lo, token.toMark⟩)).Opens [token])
    (hkind : token.kind = .identifier) :
    ReadsExpression c (.name ⟨lo, token.toMark⟩) [token] lo (lo + 1) :=
  of_primary hopens rfl fun _ _ _ =>
    Leads.take? ((start?_eq_some .name).mpr hkind) (Leads.freshId .refl)

theorem this (hopens : (Phrase.expression (.this ⟨lo, token.toMark⟩)).Opens [token])
    (hkind : token.kind = .this) :
    ReadsExpression c (.this ⟨lo, token.toMark⟩) [token] lo (lo + 1) :=
  of_primary hopens rfl fun _ _ _ =>
    Leads.take? ((start?_eq_some .this).mpr hkind) (Leads.freshId .refl)

theorem super {dot method : Token}
    (hopens : (Phrase.expression (.super ⟨lo, token.toMark⟩ method.toMark)).Opens [token, dot, method])
    (hkind : token.kind = .super) (hdot : dot.kind = .dot) (hmethod : method.kind = .identifier) :
    ReadsExpression c (.super ⟨lo, token.toMark⟩ method.toMark) [token, dot, method] lo (lo + 1) :=
  of_primary hopens rfl fun _ _ _ =>
    Leads.take? ((start?_eq_some .super).mpr hkind)
      (Leads.expect hdot (Leads.expectName hmethod (Leads.freshId .refl)))

theorem lambda {code : Lambda} (hopens : (Phrase.expression (.lambda token.toMark code)).Opens (token :: ts))
    (hkind : token.kind = .fun) (hcode : ReadsCode c code ts lo hi) :
    ReadsExpression c (.lambda token.toMark code) (token :: ts) lo hi := by
  refine of_primary hopens rfl fun n rest hlength => ?_
  refine Leads.take? ((start?_eq_some .lambda).mpr hkind) (Leads.bind_pure ?_ rfl)
  exact hcode n .function rest (Nat.le_of_succ_le hlength)

theorem get {dot property : Token} (hopens : (Phrase.expression (.get e property.toMark)).Opens
      (ts ++ [dot, property])) (hobject : ReadsExpression c e ts lo hi) (hheight : callHeight ≤ e.height)
    (hdot : dot.kind = .dot) (hproperty : property.kind = .identifier) :
    ReadsExpression c (.get e property.toMark) (ts ++ [dot, property]) lo hi := by
  refine of_calls hopens (Nat.le_refl _) fun n hlength => ?_
  rw [List.length_append] at hlength
  refine (hobject.calls (by omega) hheight).more (List.cons_ne_nil _ _) fun count rest => ?_
  exact Leads.take? ((suffix?_eq_some .property).mpr hdot) (Leads.expectName hproperty .refl)

/-- The first argument shows that there are some. -/
private theorem yields_arguments {es : List Expr} {close : Token} (hcommas : c.commas = false)
    (hopens : (Phrase.arguments es).Opens ts) (hempty : es = [] → ts = [] ∧ lo = hi)
    (hlisted : es ≠ [] → Listed (ReadsExpression c) es ts lo hi) (hlimit : es.length ≤ maxArguments)
    (hlength : ts.length < n) (hclose : close.kind = .rightParen) :
    Yields (below n).arguments c ts es lo hi (close :: rest) := by
  cases es with
  | nil =>
    obtain ⟨rfl, rfl⟩ := hempty rfl
    exact Leads.next_true rfl hclose .refl
  | cons first more =>
    obtain ⟨token, tokens, rfl, _, htoken⟩ := hopens
    refine Leads.next_false (by rintro _ ⟨⟩; exact htoken) ?_
    have hbound : (token :: tokens).length ≤ (below n).bound := by
      rw [bound_below]
      exact Nat.le_of_lt hlength
    refine yields_separated (P := ReadsExpression c) .tooManyArguments ?_
      (hlisted (List.cons_ne_nil _ _)) [] (Nat.le_refl _) hbound (by simpa using hlimit) hclose
    intro e ts lo hi token rest he hts htoken
    refine he.nested (Nat.lt_of_le_of_lt hts hlength) (Nat.zero_le _) (Stops.of_none ?_)
    rcases htoken with htoken | htoken <;> simp [htoken, Context.grip?, hcommas]

/-- A call is read if its callee stands high enough and its arguments are read in their context. -/
theorem call {callee : Expr} {arguments : List Expr} {open' close : Token}
    (hopens : (Phrase.expression (.call callee close.toMark arguments)).Opens
      (ts ++ open' :: (ts' ++ [close])))
    (hopens' : (Phrase.arguments arguments).Opens ts')
    (hcallee : ReadsExpression c callee ts lo mid) (hheight : callHeight ≤ callee.height)
    (hopen : open'.kind = .leftParen) (hempty : arguments = [] → ts' = [] ∧ mid = hi)
    (hlisted : arguments ≠ [] → Listed (ReadsExpression c.inArguments) arguments ts' mid hi)
    (hlimit : arguments.length ≤ maxArguments) (hclose : close.kind = .rightParen) :
    ReadsExpression c (.call callee close.toMark arguments) (ts ++ open' :: (ts' ++ [close])) lo hi := by
  refine of_calls hopens (Nat.le_refl _) fun n hlength => ?_
  simp only [List.length_append, List.length_cons, List.length_nil] at hlength
  refine (hcallee.calls (by omega) hheight).more (List.cons_ne_nil _ _) fun count rest => ?_
  refine Leads.take? ((suffix?_eq_some .arguments).mpr hopen) ?_
  refine Leads.bind (Leads.within ?_) (Leads.expect hclose .refl)
  exact yields_arguments rfl hopens' hempty hlisted hlimit (by omega) hclose

/-- A sign is read in front of an operand that stands high enough. -/
theorem unary {op : UnaryOp} (hkind : token.kind = op.kind) (hright : ReadsExpression c right ts lo hi)
    (hheight : Level.unary.height ≤ right.height) :
    ReadsExpression c (.unary op token.toMark right) (token :: ts) lo hi := by
  refine of_level .unary rfl fun n hlength rest hstops => ?_
  refine Leads.take? (unaryOp?_eq_some.mpr hkind) (Leads.bind_pure ?_ rfl)
  exact hright.nested (Nat.lt_of_succ_le hlength) hheight hstops

private theorem readsAt_binary {r : Rules} {op : BinaryOp} : ReadsAt r op.level c e ts lo hi =
    ChainsTo r op.level op.level.binaryOp? .binary c e ts lo hi := by
  cases op <;> rfl

private theorem readsAt_logical {r : Rules} {op : LogicalOp} : ReadsAt r op.level c e ts lo hi =
    ChainsTo r op.level op.level.logicalOp? .logical c e ts lo hi := by
  cases op <;> rfl

/-- A binary operator is read between a left operand of its level and a right one above it. -/
theorem binary {op : BinaryOp} (hleft : ReadsExpression c left ts lo mid)
    (hle : op.level.height ≤ left.height) (hkind : token.kind = op.kind)
    (hright : ReadsExpression c right ts' mid hi) (hlt : op.level.height < right.height) :
    ReadsExpression c (.binary op token.toMark left right) (ts ++ token :: ts') lo hi := by
  refine of_level op.level rfl fun n hlength => ?_
  rw [List.length_append, List.length_cons] at hlength
  have hchain := hleft.level (n := n) (by omega) hle
  rw [readsAt_binary] at hchain ⊢
  have htoken : op.level.binaryOp? token.kind = some op := binaryOp?_eq_some.mpr ⟨hkind, rfl⟩
  refine hchain.more htoken (grip?_binaryOp htoken) fun rest hstops => ?_
  have htighter : op.level.tighter.height = op.level.height + 1 :=
    Level.height_tighter (by cases op <;> nofun)
  exact hright.yields op.level.tighter (by omega) (by omega) (htighter ▸ hstops)

theorem logical {op : LogicalOp} (hleft : ReadsExpression c left ts lo mid)
    (hle : op.level.height ≤ left.height) (hkind : token.kind = op.kind)
    (hright : ReadsExpression c right ts' mid hi) (hlt : op.level.height < right.height) :
    ReadsExpression c (.logical op token.toMark left right) (ts ++ token :: ts') lo hi := by
  refine of_level op.level rfl fun n hlength => ?_
  rw [List.length_append, List.length_cons] at hlength
  have hchain := hleft.level (n := n) (by omega) hle
  rw [readsAt_logical] at hchain ⊢
  have htoken : op.level.logicalOp? token.kind = some op := logicalOp?_eq_some.mpr ⟨hkind, rfl⟩
  refine hchain.more htoken (grip?_logicalOp htoken) fun rest hstops => ?_
  have htighter : op.level.tighter.height = op.level.height + 1 :=
    Level.height_tighter (by cases op <;> nofun)
  exact hright.yields op.level.tighter (by omega) (by omega) (htighter ▸ hstops)

theorem comma (hcommas : c.commas = true) (hleft : ReadsExpression c left ts lo mid)
    (hle : Level.comma.height ≤ left.height) (hkind : token.kind = .comma)
    (hright : ReadsExpression c right ts' mid hi) (hlt : Level.comma.height < right.height) :
    ReadsExpression c (.comma left right) (ts ++ token :: ts') lo hi := by
  refine of_level .comma rfl fun n hlength => ?_
  rw [List.length_append, List.length_cons] at hlength
  have hchain := hleft.level (n := n) (by omega) hle
  simp only [ReadsAt, if_pos hcommas] at hchain ⊢
  refine hchain.more ((commaOp?_eq_some ()).mpr hkind) ?_ fun rest hstops => ?_
  · exact grip?_commaOp hcommas ((commaOp?_eq_some ()).mpr hkind)
  · exact hright.yields .equality (by omega) hlt hstops

/-- A condition is read with branches of which the first may be any assignment. -/
theorem conditional {condition yes no : Expr} {question colon : Token}
    (hcondition : ReadsExpression c condition ts lo mid) (hle : Level.comma.height ≤ condition.height)
    (hquestion : question.kind = .question) (hyes : ReadsExpression c yes ts' mid mid')
    (hcolon : colon.kind = .colon) (hno : ReadsExpression c no ts'' mid' hi)
    (hle' : Level.conditional.height ≤ no.height) :
    ReadsExpression c (.conditional condition yes no) (ts ++ question :: (ts' ++ colon :: ts'')) lo hi := by
  refine of_level .conditional rfl fun n hlength rest hstops => ?_
  simp only [List.length_append, List.length_cons] at hlength
  refine Leads.bind (hcondition.yields .comma (by omega) hle ?_) ?_
  · refine Stops.cons ?_
    rw [hquestion]
    rintro _ ⟨⟩
    decide
  · refine Leads.accept hquestion (Leads.bind (hyes.nested (by omega) (Nat.zero_le _) ?_) ?_)
    · exact Stops.of_none (by rw [hcolon]; rfl)
    · exact Leads.expect hcolon (Leads.bind_pure (hno.nested (by omega) hle' hstops) rfl)

/-- The target is read as any expression is, up to the sign behind it. -/
private theorem yields_target {equal : Token} (h : ReadsExpression c e ts lo hi) (hlength : ts.length ≤ n)
    (hheight : callHeight ≤ e.height) (hequal : equal.kind = .equal) :
    Yields (below n).or c ts e lo hi (equal :: rest) := by
  refine h.yields .or hlength (Nat.le_trans (by decide) hheight) (Stops.cons ?_)
  rw [hequal]
  rintro _ ⟨⟩
  decide

/-- An assignment to a name is read, with the name as its target. -/
theorem assign {equal : Token} {value : Expr}
    (htarget : ReadsExpression c (.name ⟨lo, token.toMark⟩) [token] lo (lo + 1))
    (hequal : equal.kind = .equal) (hvalue : ReadsExpression c value ts (lo + 1) mid) :
    ReadsExpression c (.assign ⟨mid, token.toMark⟩ value) (token :: equal :: ts) lo (mid + 1) := by
  refine of_level .assignment rfl fun n hlength rest hstops => ?_
  simp only [List.length_cons] at hlength
  show Yields (below n).assignment c ([token] ++ equal :: ts) _ lo _ rest
  refine Leads.bind (yields_target htarget (by simp; omega) (Nat.le_succ _) hequal) ?_
  refine Leads.accept hequal (Leads.bind_last (hvalue.nested (by omega) (Nat.zero_le _) hstops) ?_)
  exact Leads.freshId .refl

/-- An assignment to a property is read, with the object evaluated first. -/
theorem set {dot property equal : Token} {object value : Expr}
    (htarget : ReadsExpression c (.get object property.toMark) (ts ++ [dot, property]) lo mid)
    (hequal : equal.kind = .equal) (hvalue : ReadsExpression c value ts' mid hi) :
    ReadsExpression c (.set object property.toMark value) (ts ++ dot :: property :: equal :: ts') lo hi := by
  refine of_level .assignment rfl fun n hlength rest hstops => ?_
  simp only [List.length_append, List.length_cons] at hlength
  rw [show ts ++ dot :: property :: equal :: ts' = (ts ++ [dot, property]) ++ equal :: ts' by simp]
  refine Leads.bind (yields_target htarget (by simp; omega) (Nat.le_refl _) hequal) ?_
  exact Leads.accept hequal (Leads.bind_last (hvalue.nested (by omega) (Nat.zero_le _) hstops) .refl)

end ReadsExpression

end Lox.Grammar
