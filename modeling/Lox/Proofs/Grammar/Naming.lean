import Lox.Grammar.Source
import Lox.Proofs.Binding.Outline
import Lox.Proofs.Grammar.Program

namespace Lox

open Landmark (AllNamed allNamed_append)

/-- Expressions in a row are named well if each of them is. -/
theorem Expr.allNamed_outlineAll {es : List Expr} :
    AllNamed (Expr.outlineAll es) ↔ ∀ e ∈ es, AllNamed e.outline := by
  induction es with
  | nil => simp [Expr.outlineAll, AllNamed]
  | cons e rest ih => rw [Expr.outlineAll, allNamed_append, ih, List.forall_mem_cons]

/-- Methods are named well if the code of each is. -/
theorem Definition.allNamed_outlineAll {ds : List Definition} :
    AllNamed (Definition.outlineAll ds) ↔ ∀ d ∈ ds, AllNamed d.code.outline := by
  induction ds with
  | nil => simp [Definition.outlineAll, AllNamed]
  | cons d rest ih =>
    obtain ⟨name, code⟩ := d
    rw [Definition.outlineAll, allNamed_append, ih, List.forall_mem_cons]

/-- Statements in a row are named well if each of them is. -/
theorem Stmt.allNamed_outlineAll {body : List Stmt} :
    AllNamed (Stmt.outlineAll body) ↔ ∀ s ∈ body, AllNamed s.outline := by
  induction body with
  | nil => simp [Stmt.outlineAll, AllNamed]
  | cons s rest ih => rw [Stmt.outlineAll, allNamed_append, ih, List.forall_mem_cons]

/-- Parameters and a body are named like the body. -/
theorem Lambda.allNamed_outline {params : List Mark} {body : List Stmt}
    (h : ∀ s ∈ body, AllNamed s.outline) : AllNamed (Lambda.outline ⟨params, body⟩) := by
  have hparams : AllNamed (params.map (Landmark.declare · .parameter)) := by
    induction params with
    | nil => trivial
    | cons param params ih => exact ⟨nofun, ih⟩
  exact ⟨allNamed_append.mpr ⟨hparams, Stmt.allNamed_outlineAll.mpr h⟩, trivial⟩

/-- A class is named well if it is a name like others and its methods are named well. -/
theorem Landmark.allNamed_ofClass {name : Mark} (hname : name.Plain) (superclass : Option Ref)
    {methods : List Landmark} (h : AllNamed methods) : AllNamed (ofClass name superclass methods) := by
  have himplicit (word : String) : (declare ⟨word, name.line⟩ .implicit).Named := nofun
  cases superclass with
  | none => exact ⟨fun _ => hname, ⟨himplicit _, h⟩, trivial⟩
  | some parent => exact ⟨fun _ => hname, trivial, ⟨himplicit _, ⟨himplicit _, h⟩, trivial⟩, trivial⟩

namespace Grammar

variable {α β : Type} {read : Reader α} {P Q : α → Prop}

/-- What has been read is as `P` says, and the tokens that are left are spelled as their kinds say. -/
def SpelledResult (P : α → Prop) : EStateM.Result SyntaxError State α → Prop
  | .ok a s => P a ∧ s.Spelled
  | .error _ s => s.Spelled

/-- From tokens that are spelled as their kinds say, the reader reads what `P` says, with errors or
    without. -/
def Spells (read : Reader α) (P : α → Prop) : Prop :=
  ∀ s, s.Spelled → SpelledResult P (read s)

namespace Spells

/-- Readers of what is spelled well can go on one after the other. -/
theorem bind {f : α → Reader β} {R : β → Prop} (h : Spells read P) (hf : ∀ a, P a → Spells (f a) R) :
    Spells (read >>= f) R := by
  intro s hs
  have hread := h s hs
  rw [bind_apply]
  cases hresult : read s with
  | ok a s' =>
    rw [hresult] at hread
    exact hf a hread.1 s' hread.2
  | error e s' =>
    rw [hresult] at hread
    exact hread

/-- What is read first is of no account. -/
theorem skip {f : α → Reader β} {R : β → Prop} (h : Spells read P) (hf : ∀ a, Spells (f a) R) :
    Spells (read >>= f) R :=
  h.bind fun a _ => hf a

theorem some (h : Spells read P) : Spells (Option.some <$> read) fun found => ∀ a ∈ found, P a := by
  rw [← bind_pure_comp]
  refine h.bind fun a ha s hs => ⟨fun a' ha' => ?_, hs⟩
  cases ha'
  exact ha

/-- What is read in a changed context is spelled as well. -/
theorem within (h : Spells read P) (change : Change) : Spells (within change read) P := by
  intro s hs
  have hread := h { s with context := change.enter s.context } hs
  unfold Grammar.within
  cases hresult : read { s with context := change.enter s.context } with
  | ok a s' =>
    rw [hresult] at hread
    exact hread
  | error e s' =>
    rw [hresult] at hread
    exact hread

end Spells

theorem spells_pure {a : α} (h : P a) : Spells (pure a) P :=
  fun _ hs => ⟨h, hs⟩

theorem spells_fail (cause : SyntaxCause) : Spells (fail cause) P :=
  fun _ hs => hs

theorem spells_report (cause : SyntaxCause) (site : Site) : Spells (report cause site) fun _ => True :=
  fun _ hs => ⟨trivial, hs⟩

theorem spells_reportHere (cause : SyntaxCause) : Spells (reportHere cause) fun _ => True :=
  fun _ hs => ⟨trivial, hs⟩

theorem spells_freshId : Spells freshId fun _ => True :=
  fun _ hs => ⟨trivial, hs⟩

theorem spells_get : Spells (get : Reader State) fun _ => True :=
  fun _ hs => ⟨trivial, hs⟩

theorem spells_atEnd : Spells atEnd fun _ => True :=
  fun _ hs => ⟨trivial, hs⟩

theorem spells_next (kind : TokenKind) : Spells (next kind) fun _ => True :=
  fun _ hs => ⟨trivial, hs⟩

theorem spells_definesFunction : Spells Rules.definesFunction fun _ => True :=
  fun _ hs => ⟨trivial, hs⟩

/-- A token that is taken is spelled as its kind says. -/
theorem spells_take? (choose : TokenKind → Option α) :
    Spells (take? choose) fun found => ∀ taken ∈ found,
      ∃ kind, choose kind = some taken.1 ∧ Token.Spelled ⟨taken.2, kind⟩ := by
  intro s hs
  rcases take?_cases choose s with hnone | ⟨a, token, more, hrest, hchoose, hsome⟩
  · rw [hnone]
    exact ⟨nofun, hs⟩
  · rw [hsome]
    refine ⟨?_, fun t ht => hs t ?_⟩
    · rintro _ ⟨⟩
      exact ⟨token.kind, hchoose, hs token (hrest ▸ List.mem_cons_self)⟩
    · rw [State.rest_succ hrest] at ht
      exact hrest ▸ List.mem_cons_of_mem _ ht

theorem spells_accept (kind : TokenKind) :
    Spells (accept kind) fun found => ∀ mark ∈ found, Token.Spelled ⟨mark, kind⟩ := by
  refine (spells_take? _).bind fun found hfound => spells_pure fun mark hmark => ?_
  obtain ⟨taken, htaken, rfl⟩ := Option.map_eq_some_iff.mp hmark
  obtain ⟨other, hchoose, hspelled⟩ := hfound taken htaken
  split at hchoose
  · rename_i hkind
    exact hkind ▸ hspelled
  · cases hchoose

theorem spells_expect (place : Place) : Spells (expect place) fun _ => True := by
  refine (spells_accept _).skip fun found => ?_
  cases found with
  | none => exact spells_fail _
  | some mark => exact spells_pure trivial

/-- A name is never one of the language's own, since these are keywords. -/
theorem spells_expectName (role : NameRole) : Spells (expectName role) Mark.Plain := by
  refine (spells_accept _).bind fun found hfound => ?_
  cases found with
  | none => exact spells_fail _
  | some mark => exact spells_pure ((hfound mark rfl).identifier rfl)

theorem spells_reverse {xs : List α} (h : ∀ x ∈ xs, P x) :
    Spells (pure xs.reverse) fun items => ∀ x ∈ items, P x :=
  spells_pure fun x hx => h x (List.mem_reverse.mp hx)

/-- One item more is spelled well if the item is. -/
theorem spells_oneMore (tooMany : SyntaxCause) (h : Spells read P) {before : List α}
    (hbefore : ∀ x ∈ before, P x) :
    Spells (oneMore tooMany read before) fun found => ∀ x ∈ found.1, P x := by
  have hrest : Spells (do let x ← read; return (x :: before, (← accept .comma).isSome)) fun found =>
      ∀ x ∈ found.1, P x :=
    h.bind fun x hx => (spells_accept _).skip fun _ =>
      spells_pure (List.forall_mem_cons.mpr ⟨hx, hbefore⟩)
  unfold oneMore
  split
  · exact (spells_reportHere _).skip fun _ => hrest
  · exact hrest

/-- Items in a row are spelled well if the item is. -/
theorem spells_separated (tooMany : SyntaxCause) (h : Spells read P) (commas : Nat) {before : List α}
    (hbefore : ∀ x ∈ before, P x) :
    Spells (separated tooMany read commas before) fun items => ∀ x ∈ items, P x := by
  induction commas generalizing before with
  | zero => exact (spells_oneMore tooMany h hbefore).bind fun found hfound => spells_reverse hfound
  | succ commas ih =>
    refine (spells_oneMore tooMany h hbefore).bind fun found hfound => ?_
    obtain ⟨items, comma⟩ := found
    cases comma with
    | true => exact ih hfound
    | false => exact spells_reverse hfound

/-- Readers of expressions whose names are spelled as they should be. -/
abbrev SpellsExpr (read : Reader Expr) : Prop :=
  Spells read fun e => AllNamed e.outline

/-- A chain of operators is spelled well if its operands are. -/
theorem spells_chain {op : Type} {operand : Reader Expr} {operator? : TokenKind → Option op}
    {join : op → Mark → Expr → Expr → Expr} (hoperand : SpellsExpr operand)
    (hjoin : ∀ o mark left right, (join o mark left right).outline = left.outline ++ right.outline)
    (operators : Nat) : SpellsExpr (chain operators operand operator? join) := by
  refine hoperand.bind fun first hfirst => ?_
  induction operators generalizing first with
  | zero => exact spells_pure hfirst
  | succ operators ih =>
    refine (spells_take? _).skip fun found => ?_
    cases found with
    | none => exact spells_pure hfirst
    | some found =>
      refine hoperand.bind fun right hright => ih _ ?_
      rw [hjoin]
      exact allNamed_append.mpr ⟨hfirst, hright⟩

/-- Every rule reads trees whose names are spelled as they should be. -/
structure Rules.Spelled (r : Rules) : Prop where
  expression : ∀ level, SpellsExpr (r.expression level)
  statement : Spells r.statement fun s => AllNamed s.outline
  declaration : Spells r.declaration fun entry => ∀ s ∈ entry, AllNamed s.outline

/-- The words `this` and `super` are not names of programs. -/
theorem not_plain_of_start? {kind : TokenKind} {mark : Mark} {start : Start} (h : start? kind = some start)
    (hstart : start = .this ∨ start = .super) (hspelled : Token.Spelled ⟨mark, kind⟩) : ¬ mark.Plain := by
  rcases hstart with rfl | rfl
  · have hkind : kind = .this := by cases kind <;> cases h; rfl
    exact fun hplain => hplain.1 (hspelled.this hkind)
  · have hkind : kind = .super := by cases kind <;> cases h; rfl
    exact fun hplain => hplain.2 (hspelled.super hkind)

namespace Rules

variable {r : Rules} (hr : r.Spelled)
include hr

/-- Declarations are spelled well behind those already read. -/
theorem spells_declarations (count : Nat) {before : List Stmt} (hbefore : ∀ s ∈ before, AllNamed s.outline) :
    Spells (r.declarations count before) fun body => ∀ s ∈ body, AllNamed s.outline := by
  induction count generalizing before with
  | zero => exact spells_reverse hbefore
  | succ count ih =>
    refine spells_atEnd.skip fun ended => (spells_next _).skip fun closed => ?_
    split
    · exact spells_reverse hbefore
    · refine hr.declaration.bind fun entry hentry => ?_
      cases entry with
      | none => exact ih hbefore
      | some s => exact ih (List.forall_mem_cons.mpr ⟨hentry s rfl, hbefore⟩)

theorem spells_block : Spells r.block fun body => ∀ s ∈ body, AllNamed s.outline :=
  (spells_declarations hr _ (List.forall_mem_nil _)).bind fun _ hbody =>
    (spells_expect _).skip fun _ => spells_pure hbody

/-- The parameters of code are names like others, and its body is spelled well. -/
theorem spells_code (role : CodeRole) : Spells (r.code role) fun code => AllNamed code.outline := by
  have hrest (params : List Mark) : Spells (do
      let _ ← expect .parametersEnd
      let _ ← expect (.body role)
      let body ← within .body r.block
      return (⟨params, body⟩ : Lambda)) fun code => AllNamed code.outline :=
    (spells_expect _).skip fun _ => (spells_expect _).skip fun _ =>
      ((spells_block hr).within _).bind fun _ hbody => spells_pure (Lambda.allNamed_outline hbody)
  refine (spells_expect _).skip fun _ => (spells_next _).skip fun empty => ?_
  split
  · exact hrest []
  · exact (spells_separated _ (spells_expectName _) _ (List.forall_mem_nil _)).skip hrest

/-- A primary expression is spelled well. A name in it is an identifier. -/
theorem spells_primary : SpellsExpr r.primary := by
  refine (spells_take? _).bind fun found hfound => ?_
  cases found with
  | none => exact spells_fail _
  | some found =>
    obtain ⟨start, mark⟩ := found
    obtain ⟨kind, hkind, hspelled⟩ := hfound _ rfl
    cases start with
    | literal value => exact spells_pure trivial
    | name => exact spells_freshId.skip fun id => spells_pure ⟨trivial, trivial⟩
    | this =>
      exact spells_freshId.skip fun id =>
        spells_pure ⟨not_plain_of_start? hkind (.inl rfl) hspelled, trivial⟩
    | super =>
      refine (spells_expect _).skip fun _ => (spells_expectName _).skip fun method => ?_
      exact spells_freshId.skip fun id =>
        spells_pure ⟨not_plain_of_start? hkind (.inr rfl) hspelled, trivial⟩
    | lambda => exact (spells_code hr _).bind fun code hcode => spells_pure hcode
    | grouping =>
      exact ((hr.expression _).within _).bind fun inner hinner => (spells_expect _).skip fun _ =>
        spells_pure hinner

theorem spells_arguments : Spells r.arguments fun arguments => ∀ e ∈ arguments, AllNamed e.outline := by
  refine (spells_next _).skip fun empty => ?_
  split
  · exact spells_pure nofun
  · exact spells_separated _ (hr.expression _) _ (List.forall_mem_nil _)

theorem spells_callFrom (suffixes : Nat) {callee : Expr} (hcallee : AllNamed callee.outline) :
    SpellsExpr (r.callFrom suffixes callee) := by
  induction suffixes generalizing callee with
  | zero => exact spells_pure hcallee
  | succ suffixes ih =>
    refine (spells_take? _).skip fun found => ?_
    cases found with
    | none => exact spells_pure hcallee
    | some found =>
      obtain ⟨suffix, mark⟩ := found
      cases suffix with
      | arguments =>
        refine ((spells_arguments hr).within _).bind fun arguments harguments => ?_
        refine (spells_expect _).skip fun paren => ih ?_
        exact allNamed_append.mpr ⟨hcallee, Expr.allNamed_outlineAll.mpr harguments⟩
      | property =>
        refine (spells_expectName _).skip fun property => ih ?_
        exact hcallee

theorem spells_call : SpellsExpr r.call :=
  (spells_primary hr).bind fun _ hcallee => spells_callFrom hr _ hcallee

theorem spells_unary : SpellsExpr r.unary := by
  refine (spells_take? _).skip fun found => ?_
  cases found with
  | some found => exact (hr.expression _).bind fun right hright => spells_pure hright
  | none =>
    refine (spells_take? _).skip fun found => ?_
    cases found with
    | some found =>
      exact (spells_report _ _).skip fun _ => (hr.expression _).bind fun right hright => spells_pure hright
    | none => exact spells_call hr

theorem spells_factor : SpellsExpr r.factor :=
  spells_chain (spells_unary hr) (fun _ _ _ _ => rfl) _

theorem spells_term : SpellsExpr r.term :=
  spells_chain (spells_factor hr) (fun _ _ _ _ => rfl) _

theorem spells_comparison : SpellsExpr r.comparison :=
  spells_chain (spells_term hr) (fun _ _ _ _ => rfl) _

theorem spells_equality : SpellsExpr r.equality :=
  spells_chain (spells_comparison hr) (fun _ _ _ _ => rfl) _

theorem spells_comma : SpellsExpr r.comma := by
  refine spells_get.skip fun s => ?_
  split
  · exact spells_chain (spells_equality hr) (fun _ _ _ _ => rfl) _
  · exact spells_equality hr

theorem spells_conditional : SpellsExpr r.conditional := by
  refine (spells_comma hr).bind fun condition hcondition => (spells_accept _).skip fun question => ?_
  cases question with
  | none => exact spells_pure hcondition
  | some _ =>
    refine (hr.expression _).bind fun yes hyes => (spells_expect _).skip fun _ => ?_
    refine (hr.expression _).bind fun no hno => spells_pure ?_
    exact allNamed_append.mpr ⟨allNamed_append.mpr ⟨hcondition, hyes⟩, hno⟩

theorem spells_and : SpellsExpr r.and :=
  spells_chain (spells_conditional hr) (fun _ _ _ _ => rfl) _

theorem spells_or : SpellsExpr r.or :=
  spells_chain (spells_and hr) (fun _ _ _ _ => rfl) _

/-- An assignment is spelled well: its target is an expression that was read. -/
theorem spells_assignment : SpellsExpr r.assignment := by
  refine (spells_or hr).bind fun target htarget => (spells_accept _).skip fun equals => ?_
  cases equals with
  | none => exact spells_pure htarget
  | some equals =>
    refine (hr.expression _).bind fun value hvalue => ?_
    split
    · exact spells_freshId.skip fun id => spells_pure hvalue
    · exact spells_pure (allNamed_append.mpr ⟨hvalue, htarget⟩)
    · exact (spells_report _ _).skip fun _ => spells_pure htarget

theorem spells_expressionAt (level : Level) : SpellsExpr (r.expressionAt level) := by
  cases level with
  | assignment => exact spells_assignment hr
  | or => exact spells_or hr
  | and => exact spells_and hr
  | conditional => exact spells_conditional hr
  | comma => exact spells_comma hr
  | equality => exact spells_equality hr
  | comparison => exact spells_comparison hr
  | term => exact spells_term hr
  | factor => exact spells_factor hr
  | unary => exact spells_unary hr

theorem spells_expressionStatement : Spells r.expressionStatement fun s => AllNamed s.outline :=
  (spells_assignment hr).bind fun _ hvalue => (spells_expect _).skip fun _ => spells_pure hvalue

theorem spells_readVar : Spells r.readVar fun s => AllNamed s.outline := by
  refine (spells_expectName _).bind fun name hname => (spells_accept _).skip fun equals => ?_
  cases equals with
  | none => exact (spells_expect _).skip fun _ => spells_pure ⟨fun _ => hname, trivial⟩
  | some _ =>
    refine (spells_assignment hr).some.bind fun initial hinitial => (spells_expect _).skip fun _ => ?_
    cases initial with
    | none => exact spells_pure ⟨fun _ => hname, trivial⟩
    | some initial => exact spells_pure ⟨fun _ => hname, hinitial initial rfl⟩

theorem spells_expressionUnless (kind : TokenKind) :
    Spells (r.expressionUnless kind) fun found => ∀ e ∈ found, AllNamed e.outline := by
  refine (spells_next _).skip fun absent => ?_
  split
  · exact spells_pure nofun
  · exact (spells_assignment hr).some

omit hr in
/-- What a loop comes down to is named like its clauses and its body. -/
theorem allNamed_forLoop (line : Nat) {initial : Option Stmt} {condition increment : Option Expr}
    {body : Stmt}
    (hinitial : ∀ s ∈ initial, AllNamed s.outline) (hcondition : ∀ e ∈ condition, AllNamed e.outline)
    (hincrement : ∀ e ∈ increment, AllNamed e.outline) (hbody : AllNamed body.outline) :
    AllNamed (forLoop line initial condition increment body).outline := by
  have hiteration : AllNamed (iteration increment body).outline := by
    cases increment with
    | none => exact hbody
    | some e =>
      exact ⟨allNamed_append.mpr ⟨hbody, allNamed_append.mpr ⟨hincrement e rfl, trivial⟩⟩, trivial⟩
  have hloop : AllNamed (Stmt.while (condition.getD (.literal (.bool true) line))
      (iteration increment body)).outline := by
    refine allNamed_append.mpr ⟨?_, hiteration⟩
    cases condition with
    | none => trivial
    | some e => exact hcondition e rfl
  cases initial with
  | none => exact hloop
  | some s => exact ⟨allNamed_append.mpr ⟨hinitial s rfl, allNamed_append.mpr ⟨hloop, trivial⟩⟩, trivial⟩

/-- A loop over clauses is spelled well, in the tree that it comes down to. -/
theorem spells_readFor (line : Nat) : Spells (r.readFor line) fun s => AllNamed s.outline := by
  have hrest (initial : Option Stmt) (hinitial : ∀ s ∈ initial, AllNamed s.outline) : Spells (do
      let condition ← r.expressionUnless .semicolon
      let _ ← expect .forCondition
      let increment ← r.expressionUnless .rightParen
      let _ ← expect .forClausesEnd
      let body ← r.statement
      return forLoop line initial condition increment body) fun s => AllNamed s.outline := by
    refine (spells_expressionUnless hr _).bind fun condition hcondition => (spells_expect _).skip fun _ => ?_
    refine (spells_expressionUnless hr _).bind fun increment hincrement => (spells_expect _).skip fun _ => ?_
    refine hr.statement.bind fun body hbody => spells_pure ?_
    exact allNamed_forLoop line hinitial hcondition hincrement hbody
  refine (spells_expect _).skip fun _ => (spells_accept _).skip fun semicolon => ?_
  cases semicolon with
  | some _ => exact hrest Option.none nofun
  | none =>
    refine (spells_accept _).skip fun var => ?_
    cases var with
    | some _ => exact (spells_readVar hr).some.bind hrest
    | none => exact (spells_expressionStatement hr).some.bind hrest

theorem spells_readWhile : Spells r.readWhile fun s => AllNamed s.outline := by
  refine (spells_expect _).skip fun _ => (spells_assignment hr).bind fun condition hcondition => ?_
  refine (spells_expect _).skip fun _ => hr.statement.bind fun body hbody => ?_
  exact spells_pure (allNamed_append.mpr ⟨hcondition, hbody⟩)

theorem spells_readIf : Spells r.readIf fun s => AllNamed s.outline := by
  refine (spells_expect _).skip fun _ => (spells_assignment hr).bind fun condition hcondition => ?_
  refine (spells_expect _).skip fun _ => hr.statement.bind fun yes hyes => ?_
  have hboth : AllNamed (condition.outline ++ yes.outline) := allNamed_append.mpr ⟨hcondition, hyes⟩
  refine (spells_accept _).skip fun keyword => ?_
  cases keyword with
  | none => exact spells_pure hboth
  | some _ =>
    refine hr.statement.some.bind fun no hno => spells_pure ?_
    cases no with
    | none => exact hboth
    | some no => exact allNamed_append.mpr ⟨hboth, hno no rfl⟩

theorem spells_readPrint (keyword : Mark) : Spells (r.readPrint keyword) fun s => AllNamed s.outline :=
  (spells_assignment hr).bind fun _ hvalue => (spells_expect _).skip fun _ => spells_pure hvalue

theorem spells_readReturn (keyword : Mark) :
    Spells (r.readReturn keyword) fun s => AllNamed s.outline := by
  refine (spells_expressionUnless hr _).bind fun value hvalue => (spells_expect _).skip fun _ =>
    spells_pure ?_
  cases value with
  | none => trivial
  | some value => exact hvalue value rfl

omit hr in
theorem spells_readBreak (keyword : Mark) : Spells (readBreak keyword) fun s => AllNamed s.outline := by
  have hrest : Spells (do
      let _ ← expect .breakEnd
      return Stmt.break keyword) fun s => AllNamed s.outline :=
    (spells_expect _).skip fun _ => spells_pure trivial
  refine spells_get.skip fun s => ?_
  split
  · exact (spells_report _ _).skip fun _ => hrest
  · exact hrest

/-- A statement is spelled well. -/
theorem spells_statementRule : Spells r.statementRule fun s => AllNamed s.outline := by
  refine (spells_take? _).skip fun found => ?_
  cases found with
  | none => exact spells_expressionStatement hr
  | some found =>
    obtain ⟨start, mark⟩ := found
    cases start with
    | «for» => exact (spells_readFor hr _).within _
    | «if» => exact spells_readIf hr
    | «while» => exact (spells_readWhile hr).within _
    | «return» => exact spells_readReturn hr _
    | «break» => exact spells_readBreak _
    | block =>
      exact (spells_block hr).bind fun body hbody => spells_pure ⟨Stmt.allNamed_outlineAll.mpr hbody, trivial⟩
    | print => exact spells_readPrint hr _

theorem spells_definition (role : CodeRole) (name : NameRole) :
    Spells (r.definition role name) fun d => d.name.Plain ∧ AllNamed d.code.outline :=
  (spells_expectName _).bind fun _ hname => (spells_code hr _).bind fun _ hcode => spells_pure ⟨hname, hcode⟩

theorem spells_methods (count : Nat) {before : List Definition}
    (hbefore : ∀ d ∈ before, AllNamed d.code.outline) :
    Spells (r.methods count before) fun methods => ∀ d ∈ methods, AllNamed d.code.outline := by
  induction count generalizing before with
  | zero => exact spells_reverse hbefore
  | succ count ih =>
    refine spells_atEnd.skip fun ended => (spells_next _).skip fun closed => ?_
    split
    · exact spells_reverse hbefore
    · exact (spells_definition hr _ _).bind fun method hmethod =>
        ih (List.forall_mem_cons.mpr ⟨hmethod.2, hbefore⟩)

/-- A class is spelled well: its own name and that of its superclass are identifiers. -/
theorem spells_readClass : Spells r.readClass fun s => AllNamed s.outline := by
  have hrest (name : Mark) (hname : name.Plain) (superclass : Option Ref) : Spells (do
      let _ ← expect .classBody
      let methods ← r.methods r.bound []
      let _ ← expect .classEnd
      return Stmt.class name superclass methods) fun s => AllNamed s.outline := by
    refine (spells_expect _).skip fun _ => ?_
    refine (spells_methods hr _ (List.forall_mem_nil _)).bind fun methods hmethods => ?_
    refine (spells_expect _).skip fun _ => spells_pure ?_
    exact Landmark.allNamed_ofClass hname superclass (Definition.allNamed_outlineAll.mpr hmethods)
  refine (spells_expectName _).bind fun name hname => (spells_accept _).skip fun less => ?_
  cases less with
  | none => exact hrest name hname Option.none
  | some _ => exact (spells_expectName _).skip fun mark => spells_freshId.skip fun id => hrest name hname _

theorem spells_declare : Spells r.declare fun s => AllNamed s.outline := by
  refine (spells_accept _).skip fun «class» => ?_
  cases «class» with
  | some _ => exact spells_readClass hr
  | none =>
    refine spells_definesFunction.skip fun defines => ?_
    split
    · refine (spells_accept _).skip fun _ => (spells_definition hr _ _).bind fun d hd => ?_
      obtain ⟨name, code⟩ := d
      exact spells_pure ⟨fun _ => hd.1, hd.2⟩
    · refine (spells_accept _).skip fun var => ?_
      cases var with
      | some _ => exact spells_readVar hr
      | none => exact spells_statementRule hr

/-- A declaration that fails is skipped, and what is left is still spelled as before. -/
theorem spells_declarationRule :
    Spells r.declarationRule fun entry => ∀ s ∈ entry, AllNamed s.outline := by
  intro s hs
  have hdeclare := spells_declare hr s hs
  unfold declarationRule
  cases hresult : r.declare s with
  | ok stmt s' =>
    rw [hresult] at hdeclare
    refine ⟨?_, hdeclare.2⟩
    rintro _ ⟨⟩
    exact hdeclare.1
  | error e s' =>
    rw [hresult] at hdeclare
    refine ⟨nofun, fun t ht => hdeclare t ?_⟩
    exact (passes_synchronize { s' with errors := e :: s'.errors }).suffix.subset ht

omit hr in
/-- The rules of every depth read what is spelled well. The induction is on the depth. -/
theorem spelled_below (count : Nat) : (below count).Spelled := by
  induction count with
  | zero => exact ⟨fun _ => spells_fail _, spells_fail _, spells_fail _⟩
  | succ count ih =>
    exact ⟨fun level => spells_expressionAt ih level, spells_statementRule ih, spells_declarationRule ih⟩

end Rules

/-- The entries of a program are spelled well. -/
theorem spells_entriesFrom {declaration : Reader (Option Stmt)} {P : Option Stmt → Prop}
    (h : Spells declaration P) (count : Nat) {before : List (Option Stmt)}
    (hbefore : ∀ entry ∈ before, P entry) :
    Spells (entriesFrom declaration count before) fun entries => ∀ entry ∈ entries, P entry := by
  induction count generalizing before with
  | zero => exact spells_reverse hbefore
  | succ count ih =>
    refine spells_atEnd.skip fun ended => ?_
    split
    · exact spells_reverse hbefore
    · exact h.bind fun entry hentry => ih (List.forall_mem_cons.mpr ⟨hentry, hbefore⟩)

/-- Whatever tokens are read, the names of the program are those of a source. -/
theorem allNamed_parse {tokens : List Token} {firstId : Nat} (h : (State.start tokens firstId).Spelled) :
    AllNamed (Stmt.outlineAll (parse tokens firstId).program) := by
  rw [Stmt.allNamed_outlineAll]
  intro s hs
  have hrules := Rules.spelled_below (tokens.length + 1)
  have hread := spells_entriesFrom hrules.declaration tokens.length (List.forall_mem_nil _)
    (State.start tokens firstId) h
  unfold parse at hs
  dsimp only at hs
  cases hresult : entriesFrom _ _ [] (State.start tokens firstId) with
  | ok entries s' =>
    rw [hresult] at hread hs
    obtain ⟨entry, hentry, rfl⟩ := List.mem_filterMap.mp hs
    exact hread.1 _ hentry s rfl
  | error e s' =>
    rw [hresult] at hs
    cases hs

/-- The names in the program of a source are spelled as they should be, also where the source has errors. -/
theorem allNamed_readSource (source : String) (firstId : Nat) :
    AllNamed (Stmt.outlineAll (readSource source firstId).parsed.program) :=
  allNamed_parse (spelled_start source firstId)

end Grammar

end Lox
