import Lox.Grammar.Source
import Lox.Proofs.Grammar.Reading
import Lox.Proofs.Tree.Numbering

namespace Lox.Grammar

/-- The entry of a declaration that has been read, with numbers in a range. -/
def EntryNumbered (entry : Option Stmt) (lo hi : Nat) : Prop :=
  ∃ s, entry = some s ∧ s.Numbered lo hi

/-- Every rule reads numbered trees, and no statement is a declaration. -/
structure Rules.Sound (r : Rules) : Prop where
  expression : ∀ level, Reads (r.expression level) Expr.Numbered
  statement : Reads r.statement fun s lo hi => s.Numbered lo hi ∧ s.declares = []
  declaration : Reads r.declaration EntryNumbered

variable {α : Type} {item : Reader α} {P : α → Nat → Nat → Prop}

/-- What one item more reads, behind the items before it. -/
theorem reads_oneMore (tooMany : SyntaxCause) (hitem : Reads item P)
    (hmono : ∀ {x lo mid hi}, mid ≤ hi → P x lo mid → P x lo hi) (before : List α) :
    Reads (oneMore tooMany item before) fun found lo hi =>
      ∃ x, found.1 = x :: before ∧ P x lo hi := by
  have hrest : Reads (do let x ← item; return (x :: before, (← accept .comma).isSome))
      fun found lo hi => ∃ x, found.1 = x :: before ∧ P x lo hi := by
    refine hitem.bind fun x _ => (reads_accept _).bind fun _ _ => ?_
    exact reads_pure fun n _ _ _ _ hmid hx => ⟨x, rfl, hmono hmid hx⟩
  unfold oneMore
  split
  · exact (reads_reportHere tooMany).bind fun _ _ => hrest.mono fun _ _ _ _ hreported => hreported.elim
  · exact hrest

/-- What a row of items reads: each with a range of numbers of its own, one behind the other. -/
theorem reads_separated (tooMany : SyntaxCause) (hitem : Reads item P)
    (hmono : ∀ {x lo mid hi}, mid ≤ hi → P x lo mid → P x lo hi) (commas : Nat) (before : List α) :
    Reads (separated tooMany item commas before) (Behind P before) := by
  have hmore := reads_oneMore tooMany hitem hmono
  induction commas generalizing before with
  | zero =>
    refine (hmore before).bind fun found lo => reads_pure fun n hlo _ hfound => ?_
    obtain ⟨x, hitems, hx⟩ := hfound
    rw [hitems]
    exact (Behind.nil _ n).cons hx hlo (Nat.le_refl n)
  | succ commas ih =>
    apply (hmore before).bind
    intro found lo
    obtain ⟨items, comma⟩ := found
    cases comma with
    | true =>
      apply (ih items).mono
      intro xs mid hi hhi hxs
      rintro hlo - ⟨x, rfl, hx⟩
      exact hxs.cons hx hlo hhi
    | false =>
      apply reads_pure
      intro n
      rintro hlo - ⟨x, rfl, hx⟩
      exact (Behind.nil _ n).cons hx hlo (Nat.le_refl n)

/-- What a chain of operators reads, behind its first operand. -/
theorem reads_chainFrom {op : Type} {operand : Reader Expr} {operator? : TokenKind → Option op}
    {join : op → Mark → Expr → Expr → Expr} (hoperand : Reads operand Expr.Numbered)
    (hjoin : ∀ o mark {left right : Expr} {lo mid hi : Nat}, lo ≤ mid → mid ≤ hi →
      left.Numbered lo mid → right.Numbered mid hi → (join o mark left right).Numbered lo hi)
    (operators : Nat) (left : Expr) (lo : Nat) :
    Reads (chainFrom operand operator? join operators left) fun e mid hi =>
      lo ≤ mid → mid ≤ hi → left.Numbered lo mid → e.Numbered lo hi := by
  induction operators generalizing left lo with
  | zero => exact reads_pure fun n _ _ h => h
  | succ operators ih =>
    apply (reads_take? _).bind
    intro found mid
    cases found with
    | none => exact reads_pure fun n hmid _ _ _ _ h => h.mono (Nat.le_refl _) hmid
    | some found =>
      obtain ⟨o, mark⟩ := found
      apply hoperand.bind
      intro right mid'
      apply (ih (join o mark left right) lo).mono
      intro e n hi _ hrest _ _ hright _ _ _ _ _ hleft
      refine hrest ?_ ?_ (hjoin o mark ?_ ?_ (hleft.mono (Nat.le_refl _) ?_) hright)
      all_goals omega

theorem reads_chain {op : Type} {operand : Reader Expr} {operator? : TokenKind → Option op}
    {join : op → Mark → Expr → Expr → Expr} (hoperand : Reads operand Expr.Numbered)
    (hjoin : ∀ o mark {left right : Expr} {lo mid hi : Nat}, lo ≤ mid → mid ≤ hi →
      left.Numbered lo mid → right.Numbered mid hi → (join o mark left right).Numbered lo hi)
    (operators : Nat) : Reads (chain operators operand operator? join) Expr.Numbered :=
  hoperand.bind fun first lo => reads_chainFrom hoperand hjoin operators first lo

/-- Only an identifier starts a name. -/
private theorem start?_name {kind : TokenKind} (h : start? kind = some .name) :
    kind = .identifier := by
  cases kind <;> cases h
  rfl

private theorem start?_this {kind : TokenKind} (h : start? kind = some .this) : kind = .this := by
  cases kind <;> cases h
  rfl

private theorem start?_super {kind : TokenKind} (h : start? kind = some .super) : kind = .super := by
  cases kind <;> cases h
  rfl

namespace Rules

variable {r : Rules}

/-- An operation on numbered operands is numbered. -/
private theorem numbered_binary (op : BinaryOp) (mark : Mark) {left right : Expr} {lo mid hi : Nat}
    (hlo : lo ≤ mid) (hhi : mid ≤ hi) (hleft : left.Numbered lo mid)
    (hright : right.Numbered mid hi) : (Expr.binary op mark left right).Numbered lo hi :=
  ⟨⟨hleft.1, hright.1⟩, hleft.2.append hright.2 hlo hhi⟩

private theorem numbered_logical (op : LogicalOp) (mark : Mark) {left right : Expr}
    {lo mid hi : Nat} (hlo : lo ≤ mid) (hhi : mid ≤ hi) (hleft : left.Numbered lo mid)
    (hright : right.Numbered mid hi) : (Expr.logical op mark left right).Numbered lo hi :=
  ⟨⟨hleft.1, hright.1⟩, hleft.2.append hright.2 hlo hhi⟩

private theorem numbered_comma {left right : Expr} {lo mid hi : Nat} (hlo : lo ≤ mid)
    (hhi : mid ≤ hi) (hleft : left.Numbered lo mid) (hright : right.Numbered mid hi) :
    (Expr.comma left right).Numbered lo hi :=
  ⟨⟨hleft.1, hright.1⟩, hleft.2.append hright.2 hlo hhi⟩

section Function

variable (hr : r.Sound)
include hr

/-- What declarations read. Without an error none of them is left out. -/
theorem reads_declarations (count : Nat) (before : List Stmt) :
    Reads (r.declarations count before) (Behind Stmt.Numbered before) := by
  induction count generalizing before with
  | zero => exact reads_pure fun n => .nil before n
  | succ count ih =>
    refine reads_atEnd.bind fun ended lo => (reads_next _).bind fun closed mid => ?_
    split
    · apply reads_pure
      intro n hmid _ _ hlo _ _
      exact (Behind.nil before n).below (Nat.le_trans hlo hmid) fun h => h.mono (by omega) (by omega)
    · apply hr.declaration.bind
      intro entry mid'
      cases entry with
      | none =>
        refine (ih before).mono fun _ _ _ _ hentry => ?_
        obtain ⟨_, h, _⟩ := hentry
        cases h
      | some s =>
        apply (ih (s :: before)).mono
        intro body mid'' hi hhi hbody
        rintro hmid' _ ⟨_, ⟨⟩, hs⟩ hmid _ _ hlo _ _
        exact hbody.cons (hs.mono (by omega) (Nat.le_refl _)) (by omega) hhi

/-- A block reads proper statements, numbered in a row. -/
theorem reads_block : Reads r.block fun body lo hi =>
    Stmt.AllProper body ∧ Fresh lo hi (Stmt.idsAll body) := by
  refine (reads_declarations hr _ []).bind fun body lo => (reads_expect _).bind fun _ mid => ?_
  apply reads_pure
  intro n _ hn _ _ hmid hbody
  obtain ⟨hproper, hfresh⟩ := hbody.spread.stmts
  exact ⟨hproper, hfresh.mono (Nat.le_refl _) hmid⟩

/-- Code reads proper parameters and a proper body. -/
theorem reads_code (role : CodeRole) : Reads (r.code role) Lambda.Numbered := by
  have hrest : ∀ params : List Mark, Reads (do
      let _ ← expect .parametersEnd
      let _ ← expect (.body role)
      let body ← within .body r.block
      return (⟨params, body⟩ : Lambda))
      fun code lo hi => (∀ param ∈ params, param.Plain) → code.Numbered lo hi := by
    intro params
    refine (reads_expect _).bind fun _ lo => (reads_expect _).bind fun _ mid => ?_
    refine ((reads_block hr).within _).bind fun body mid' => reads_pure fun n => ?_
    intro _ _ hbody hlo _ _ hmid _ _ hparams
    exact ⟨⟨hparams, hbody.1⟩, hbody.2.mono (by omega) (by omega)⟩
  refine (reads_expect _).bind fun _ lo => (reads_next _).bind fun empty mid => ?_
  split
  · apply (hrest []).mono
    intro code mid' hi hhi hcode hmid _ _ hlo _ _
    exact (hcode nofun).mono (by omega) (by omega)
  · apply (reads_separated _ (reads_expectName _) (fun _ h => h) _ _).bind
    intro params mid'
    apply (hrest params).mono
    intro code _ hi hhi hcode hmid' _ hparams hmid _ _ hlo _ _
    exact (hcode hparams.spread.all).mono (by omega) (by omega)

/-- A primary expression is numbered: its name takes the next number. -/
theorem reads_primary : Reads r.primary Expr.Numbered := by
  apply (reads_take? _).bind
  intro found lo
  cases found with
  | none => exact reads_fail _
  | some found =>
    obtain ⟨start, mark⟩ := found
    cases start with
    | literal value => exact reads_pure fun n _ _ _ => ⟨trivial, .nil⟩
    | name =>
      refine reads_freshId.bind fun id mid => reads_pure fun n => ?_
      rintro _ _ ⟨rfl, rfl⟩ hlo _ hspelled
      obtain ⟨kind, hkind, hmark⟩ := hspelled _ _ rfl
      exact ⟨hmark.identifier (start?_name hkind), .single hlo (Nat.lt_succ_self _)⟩
    | this =>
      refine reads_freshId.bind fun id mid => reads_pure fun n => ?_
      rintro _ _ ⟨rfl, rfl⟩ hlo _ hspelled
      obtain ⟨kind, hkind, hmark⟩ := hspelled _ _ rfl
      exact ⟨hmark.this (start?_this hkind), .single hlo (Nat.lt_succ_self _)⟩
    | super =>
      refine (reads_expect _).bind fun _ mid => (reads_expectName _).bind fun method mid' => ?_
      refine reads_freshId.bind fun id mid'' => reads_pure fun n => ?_
      rintro _ _ ⟨rfl, rfl⟩ hmid' _ _ hmid _ _ hlo _ hspelled
      obtain ⟨kind, hkind, hmark⟩ := hspelled _ _ rfl
      exact ⟨hmark.super (start?_super hkind), .single (by simp only; omega) (Nat.lt_succ_self _)⟩
    | lambda =>
      refine (reads_code hr _).bind fun code mid => reads_pure fun n _ _ hcode hlo _ _ => ?_
      exact hcode.mono hlo (Nat.le_refl n)
    | grouping =>
      refine ((hr.expression _).within _).bind fun inner mid => (reads_expect _).bind fun _ mid' => ?_
      apply reads_pure
      intro n _ _ _ hmid' _ hinner hlo _ _
      exact hinner.mono hlo (by omega)

/-- Arguments are numbered in a row. -/
theorem reads_arguments : Reads r.arguments fun arguments lo hi =>
    Expr.AllProper arguments ∧ Fresh lo hi (Expr.idsAll arguments) := by
  apply (reads_next _).bind
  intro empty lo
  split
  · exact reads_pure fun n _ _ _ => ⟨trivial, .nil⟩
  · refine (reads_separated _ (hr.expression _) (fun hhi h => h.mono (Nat.le_refl _) hhi) _ _).mono ?_
    intro arguments mid hi hhi hbehind hlo _ _
    obtain ⟨hproper, hfresh⟩ := hbehind.spread.exprs
    exact ⟨hproper, hfresh.mono hlo (Nat.le_refl _)⟩

/-- Calls and properties behind a numbered callee are numbered. -/
theorem reads_callFrom (suffixes : Nat) (callee : Expr) (lo : Nat) :
    Reads (r.callFrom suffixes callee) fun e mid hi =>
      lo ≤ mid → mid ≤ hi → callee.Numbered lo mid → e.Numbered lo hi := by
  induction suffixes generalizing callee lo with
  | zero => exact reads_pure fun n _ _ h => h
  | succ suffixes ih =>
    apply (reads_take? _).bind
    intro found mid
    cases found with
    | none =>
      exact reads_pure fun n hmid _ _ _ _ h => h.mono (Nat.le_refl _) hmid
    | some found =>
      obtain ⟨suffix, mark⟩ := found
      cases suffix with
      | arguments =>
        apply ((reads_arguments hr).within _).bind
        intro arguments mid'
        apply (reads_expect _).bind
        intro paren mid''
        apply (ih (.call callee paren arguments) lo).mono
        intro e n hi hhi he hn _ _ hmid'' _ hargs hmid' _ _ hlo _ hcallee
        refine he (by omega) hhi ⟨⟨hcallee.1, hargs.1⟩, ?_⟩
        exact hcallee.2.append (hargs.2.mono hmid' hn) (by omega) (by omega)
      | property =>
        apply (reads_expectName _).bind
        intro property mid'
        apply (ih (.get callee property) lo).mono
        intro e n hi hhi he hn _ _ hmid' _ _ hlo _ hcallee
        exact he (by omega) hhi (hcallee.mono (Nat.le_refl _) (by omega))

theorem reads_call : Reads r.call Expr.Numbered :=
  (reads_primary hr).bind fun callee lo => reads_callFrom hr _ callee lo

/-- A sign before a numbered operand is numbered. Where it cannot be a sign there is an error. -/
theorem reads_unary : Reads r.unary Expr.Numbered := by
  apply (reads_take? _).bind
  intro found lo
  cases found with
  | some found =>
    obtain ⟨op, mark⟩ := found
    refine (hr.expression _).bind fun right mid => reads_pure fun n _ _ hright hlo _ _ => ?_
    exact hright.mono hlo (Nat.le_refl n)
  | none =>
    apply (reads_take? _).bind
    intro found mid
    cases found with
    | some found =>
      obtain ⟨op, mark⟩ := found
      refine (reads_report _ _).bind fun _ mid' => (hr.expression _).bind fun right mid'' => ?_
      exact reads_pure fun n _ _ _ _ _ hreported => hreported.elim
    | none =>
      apply (reads_call hr).mono
      intro e mid' hi _ he hmid _ _ hlo _ _
      exact he.mono (Nat.le_trans hlo hmid) (Nat.le_refl _)

theorem reads_factor : Reads r.factor Expr.Numbered :=
  reads_chain (reads_unary hr) numbered_binary _

theorem reads_term : Reads r.term Expr.Numbered :=
  reads_chain (reads_factor hr) numbered_binary _

theorem reads_comparison : Reads r.comparison Expr.Numbered :=
  reads_chain (reads_term hr) numbered_binary _

theorem reads_equality : Reads r.equality Expr.Numbered :=
  reads_chain (reads_comparison hr) numbered_binary _

theorem reads_comma : Reads r.comma Expr.Numbered := by
  apply reads_get.bind
  intro s lo
  split
  · refine (reads_chain (reads_equality hr) (fun _ _ => numbered_comma) _).mono ?_
    exact fun _ he hlo _ _ => he.mono hlo (Nat.le_refl _)
  · exact (reads_equality hr).mono fun _ he hlo _ _ => he.mono hlo (Nat.le_refl _)

theorem reads_conditional : Reads r.conditional Expr.Numbered := by
  refine (reads_comma hr).bind fun condition lo => (reads_accept _).bind fun question mid => ?_
  cases question with
  | none =>
    exact reads_pure fun n hn _ _ _ _ hcondition => hcondition.mono (Nat.le_refl _) hn
  | some _ =>
    refine (hr.expression _).bind fun yes mid' => (reads_expect _).bind fun _ mid'' => ?_
    refine (hr.expression _).bind fun no last => reads_pure fun n => ?_
    intro _ _ hno hlast _ _ hmid'' _ hyes hmid' _ _ hmid _ hcondition
    refine ⟨⟨hcondition.1, hyes.1, hno.1⟩, ?_⟩
    have hfirst : Fresh lo last (condition.ids ++ yes.ids) :=
      hcondition.2.append (hyes.2.mono hmid' hlast) (by omega) (by omega)
    exact hfirst.append hno.2 (by omega) (by omega)

theorem reads_and : Reads r.and Expr.Numbered :=
  reads_chain (reads_conditional hr) numbered_logical _

theorem reads_or : Reads r.or Expr.Numbered :=
  reads_chain (reads_and hr) numbered_logical _

/-- An assignment is numbered: its target keeps the number that it was read with. -/
theorem reads_assignment : Reads r.assignment Expr.Numbered := by
  refine (reads_or hr).bind fun target lo => (reads_accept _).bind fun equals mid => ?_
  cases equals with
  | none => exact reads_pure fun n hn _ _ _ _ htarget => htarget.mono (Nat.le_refl _) hn
  | some equals =>
    apply (hr.expression _).bind
    intro value mid'
    split
    · rename_i ref
      refine reads_freshId.bind fun id mid'' => reads_pure fun n => ?_
      rintro _ _ ⟨rfl, rfl⟩ hmid'' _ hvalue hmid' _ _ hmid _ htarget
      have hlo : lo ≤ mid' := Nat.le_trans hmid hmid'
      have hids : Fresh lo id value.ids := hvalue.2.mono hlo (Nat.le_refl id)
      have hid : Fresh id (id + 1) [id] := .single (Nat.le_refl id) (Nat.lt_succ_self id)
      exact ⟨⟨htarget.1, hvalue.1⟩, hids.append hid (Nat.le_trans hlo hmid'') (Nat.le_succ id)⟩
    · rename_i object property
      apply reads_pure
      intro n _ _ hvalue hmid' _ _ hmid _ htarget
      refine ⟨⟨htarget.1, hvalue.1⟩, ?_⟩
      exact htarget.2.prepend (hvalue.2.mono hmid' (Nat.le_refl _)) (by omega) (by omega)
    · exact (reads_report _ _).bind fun _ _ => reads_pure fun n _ _ hreported => hreported.elim

/-- Every level reads numbered expressions. -/
theorem reads_expressionAt (level : Level) : Reads (r.expressionAt level) Expr.Numbered := by
  cases level with
  | assignment => exact reads_assignment hr
  | or => exact reads_or hr
  | and => exact reads_and hr
  | conditional => exact reads_conditional hr
  | comma => exact reads_comma hr
  | equality => exact reads_equality hr
  | comparison => exact reads_comparison hr
  | term => exact reads_term hr
  | factor => exact reads_factor hr
  | unary => exact reads_unary hr

end Function

end Rules

end Lox.Grammar
