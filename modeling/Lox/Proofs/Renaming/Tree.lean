import Std.Data.TreeMap
import Lox.Proofs.Tree.Form

namespace Lox

/-- A change of name, and the depths that are known for occurrences. Neither name is one of the language's
    own. -/
structure Renaming where
  old : String
  new : String
  depths : Std.TreeMap Nat Nat
  ne : old ≠ new
  old_plain : IsPlain old
  new_plain : IsPlain new

/-- The scopes of a tree in which the variable of the old name is renamed. A scope is known by the way to it:
    which part to go down to, each time. -/
abbrev Choice := List Nat → Bool

/-- The choices in a part of a tree, which is known by its place. -/
def Choice.part (choice : Choice) (i : Nat) : Choice :=
  fun way => choice (i :: way)

/-- The statement brings in the name as a variable. -/
def Stmt.isVar (name : String) : Stmt → Bool
  | .var v _ => v.lexeme = name
  | _ => false

namespace Renaming

variable (ρ : Renaming)

/-- What becomes of a name, by whether the variable of the old name is renamed in its scope. -/
def name (renamed : Bool) (name : String) : String :=
  if renamed ∧ name = ρ.old then ρ.new else name

/-- The mark with the name that a variable has where it is renamed or not. -/
def mark (renamed : Bool) (mark : Mark) : Mark :=
  { mark with lexeme := ρ.name renamed mark.lexeme }

/-- Whether the scope of an occurrence is among those renamed, by which of the scopes around are, innermost
    first. The global names are not. -/
def isRenamed (marks : List Bool) (ref : Ref) : Bool :=
  match ρ.depths[ref.id]? with
  | none => false
  | some depth => marks.getD depth false

/-- The occurrence with the name of the variable that it stands for. -/
def ref (marks : List Bool) (ref : Ref) : Ref :=
  { ref with mark := ρ.mark (ρ.isRenamed marks ref) ref.mark }

/-- A scope is renamed if it is chosen and has the old name as a variable or a parameter. -/
def inScope (choice : Choice) (params : List Mark) (body : List Stmt) : Bool :=
  choice [] && (params.any (·.lexeme = ρ.old) || body.any (·.isVar ρ.old))

/-- What the methods of a class have around them: the scope of `this`, that of `super`, and what the class
    has around it. -/
def inMethods (superclass : Option Ref) (marks : List Bool) : List Bool :=
  false :: ((superclass.map fun _ => false).toList ++ marks)

end Renaming

mutual

/-- The tree with the new name, where the old one stands for a variable that is renamed. -/
def Expr.rename (ρ : Renaming) (choice : Choice) (marks : List Bool) : Expr → Expr
  | .literal value line => .literal value line
  | .grouping inner => .grouping (inner.rename ρ (choice.part 0) marks)
  | .unary op mark right => .unary op mark (right.rename ρ (choice.part 0) marks)
  | .binary op mark left right =>
    .binary op mark (left.rename ρ (choice.part 0) marks) (right.rename ρ (choice.part 1) marks)
  | .unpaired op mark right => .unpaired op mark (right.rename ρ (choice.part 0) marks)
  | .logical op mark left right =>
    .logical op mark (left.rename ρ (choice.part 0) marks) (right.rename ρ (choice.part 1) marks)
  | .conditional condition yes no =>
    .conditional (condition.rename ρ (choice.part 0) marks) (yes.rename ρ (choice.part 1) marks)
      (no.rename ρ (choice.part 2) marks)
  | .comma left right =>
    .comma (left.rename ρ (choice.part 0) marks) (right.rename ρ (choice.part 1) marks)
  | .name ref => .name (ρ.ref marks ref)
  | .assign ref value => .assign (ρ.ref marks ref) (value.rename ρ (choice.part 0) marks)
  | .call callee paren arguments =>
    .call (callee.rename ρ (choice.part 0) marks) paren
      (Expr.renameAll ρ (choice.part 1) marks arguments)
  | .get object property => .get (object.rename ρ (choice.part 0) marks) property
  | .set object property value =>
    .set (object.rename ρ (choice.part 0) marks) property (value.rename ρ (choice.part 1) marks)
  | .this ref => .this ref
  | .super ref method => .super ref method
  | .lambda keyword code => .lambda keyword (code.rename ρ (choice.part 0) marks)

/-- The expressions with the chosen variables renamed. -/
def Expr.renameAll (ρ : Renaming) (choice : Choice) (marks : List Bool) : List Expr → List Expr
  | [] => []
  | e :: rest => e.rename ρ (choice.part 0) marks :: Expr.renameAll ρ (choice.part 1) marks rest

/-- The code with the chosen variables renamed, its parameters among them. -/
def Lambda.rename (ρ : Renaming) (choice : Choice) (marks : List Bool) : Lambda → Lambda
  | ⟨params, body⟩ =>
    let renamed := ρ.inScope choice params body
    ⟨params.map (ρ.mark renamed), Stmt.renameAll ρ (choice.part 0) (renamed :: marks) body⟩

/-- The definitions with the chosen variables renamed in their code. Methods keep their names. -/
def Definition.renameAll (ρ : Renaming) (choice : Choice) (marks : List Bool) :
    List Definition → List Definition
  | [] => []
  | ⟨name, code⟩ :: rest =>
    ⟨name, code.rename ρ (choice.part 0) marks⟩ :: Definition.renameAll ρ (choice.part 1) marks rest

/-- The statement with the chosen variables renamed. -/
def Stmt.rename (ρ : Renaming) (choice : Choice) (marks : List Bool) : Stmt → Stmt
  | .expression value => .expression (value.rename ρ (choice.part 0) marks)
  | .print keyword value => .print keyword (value.rename ρ (choice.part 0) marks)
  | .var name none => .var (ρ.mark (marks.headD false) name) none
  | .var name (some initial) =>
    .var (ρ.mark (marks.headD false) name) (some (initial.rename ρ (choice.part 0) marks))
  | .function ⟨name, code⟩ => .function ⟨name, code.rename ρ (choice.part 0) marks⟩
  | .class name superclass methods =>
    .class name (superclass.map (ρ.ref marks))
      (Definition.renameAll ρ (choice.part 0) (Renaming.inMethods superclass marks) methods)
  | .block body =>
    .block (Stmt.renameAll ρ (choice.part 0) (ρ.inScope choice [] body :: marks) body)
  | .if condition yes none =>
    .if (condition.rename ρ (choice.part 0) marks) (yes.rename ρ (choice.part 1) marks) none
  | .if condition yes (some no) =>
    .if (condition.rename ρ (choice.part 0) marks) (yes.rename ρ (choice.part 1) marks)
      (some (no.rename ρ (choice.part 2) marks))
  | .while condition body =>
    .while (condition.rename ρ (choice.part 0) marks) (body.rename ρ (choice.part 1) marks)
  | .return keyword none => .return keyword none
  | .return keyword (some value) => .return keyword (some (value.rename ρ (choice.part 0) marks))
  | .break keyword => .break keyword

/-- The statements with the chosen variables renamed. -/
def Stmt.renameAll (ρ : Renaming) (choice : Choice) (marks : List Bool) : List Stmt → List Stmt
  | [] => []
  | s :: rest => s.rename ρ (choice.part 0) marks :: Stmt.renameAll ρ (choice.part 1) marks rest

end

namespace Renaming

variable (ρ : Renaming)

/-- The name of a variable can be changed. -/
def Free (renamed : Bool) (name : String) : Prop :=
  renamed = true → name ≠ ρ.new

/-- The name is neither the old nor the new one. -/
def Apart (renamed : Bool) (name : String) : Prop :=
  renamed = true → name ≠ ρ.old ∧ name ≠ ρ.new

end Renaming

mutual

/-- One expression is a renaming of another. As a relation this also says what keeps names apart:
    where a scope is renamed the new name is not there yet, and nothing but a variable has the old
    one. -/
inductive Expr.Renames (ρ : Renaming) : List Bool → Expr → Expr → Prop
  | literal {marks value line} : Expr.Renames ρ marks (.literal value line) (.literal value line)
  | grouping {marks inner inner'} (hinner : inner.Renames ρ marks inner') :
    Expr.Renames ρ marks (.grouping inner) (.grouping inner')
  | unary {marks op mark right right'} (hright : right.Renames ρ marks right') :
    Expr.Renames ρ marks (.unary op mark right) (.unary op mark right')
  | binary {marks op mark left left' right right'} (hleft : left.Renames ρ marks left')
    (hright : right.Renames ρ marks right') :
    Expr.Renames ρ marks (.binary op mark left right) (.binary op mark left' right')
  | unpaired {marks op mark right right'} (hright : right.Renames ρ marks right') :
    Expr.Renames ρ marks (.unpaired op mark right) (.unpaired op mark right')
  | logical {marks op mark left left' right right'} (hleft : left.Renames ρ marks left')
    (hright : right.Renames ρ marks right') :
    Expr.Renames ρ marks (.logical op mark left right) (.logical op mark left' right')
  | conditional {marks condition condition' yes yes' no no'}
    (hcondition : condition.Renames ρ marks condition') (hyes : yes.Renames ρ marks yes')
    (hno : no.Renames ρ marks no') :
    Expr.Renames ρ marks (.conditional condition yes no) (.conditional condition' yes' no')
  | comma {marks left left' right right'} (hleft : left.Renames ρ marks left')
    (hright : right.Renames ρ marks right') :
    Expr.Renames ρ marks (.comma left right) (.comma left' right')
  | name {marks ref} (hfree : ρ.Free (ρ.isRenamed marks ref) ref.mark.lexeme) :
    Expr.Renames ρ marks (.name ref) (.name (ρ.ref marks ref))
  | assign {marks ref value value'} (hfree : ρ.Free (ρ.isRenamed marks ref) ref.mark.lexeme)
    (hvalue : value.Renames ρ marks value') :
    Expr.Renames ρ marks (.assign ref value) (.assign (ρ.ref marks ref) value')
  | call {marks callee callee' paren arguments arguments'} (hcallee : callee.Renames ρ marks callee')
    (harguments : Expr.RenamesAll ρ marks arguments arguments') :
    Expr.Renames ρ marks (.call callee paren arguments) (.call callee' paren arguments')
  | get {marks object object' property} (hobject : object.Renames ρ marks object') :
    Expr.Renames ρ marks (.get object property) (.get object' property)
  | set {marks object object' property value value'} (hobject : object.Renames ρ marks object')
    (hvalue : value.Renames ρ marks value') :
    Expr.Renames ρ marks (.set object property value) (.set object' property value')
  | this {marks ref} (hapart : ρ.Apart (ρ.isRenamed marks ref) ref.mark.lexeme) :
    Expr.Renames ρ marks (.this ref) (.this ref)
  | super {marks ref method} : Expr.Renames ρ marks (.super ref method) (.super ref method)
  | lambda {marks keyword code code'} (hcode : code.Renames ρ marks code') :
    Expr.Renames ρ marks (.lambda keyword code) (.lambda keyword code')

/-- Expressions in a row are renamings of others. -/
inductive Expr.RenamesAll (ρ : Renaming) : List Bool → List Expr → List Expr → Prop
  | nil {marks} : Expr.RenamesAll ρ marks [] []
  | cons {marks e e' rest rest'} (he : e.Renames ρ marks e')
    (hrest : Expr.RenamesAll ρ marks rest rest') : Expr.RenamesAll ρ marks (e :: rest) (e' :: rest')

/-- Some code is a renaming of other code, with its parameters renamed or not. -/
inductive Lambda.Renames (ρ : Renaming) : List Bool → Lambda → Lambda → Prop
  | code {marks params body body'} (renamed : Bool) (hparams : ∀ param ∈ params, ρ.Free renamed param.lexeme)
    (hbody : Stmt.RenamesAll ρ (renamed :: marks) body body') :
    Lambda.Renames ρ marks ⟨params, body⟩ ⟨params.map (ρ.mark renamed), body'⟩

/-- Definitions in a row are renamings of others. -/
inductive Definition.RenamesAll (ρ : Renaming) : List Bool → List Definition → List Definition → Prop
  | nil {marks} : Definition.RenamesAll ρ marks [] []
  | cons {marks name code code' rest rest'} (hcode : code.Renames ρ marks code')
    (hrest : Definition.RenamesAll ρ marks rest rest') :
    Definition.RenamesAll ρ marks (⟨name, code⟩ :: rest) (⟨name, code'⟩ :: rest')

/-- One statement is a renaming of another. -/
inductive Stmt.Renames (ρ : Renaming) : List Bool → Stmt → Stmt → Prop
  | expression {marks value value'} (hvalue : value.Renames ρ marks value') :
    Stmt.Renames ρ marks (.expression value) (.expression value')
  | print {marks keyword value value'} (hvalue : value.Renames ρ marks value') :
    Stmt.Renames ρ marks (.print keyword value) (.print keyword value')
  | declare {marks name} (hfree : ρ.Free (marks.headD false) name.lexeme) :
    Stmt.Renames ρ marks (.var name none) (.var (ρ.mark (marks.headD false) name) none)
  | var {marks name initial initial'} (hfree : ρ.Free (marks.headD false) name.lexeme)
    (hinitial : initial.Renames ρ marks initial') :
    Stmt.Renames ρ marks (.var name (some initial)) (.var (ρ.mark (marks.headD false) name) (some initial'))
  | function {marks name code code'} (hapart : ρ.Apart (marks.headD false) name.lexeme)
    (hcode : code.Renames ρ marks code') :
    Stmt.Renames ρ marks (.function ⟨name, code⟩) (.function ⟨name, code'⟩)
  | «class» {marks name superclass methods methods'} (hapart : ρ.Apart (marks.headD false) name.lexeme)
    (hfree : ∀ parent ∈ superclass, ρ.Free (ρ.isRenamed marks parent) parent.mark.lexeme)
    (hmethods : Definition.RenamesAll ρ (Renaming.inMethods superclass marks) methods methods') :
    Stmt.Renames ρ marks (.class name superclass methods)
      (.class name (superclass.map (ρ.ref marks)) methods')
  | block {marks body body'} (renamed : Bool) (hbody : Stmt.RenamesAll ρ (renamed :: marks) body body') :
    Stmt.Renames ρ marks (.block body) (.block body')
  | when {marks condition condition' yes yes'} (hcondition : condition.Renames ρ marks condition')
    (hyes : yes.Renames ρ marks yes') :
    Stmt.Renames ρ marks (.if condition yes none) (.if condition' yes' none)
  | «if» {marks condition condition' yes yes' no no'} (hcondition : condition.Renames ρ marks condition')
    (hyes : yes.Renames ρ marks yes') (hno : no.Renames ρ marks no') :
    Stmt.Renames ρ marks (.if condition yes (some no)) (.if condition' yes' (some no'))
  | «while» {marks condition condition' body body'} (hcondition : condition.Renames ρ marks condition')
    (hbody : body.Renames ρ marks body') :
    Stmt.Renames ρ marks (.while condition body) (.while condition' body')
  | leave {marks keyword} : Stmt.Renames ρ marks (.return keyword none) (.return keyword none)
  | «return» {marks keyword value value'} (hvalue : value.Renames ρ marks value') :
    Stmt.Renames ρ marks (.return keyword (some value)) (.return keyword (some value'))
  | «break» {marks keyword} : Stmt.Renames ρ marks (.break keyword) (.break keyword)

/-- Statements in a row are renamings of others. -/
inductive Stmt.RenamesAll (ρ : Renaming) : List Bool → List Stmt → List Stmt → Prop
  | nil {marks} : Stmt.RenamesAll ρ marks [] []
  | cons {marks s s' rest rest'} (hs : s.Renames ρ marks s')
    (hrest : Stmt.RenamesAll ρ marks rest rest') : Stmt.RenamesAll ρ marks (s :: rest) (s' :: rest')

end

namespace Renaming

variable (ρ : Renaming)

theorem name_false (name : String) : ρ.name false name = name := by
  simp [Renaming.name]

theorem mark_false (mark : Mark) : ρ.mark false mark = mark := by
  rw [Renaming.mark, name_false]

theorem map_mark_false (params : List Mark) : params.map (ρ.mark false) = params :=
  List.map_id'' ρ.mark_false params

theorem free_false (name : String) : ρ.Free false name :=
  nofun

theorem apart_false (name : String) : ρ.Apart false name :=
  nofun

/-- None of the scopes around is renamed. -/
def Untouched (marks : List Bool) : Prop :=
  ∀ renamed ∈ marks, renamed = false

theorem Untouched.cons {marks : List Bool} (h : Untouched marks) : Untouched (false :: marks) :=
  List.forall_mem_cons.mpr ⟨rfl, h⟩

/-- The scopes of a class have nothing renamed. -/
theorem Untouched.inMethods {marks : List Bool} (h : Untouched marks) (superclass : Option Ref) :
    Untouched (inMethods superclass marks) := by
  cases superclass with
  | none => exact h.cons
  | some parent => exact h.cons.cons

theorem Untouched.getD {marks : List Bool} (h : Untouched marks) (depth : Nat) :
    marks.getD depth false = false := by
  rw [List.getD_eq_getElem?_getD]
  cases hdepth : marks[depth]? with
  | none => rfl
  | some renamed => exact h renamed (List.mem_of_getElem? hdepth)

theorem Untouched.headD {marks : List Bool} (h : Untouched marks) : marks.headD false = false := by
  cases marks with
  | nil => rfl
  | cons renamed rest => exact h renamed List.mem_cons_self

/-- No occurrence is renamed where nothing is. -/
theorem Untouched.isRenamed {marks : List Bool} (h : Untouched marks) (ref : Ref) :
    ρ.isRenamed marks ref = false := by
  unfold Renaming.isRenamed
  split
  · rfl
  · exact h.getD _

theorem Untouched.ref {marks : List Bool} (h : Untouched marks) (ref : Ref) : ρ.ref marks ref = ref := by
  rw [Renaming.ref, h.isRenamed ρ, mark_false]

theorem Untouched.free {marks : List Bool} (h : Untouched marks) (ref : Ref) (name : String) :
    ρ.Free (ρ.isRenamed marks ref) name := by
  rw [h.isRenamed ρ]
  exact ρ.free_false name

/-- Every name is apart from what is renamed where nothing is. -/
theorem Untouched.apart {marks : List Bool} (h : Untouched marks) (name : String) :
    ρ.Apart (marks.headD false) name := by
  rw [h.headD]
  exact ρ.apart_false name

end Renaming

open Renaming

variable (ρ : Renaming)

mutual

/-- An expression is a renaming of itself where nothing is renamed. -/
theorem Expr.renames_self {marks : List Bool} (h : Untouched marks) (e : Expr) : e.Renames ρ marks e := by
  cases e with
  | literal value line => exact .literal
  | grouping inner => exact .grouping (inner.renames_self h)
  | unary op mark right => exact .unary (right.renames_self h)
  | binary op mark left right => exact .binary (left.renames_self h) (right.renames_self h)
  | unpaired op mark right => exact .unpaired (right.renames_self h)
  | logical op mark left right => exact .logical (left.renames_self h) (right.renames_self h)
  | conditional condition yes no =>
    exact .conditional (condition.renames_self h) (yes.renames_self h) (no.renames_self h)
  | comma left right => exact .comma (left.renames_self h) (right.renames_self h)
  | name ref =>
    have hname := Expr.Renames.name (h.free ρ ref ref.mark.lexeme)
    rwa [h.ref ρ] at hname
  | assign ref value =>
    have hassign := Expr.Renames.assign (h.free ρ ref ref.mark.lexeme) (value.renames_self h)
    rwa [h.ref ρ] at hassign
  | call callee paren arguments =>
    exact .call (callee.renames_self h) (Expr.renamesAll_self h arguments)
  | get object property => exact .get (object.renames_self h)
  | set object property value => exact .set (object.renames_self h) (value.renames_self h)
  | this ref => exact .this (by rw [h.isRenamed ρ]; exact ρ.apart_false _)
  | super ref method => exact .super
  | lambda keyword code => exact .lambda (code.renames_self h)

theorem Expr.renamesAll_self {marks : List Bool} (h : Untouched marks) (es : List Expr) :
    Expr.RenamesAll ρ marks es es := by
  cases es with
  | nil => exact .nil
  | cons e rest => exact .cons (e.renames_self h) (Expr.renamesAll_self h rest)

/-- Where none of the scopes around is renamed, code is its own renaming. -/
theorem Lambda.renames_self {marks : List Bool} (h : Untouched marks) (code : Lambda) :
    code.Renames ρ marks code := by
  obtain ⟨params, body⟩ := code
  have hcode : Lambda.Renames ρ marks ⟨params, body⟩ ⟨params.map (ρ.mark false), body⟩ :=
    .code false (fun param _ => ρ.free_false param.lexeme) (Stmt.renamesAll_self h.cons body)
  rwa [ρ.map_mark_false] at hcode

theorem Definition.renamesAll_self {marks : List Bool} (h : Untouched marks) (ds : List Definition) :
    Definition.RenamesAll ρ marks ds ds := by
  cases ds with
  | nil => exact .nil
  | cons d rest =>
    obtain ⟨name, code⟩ := d
    exact .cons (code.renames_self h) (Definition.renamesAll_self h rest)

/-- A statement is a renaming of itself where nothing is renamed. -/
theorem Stmt.renames_self {marks : List Bool} (h : Untouched marks) (s : Stmt) : s.Renames ρ marks s := by
  cases s with
  | expression value => exact .expression (value.renames_self h)
  | print keyword value => exact .print (value.renames_self h)
  | var name initial =>
    have hfree : ρ.Free (marks.headD false) name.lexeme := by
      rw [h.headD]
      exact ρ.free_false _
    cases initial with
    | none =>
      have hvar := Stmt.Renames.declare hfree
      rwa [h.headD, mark_false] at hvar
    | some initial =>
      have hvar := Stmt.Renames.var hfree (initial.renames_self h)
      rwa [h.headD, mark_false] at hvar
  | function definition =>
    obtain ⟨name, code⟩ := definition
    exact .function (h.apart ρ _) (code.renames_self h)
  | «class» name superclass methods =>
    have hclass := Stmt.Renames.class (h.apart ρ name.lexeme)
      (fun parent _ => h.free ρ parent parent.mark.lexeme)
      (Definition.renamesAll_self (h.inMethods superclass) methods)
    have hsame : superclass.map (ρ.ref marks) = superclass := by
      cases superclass with
      | none => rfl
      | some parent => exact congrArg some (h.ref ρ parent)
    rwa [hsame] at hclass
  | block body => exact .block false (Stmt.renamesAll_self h.cons body)
  | «if» condition yes no =>
    cases no with
    | none => exact .when (condition.renames_self h) (yes.renames_self h)
    | some no => exact .if (condition.renames_self h) (yes.renames_self h) (no.renames_self h)
  | «while» condition body => exact .while (condition.renames_self h) (body.renames_self h)
  | «return» keyword value =>
    cases value with
    | none => exact .leave
    | some value => exact .return (value.renames_self h)
  | «break» keyword => exact .break

theorem Stmt.renamesAll_self {marks : List Bool} (h : Untouched marks) (body : List Stmt) :
    Stmt.RenamesAll ρ marks body body := by
  cases body with
  | nil => exact .nil
  | cons s rest => exact .cons (s.renames_self h) (Stmt.renamesAll_self h rest)

end

end Lox
