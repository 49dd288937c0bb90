import Lox.Proofs.Evaluation.Class
import Lox.Proofs.Tree.Form

namespace Lox

namespace Run

variable {new : List String}

/-- Statements in a row bring in the names that they declare, into the innermost frame. -/
theorem keeps_sequence {exec : Stmt → Run Completion}
    (hexec : ∀ s, (exec s).Keeps s.declares) (body : List Stmt) :
    (sequence exec body).Keeps (body.flatMap Stmt.declares) := by
  induction body with
  | nil => exact keeps_pure _
  | cons s rest ih =>
    rw [List.flatMap_cons]
    apply ((hexec s).mono (List.subset_append_left _ _)).bind
    intro completion
    cases completion with
    | normal => exact ih.mono (List.subset_append_right _ _)
    | broken => exact keeps_pure _
    | returned value => exact keeps_pure _

theorem keeps_block {exec : Stmt → Run Completion} (hexec : ∀ s, (exec s).Keeps s.declares)
    (body : List Stmt) : (block exec body).Keeps new :=
  Keeps.weaken fun m => (keeps_sequence hexec body).inFresh m

/-- A loop brings in what its condition and its body do. -/
theorem keeps_loop {condition : Run Value} {body : Run Completion} (hcondition : condition.Keeps new)
    (hbody : body.Keeps new) (rounds : Nat) : (loop condition body rounds).Keeps new := by
  induction rounds with
  | zero => exact keeps_outOfFuel
  | succ rounds ih =>
    apply hcondition.bind
    intro value
    split
    · apply hbody.bind
      intro completion
      cases completion with
      | normal => exact ih
      | broken => exact keeps_pure _
      | returned value => exact keeps_pure _
    · exact keeps_pure _

/-- Expressions in a row bring in what each of them does. -/
theorem keeps_all {eval : Expr → Run Value} (heval : ∀ e, (eval e).Keeps new) (es : List Expr) :
    (all eval es).Keeps new := by
  induction es with
  | nil => exact keeps_pure _
  | cons e rest ih => exact (heval e).bind fun _ => ih.bind fun _ => keeps_pure _

theorem keeps_callNative (f : Native) (arguments : List Value) (line : Nat) :
    (callNative f arguments line).Keeps new := by
  cases f with
  | clock => exact keeps_readClock
  | hosted name arity => exact keeps_callHost name arguments line

/-- Parameters are brought into the innermost frame. -/
theorem keeps_defineParams (params : List Mark) (arguments : List Value) :
    (defineParams params arguments).Keeps (params.map Mark.lexeme) := by
  induction params generalizing arguments with
  | nil => exact keeps_pure _
  | cons param params ih =>
    cases arguments with
    | nil => exact keeps_pure _
    | cons argument arguments =>
      apply ((keeps_define _ _).mono (by simp)).bind
      intro _
      exact (ih arguments).mono (List.subset_cons_self _ _)

/-- The body of a closure has a frame of its own. -/
theorem keeps_runBody {exec : Stmt → Run Completion} (hexec : ∀ s, (exec s).Keeps s.declares)
    (c : Closure) (arguments : List Value) : (runBody exec c arguments).Keeps new := by
  have hbody : (do defineParams c.code.params arguments; sequence exec c.code.body).Keeps
      (c.code.params.map Mark.lexeme ++ c.code.body.flatMap Stmt.declares) :=
    ((keeps_defineParams _ _).mono (List.subset_append_left _ _)).bind fun _ =>
      (keeps_sequence hexec _).mono (List.subset_append_right _ _)
  exact Keeps.weaken fun m => hbody.inFresh m

/-- A call of a closure brings nothing into an old frame. -/
theorem keeps_callClosure {exec : Stmt → Run Completion} (hexec : ∀ s, (exec s).Keeps s.declares)
    (c : Closure) (arguments : List Value) (line : Nat) :
    (callClosure exec c arguments line).Keeps new := by
  apply (keeps_runBody hexec c arguments).bind
  intro completion
  split
  · apply (keeps_query _).bind
    intro value
    cases value with
    | none => exact keeps_fault _ _
    | some value => exact keeps_pure _
  · exact keeps_pure _

section Calls

variable {enter : Closure → List Value → Nat → Run Value}
  (henter : ∀ c arguments line, (enter c arguments line).Keeps new)
include henter

/-- A construction brings names into the frames of its initializer alone. -/
theorem keeps_construct (classId : Nat) (arguments : List Value) (line : Nat) :
    (construct enter classId arguments line).Keeps new := by
  apply (keeps_allocate fun s => Store.adds_newInstance s classId).bind
  intro instanceId
  apply (keeps_query _).bind
  intro method
  cases method with
  | none => exact keeps_pure _
  | some method =>
    apply (keeps_allocate fun s => Store.adds_bind s method instanceId).bind
    intro closure
    exact (henter closure arguments line).bind fun _ => keeps_pure _

/-- A call of any value brings no name into an old frame. -/
theorem keeps_call (callee : Value) (arguments : List Value) (line : Nat) :
    (call enter callee arguments line).Keeps new := by
  cases callee with
  | native f => exact keeps_callNative f arguments line
  | function id =>
    apply (keeps_query _).bind
    intro closure
    cases closure with
    | none => exact keeps_fault _ _
    | some c => exact henter c arguments line
  | «class» id => exact keeps_construct henter id arguments line
  | _ => exact keeps_fault _ _

theorem keeps_callChecked (callee : Value) (arguments : List Value) (line : Nat) :
    (callChecked enter callee arguments line).Keeps new := by
  apply (keeps_query _).bind
  intro arity
  cases arity with
  | none => exact keeps_fault _ _
  | some arity =>
    dsimp only
    split
    · exact keeps_fault _ _
    · apply keeps_exhausted.bind
      intro full
      split
      · exact keeps_fault _ _
      · exact (keeps_call henter callee arguments line).counted

/-- A call expression brings in what its parts do. -/
theorem keeps_callExpression {eval : Expr → Run Value} (heval : ∀ e, (eval e).Keeps new)
    (callee : Expr) (paren : Mark) (arguments : List Expr) :
    (callExpression enter eval callee paren arguments).Keeps new := by
  apply (heval callee).bind
  intro f
  split
  · exact (keeps_all heval arguments).bind fun values => keeps_callChecked henter f values _
  · exact keeps_fault _ _

end Calls

theorem keeps_superTarget (ref : Ref) : (superTarget ref).Keeps new :=
  fun m => keeps_orFault _ _ m

theorem keeps_superMethod (ref : Ref) (method : Mark) : (superMethod ref method).Keeps new := by
  refine (keeps_superTarget ref).bind fun (parent, receiver) => ?_
  apply (keeps_query _).bind
  intro found
  cases found with
  | none => exact keeps_fault _ _
  | some c => exact keeps_allocate fun s => Store.adds_boundMethod s c receiver

/-- A property brings in a frame for the receiver of a method, if it finds one. -/
theorem keeps_property (object : Value) (name : Mark) : (property object name).Keeps new := by
  cases object with
  | «instance» id =>
    apply (keeps_query _).bind
    intro found
    cases found with
    | none => exact keeps_fault _ _
    | some found =>
      cases found with
      | field value => exact keeps_pure _
      | method c => exact keeps_allocate fun s => Store.adds_boundMethod s c id
  | _ => exact keeps_fault _ _

theorem keeps_closure (name : Option String) (code : Lambda) : (closure name code).Keeps new :=
  keeps_chain.bind fun _ =>
    (keeps_allocate fun s => Store.adds_newFunction s _).bind fun _ => keeps_pure _

theorem keeps_methodTable (methods : List Definition) : (methodTable methods).Keeps new :=
  keeps_chain.bind fun _ => keeps_pure _

/-- Methods bring in a frame for their superclass, if there is one. -/
theorem keeps_methodsInside (parent : Option Nat) (methods : List Definition) :
    (methodsInside parent methods).Keeps new := by
  cases parent with
  | none => exact keeps_methodTable methods
  | some id =>
    have hinside : (do define "super" (.class id); methodTable methods).Keeps ["super"] :=
      (keeps_define _ _).bind fun _ => keeps_methodTable methods
    exact Keeps.weaken fun m => hinside.inFresh m

theorem keeps_superclass {eval : Expr → Run Value} (heval : ∀ e, (eval e).Keeps new) (ref : Ref) :
    (superclass eval ref).Keeps new := by
  apply (heval _).bind
  intro value
  cases value with
  | «class» id => exact keeps_pure _
  | _ => exact keeps_fault _ _

theorem keeps_makeBelow (parent : Option Nat) (name : Mark) (methods : List Definition) :
    (makeBelow parent name methods).Keeps [name.lexeme] :=
  (keeps_define _ _).bind fun _ => (keeps_methodsInside parent methods).bind fun _ =>
    (keeps_query _).bind fun _ => keeps_allocate fun s => Store.adds_newClass s _

/-- A class brings in its own name. -/
theorem keeps_makeClass {eval : Expr → Run Value} {name : Mark}
    (heval : ∀ e, (eval e).Keeps [name.lexeme]) (superclassRef : Option Ref)
    (methods : List Definition) :
    (makeClass eval name superclassRef methods).Keeps [name.lexeme] := by
  cases superclassRef with
  | none =>
    rw [makeClass_none]
    exact keeps_makeBelow none name methods
  | some ref =>
    rw [makeClass_some]
    exact (keeps_superclass heval ref).bind fun id => keeps_makeBelow (some id) name methods

/-- What is made below a superclass leaves its name in the innermost frame. -/
theorem has_of_makeBelow {parent : Option Nat} {name : Mark} {methods : List Definition}
    {id frame : Nat} {m m' : Machine} (h : makeBelow parent name methods m = .ok id m')
    (hframe : m.chain.head? = some frame) (hkind : (m.store.kind? frame).isSome) :
    m'.store.Has frame name.lexeme := by
  obtain ⟨_, m₁, hdefine, hmade⟩ := bind_eq_ok_iff.mp h
  obtain rfl : { m with store := m.store.define m.chain name.lexeme .nil } = m₁ := by
    cases hdefine
    rfl
  have hmaking : (do
      let table ← methodsInside parent methods
      let above ← query (ancestors parent)
      allocate (·.newClass ⟨name.lexeme, above, table⟩) : Run Nat).Keeps [] :=
    (keeps_methodsInside parent methods).bind fun _ => (keeps_query _).bind fun _ =>
      keeps_allocate fun s => Store.adds_newClass s _
  exact (hmaking.ok hmade).grows.names (Store.has_define _ _ hframe hkind)

/-- A class that has been made leaves its name in the innermost frame. -/
theorem has_of_makeClass {eval : Expr → Run Value} (heval : ∀ e, (eval e).Keeps [])
    {name : Mark} {superclassRef : Option Ref} {methods : List Definition} {id frame : Nat}
    {m m' : Machine}
    (h : makeClass eval name superclassRef methods m = .ok id m')
    (hframe : m.chain.head? = some frame) (hkind : (m.store.kind? frame).isSome) :
    m'.chain = m.chain ∧ m'.store.Has frame name.lexeme := by
  have hchain := ((keeps_makeClass (fun e => (heval e).weaken) superclassRef methods).ok h).chain
  refine ⟨hchain, ?_⟩
  cases superclassRef with
  | none =>
    rw [makeClass_none] at h
    exact has_of_makeBelow h hframe hkind
  | some ref =>
    rw [makeClass_some] at h
    obtain ⟨parent, m₁, hparent, hmade⟩ := bind_eq_ok_iff.mp h
    have hlater : m.Later [] m₁ := (keeps_superclass heval ref).ok hparent
    obtain ⟨kind, hsome⟩ := Option.isSome_iff_exists.mp hkind
    exact has_of_makeBelow hmade (hlater.chain ▸ hframe) (by simp [hlater.grows.kinds hsome])

theorem keeps_assignByName (name : Mark) (value : Value) : (assignByName name value).Keeps new :=
  fun _ => later_assignIn _ fun _ howner => Store.has_of_owner? howner

theorem keeps_declareClass {eval : Expr → Run Value} {name : Mark}
    (heval : ∀ e, (eval e).Keeps [name.lexeme]) (superclassRef : Option Ref)
    (methods : List Definition) :
    (declareClass eval name superclassRef methods).Keeps [name.lexeme] :=
  (keeps_makeClass heval superclassRef methods).bind fun _ => keeps_assignByName name _

end Run

open Run

/-- An expression brings in what its parts do, and nothing of its own. -/
theorem evalNode_keeps {new : List String} {eval : Expr → Run Value}
    {enter : Closure → List Value → Nat → Run Value} (heval : ∀ e, (eval e).Keeps new)
    (henter : ∀ c arguments line, (enter c arguments line).Keeps new) (e : Expr) :
    (evalNode eval enter e).Keeps new := by
  cases e with
  | literal value line => exact keeps_pure _
  | grouping inner => exact heval inner
  | unary op mark right => exact (heval right).bind fun _ => keeps_orFault _ _
  | binary op mark left right =>
    exact (heval left).bind fun _ => (heval right).bind fun _ => keeps_orFault _ _
  | unpaired op mark right => exact keeps_fault _ _
  | logical op mark left right =>
    apply (heval left).bind
    intro value
    split
    · exact keeps_pure _
    · exact heval right
  | conditional condition yes no =>
    apply (heval condition).bind
    intro value
    split
    · exact heval yes
    · exact heval no
  | comma left right => exact (heval left).bind fun _ => heval right
  | name ref => exact keeps_read ref
  | assign ref value =>
    exact (heval value).bind fun _ => (keeps_assign ref _).bind fun _ => keeps_pure _
  | call callee paren arguments => exact keeps_callExpression henter heval callee paren arguments
  | get object name => exact (heval object).bind fun value => keeps_property value name
  | set object name value =>
    apply (heval object).bind
    intro target
    cases target with
    | «instance» id =>
      apply (heval value).bind
      intro value
      exact (keeps_modifyStore fun s => Store.adds_setField s id _ value).bind fun _ => keeps_pure _
    | _ => exact keeps_fault _ _
  | this ref => exact keeps_read ref
  | super ref method => exact keeps_superMethod ref method
  | lambda keyword code => exact keeps_closure none code

/-- A statement brings in the names that it declares, if its parts keep to that. -/
theorem execNode_keeps {rounds : Nat} {eval : Expr → Run Value} {exec : Stmt → Run Completion}
    (heval : ∀ e, (eval e).Keeps []) (hexec : ∀ s, (exec s).Keeps s.declares) (s : Stmt) :
    (execNode rounds eval exec s).Keeps s.declares := by
  have hweak {new : List String} (e : Expr) : (eval e).Keeps new := (heval e).weaken
  cases s with
  | expression value => exact (hweak value).bind fun _ => keeps_pure _
  | print keyword value =>
    exact (hweak value).bind fun v => (keeps_print v _).bind fun _ => keeps_pure _
  | var name initial =>
    cases initial with
    | none => exact (keeps_declare _).bind fun _ => keeps_pure _
    | some initial =>
      exact (hweak initial).bind fun v => (keeps_define _ v).bind fun _ => keeps_pure _
  | function definition =>
    obtain ⟨name, code⟩ := definition
    exact (keeps_closure _ code).bind fun f => (keeps_define _ f).bind fun _ => keeps_pure _
  | «class» name parent methods =>
    exact (keeps_declareClass hweak parent methods).bind fun _ => keeps_pure _
  | block body => exact keeps_block hexec body
  | «if» condition yes no =>
    cases no with
    | none =>
      apply (hweak condition).bind
      intro value
      split
      · exact hexec yes
      · exact keeps_pure _
    | some no =>
      apply (hweak condition).bind
      intro value
      split
      · exact (hexec yes).mono (List.subset_append_left _ _)
      · exact (hexec no).mono (List.subset_append_right _ _)
  | «while» condition body => exact keeps_loop (hweak condition) (hexec body) rounds
  | «return» keyword value =>
    cases value with
    | none => exact keeps_pure _
    | some value => exact (hweak value).bind fun _ => keeps_pure _
  | «break» keyword => exact keeps_pure _

/-- Expressions bring in no names and statements those that they declare. The induction is on the
    fuel. -/
theorem eval_exec_keeps (fuel : Nat) :
    (∀ e, (eval fuel e).Keeps []) ∧ (∀ s, (exec fuel s).Keeps s.declares) := by
  induction fuel with
  | zero => exact ⟨fun _ => keeps_outOfFuel, fun _ => keeps_outOfFuel⟩
  | succ fuel ih =>
    obtain ⟨heval, hexec⟩ := ih
    exact ⟨evalNode_keeps heval fun c arguments line => keeps_callClosure hexec c arguments line,
      execNode_keeps heval hexec⟩

theorem eval_keeps (fuel : Nat) (e : Expr) : (eval fuel e).Keeps [] :=
  (eval_exec_keeps fuel).1 e

theorem exec_keeps (fuel : Nat) (s : Stmt) : (exec fuel s).Keeps s.declares :=
  (eval_exec_keeps fuel).2 s

end Lox
