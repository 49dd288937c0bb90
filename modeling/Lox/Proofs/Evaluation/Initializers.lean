import Lox.Proofs.Evaluation.Class

namespace Lox

/-- Of the methods of a class, the initializers are those that are named like one. -/
def ClassRecord.Flagged (record : ClassRecord) : Prop :=
  ∀ name method, record.methods.find? name = some method →
    method.initializer = decide (name = initializerName)

/-- Every class has its initializers flagged. -/
def Store.Flagged (s : Store) : Prop :=
  ∀ (id : Nat) record, s.classes[id]? = some record → record.Flagged

namespace Store

variable {s s' : Store}

theorem Flagged.earlier (h : s'.Flagged) (hgrows : s.Grows s') : s.Flagged :=
  fun id record hrecord => h id record (hgrows.classes hrecord)

/-- A class whose initializers are flagged may be added. -/
theorem Flagged.newClass (h : s.Flagged) {record : ClassRecord} (hrecord : record.Flagged) :
    (s.newClass record).2.Flagged := by
  intro id made hmade
  simp only [Store.newClass, Array.getElem?_push] at hmade
  split at hmade
  · obtain rfl := Option.some.inj hmade
    exact hrecord
  · exact h id made hmade

end Store

namespace Run

variable {α β : Type} {x : Run α} {m : Machine}

/-- Methods are flagged as they are made, by their names alone. -/
theorem methodsMade_flagged (chain : Chain) (methods : List Definition) (name : String)
    (ancestors : List Nat) : ClassRecord.Flagged ⟨name, ancestors, methodsMade chain methods⟩ := by
  intro key method hfind
  obtain ⟨definition, -, heq⟩ := List.mem_map.mp (Table.mem_of_find?_ofList hfind)
  cases heq
  rfl

/-- However the run ends, the classes that it has made have their initializers flagged. -/
def Flags (x : Run α) : Prop :=
  ∀ m : Machine, m.store.Flagged → (x.after m).store.Flagged

/-- A run that makes no class. -/
theorem flags_of_classes (h : ∀ m, (x.after m).store.classes = m.store.classes) : x.Flags := by
  intro m hm id record hrecord
  rw [h] at hrecord
  exact hm id record hrecord

/-- A sequence flags if its parts do. -/
theorem Flags.bind {f : α → Run β} (hx : x.Flags) (hf : ∀ a, (f a).Flags) : (x >>= f).Flags := by
  intro m hm
  apply after_bind (P := fun m' => m'.store.Flagged) (hx m hm)
  intro a m₁ _ hfirst
  exact hf a m₁ hfirst

/-- A run in another chain adds the same classes. -/
theorem Flags.inChain (hx : x.Flags) (chain : Chain) : (inChain chain x).Flags := by
  intro m hm
  rw [after_inChain]
  exact hx { m with chain } hm

theorem Flags.counted (hx : x.Flags) : (counted x).Flags := by
  intro m hm
  rw [after_counted]
  exact hx { m with calls := m.calls + 1 } hm

theorem flags_pure (a : α) : (pure a : Run α).Flags :=
  flags_of_classes fun _ => rfl

theorem flags_fault (f : Fault) (line : Nat) : (fault f line : Run α).Flags :=
  flags_of_classes fun _ => rfl

theorem flags_orFault (line : Nat) (result : Except Fault α) : (orFault line result).Flags := by
  cases result with
  | ok a => exact flags_pure a
  | error f => exact flags_fault f line

theorem flags_query (find : Store → α) : (query find).Flags :=
  flags_of_classes fun _ => rfl

theorem flags_chain : chain.Flags :=
  flags_of_classes fun _ => rfl

theorem flags_allocate {add : Store → α × Store} (h : ∀ s, (add s).2.classes = s.classes) :
    (allocate add).Flags :=
  flags_of_classes fun m => h m.store

theorem classes_define (s : Store) (chain : Chain) (name : String) (value : Value) :
    (s.define chain name value).classes = s.classes := by
  cases chain <;> rfl

theorem flags_define (name : String) (value : Value) : (define name value).Flags :=
  flags_of_classes fun m => classes_define m.store m.chain name value

theorem flags_declare (name : String) : (declare name).Flags :=
  flags_of_classes fun m => by
    show (m.store.declare m.chain name).classes = _
    cases m.chain <;> rfl

theorem flags_read (ref : Ref) : (read ref).Flags :=
  fun m => flags_orFault _ (m.lookUp ref) m

/-- An assignment adds no class, wherever its name is found. -/
theorem flags_assignIn (owner : Machine → Option Nat) (name : Mark) (value : Value) :
    Flags fun m => assignIn (owner m) name value m :=
  flags_of_classes fun m => by
    unfold after
    cases howner : owner m <;> simp only [assignIn, howner] <;> rfl

theorem flags_write (pieces : List String) (line : Nat) : (write pieces line).Flags :=
  flags_of_classes fun m => by rw [after_write]

theorem flags_print (value : Value) (line : Nat) : (print value line).Flags :=
  (flags_query _).bind fun _ => flags_write _ line

section Parts

variable {eval : Expr → Run Value} {exec : Stmt → Run Completion}
  {enter : Closure → List Value → Nat → Run Value}

/-- Statements in a row flag if each of them does. -/
theorem flags_sequence (hexec : ∀ s, (exec s).Flags) (body : List Stmt) : (sequence exec body).Flags := by
  induction body with
  | nil => exact flags_pure _
  | cons s rest ih =>
    refine (hexec s).bind fun completion => ?_
    cases completion with
    | normal => exact ih
    | _ => exact flags_pure _

theorem flags_block (hexec : ∀ s, (exec s).Flags) (body : List Stmt) : (block exec body).Flags :=
  flags_chain.bind fun _ => (flags_allocate fun _ => rfl).bind fun _ =>
    (flags_sequence hexec body).inChain _

/-- A loop flags if its condition and its body do. -/
theorem flags_loop {condition : Run Value} {body : Run Completion} (hcondition : condition.Flags)
    (hbody : body.Flags) (rounds : Nat) : (loop condition body rounds).Flags := by
  induction rounds with
  | zero => exact flags_of_classes fun _ => rfl
  | succ rounds ih =>
    refine hcondition.bind fun value => ?_
    split
    · refine hbody.bind fun completion => ?_
      cases completion with
      | normal => exact ih
      | _ => exact flags_pure _
    · exact flags_pure _

/-- Expressions in a row flag if each of them does. -/
theorem flags_all (heval : ∀ e, (eval e).Flags) (es : List Expr) : (all eval es).Flags := by
  induction es with
  | nil => exact flags_pure _
  | cons e rest ih => exact (heval e).bind fun _ => ih.bind fun _ => flags_pure _

theorem flags_callNative (f : Native) (arguments : List Value) (line : Nat) :
    (callNative f arguments line).Flags := by
  cases f with
  | clock => exact flags_of_classes fun _ => rfl
  | hosted name arity => exact fun m => flags_orFault line (m.answer name arguments) m

theorem flags_defineParams (params : List Mark) (arguments : List Value) :
    (defineParams params arguments).Flags := by
  induction params generalizing arguments with
  | nil => exact flags_pure ()
  | cons param params ih =>
    cases arguments with
    | nil => exact flags_pure ()
    | cons argument arguments => exact (flags_define _ _).bind fun _ => ih arguments

/-- Calls of a closure flag if the statements of its body do. -/
theorem flags_callClosure (hexec : ∀ s, (exec s).Flags) (c : Closure) (arguments : List Value)
    (line : Nat) : (callClosure exec c arguments line).Flags := by
  have hbody : (runBody exec c arguments).Flags :=
    (flags_allocate fun _ => rfl).bind fun frame =>
      ((flags_defineParams _ _).bind fun _ => flags_sequence hexec _).inChain (frame :: c.chain)
  refine hbody.bind fun completion => ?_
  split
  · refine (flags_query _).bind fun found => ?_
    cases found with
    | none => exact flags_fault _ line
    | some value => exact flags_pure value
  · exact flags_pure _

section Entering

variable (henter : ∀ c arguments line, (enter c arguments line).Flags)
include henter

/-- A construction adds an instance and no class. -/
theorem flags_construct (classId : Nat) (arguments : List Value) (line : Nat) :
    (construct enter classId arguments line).Flags := by
  refine (flags_allocate fun _ => rfl).bind fun instanceId => (flags_query _).bind fun found => ?_
  cases found with
  | none => exact flags_pure _
  | some method =>
    have hbind : (allocate (·.bind method instanceId)).Flags := flags_allocate fun _ => rfl
    exact hbind.bind fun closure => (henter closure arguments line).bind fun _ => flags_pure _

theorem flags_call (callee : Value) (arguments : List Value) (line : Nat) :
    (call enter callee arguments line).Flags := by
  cases callee with
  | native f => exact flags_callNative f arguments line
  | function id =>
    refine (flags_query _).bind fun found => ?_
    cases found with
    | none => exact flags_fault _ line
    | some c => exact henter c arguments line
  | «class» id => exact flags_construct henter id arguments line
  | _ => exact flags_fault _ line

/-- Call expressions flag if their parts do. -/
theorem flags_callExpression (heval : ∀ e, (eval e).Flags) (callee : Expr) (paren : Mark)
    (arguments : List Expr) : (callExpression enter eval callee paren arguments).Flags := by
  refine (heval callee).bind fun f => ?_
  split
  · refine (flags_all heval arguments).bind fun values => (flags_query _).bind fun arity => ?_
    cases arity with
    | none => exact flags_fault _ _
    | some arity =>
      dsimp only
      split
      · exact flags_fault _ _
      · have hexhausted : exhausted.Flags := flags_of_classes fun _ => rfl
        refine hexhausted.bind fun full => ?_
        split
        · exact flags_fault _ _
        · exact (flags_call henter f values paren.line).counted
  · exact flags_fault _ _

end Entering

theorem flags_superMethod (ref : Ref) (method : Mark) : (superMethod ref method).Flags := by
  have htarget : (superTarget ref).Flags := fun m => flags_orFault _ (m.superTarget ref) m
  refine htarget.bind fun (parent, receiver) => (flags_query _).bind fun found => ?_
  cases found with
  | none => exact flags_fault _ _
  | some found => exact flags_allocate fun _ => rfl

theorem flags_property (object : Value) (name : Mark) : (property object name).Flags := by
  cases object with
  | «instance» id =>
    refine (flags_query _).bind fun found => ?_
    match found with
    | none => exact flags_fault _ _
    | some (.field value) => exact flags_pure value
    | some (.method found) => exact flags_allocate fun _ => rfl
  | _ => exact flags_fault _ _

theorem flags_closure (name : Option String) (code : Lambda) : (closure name code).Flags :=
  flags_chain.bind fun _ => (flags_allocate fun _ => rfl).bind fun _ => flags_pure _

/-- Only here classes are made, and their methods are flagged as they are. -/
theorem flags_makeBelow (parent : Option Nat) (name : Mark) (methods : List Definition) :
    (makeBelow parent name methods).Flags := by
  have hmake (table : Table Closure) (hflagged : ∀ above, ClassRecord.Flagged ⟨name.lexeme, above, table⟩) :
      Flags (query (ancestors parent) >>= fun above =>
        allocate (·.newClass ⟨name.lexeme, above, table⟩)) :=
    (flags_query _).bind fun above m hm => hm.newClass (hflagged above)
  refine (flags_define _ _).bind fun _ m hm => ?_
  cases parent with
  | none => exact hmake _ (methodsMade_flagged m.chain methods name.lexeme) m hm
  | some id =>
    exact hmake _ (methodsMade_flagged ((superFrame id methods m).1 :: m.chain) methods name.lexeme)
      ((methodsInside (some id) methods).after m) hm

/-- A declared class is flagged, since its methods are made from definitions. -/
theorem flags_declareClass (heval : ∀ e, (eval e).Flags) (name : Mark) (superclassRef : Option Ref)
    (methods : List Definition) : (declareClass eval name superclassRef methods).Flags := by
  have hassign (id : Nat) : (assignByName name (.class id)).Flags :=
    flags_assignIn (fun m => m.store.owner? m.chain name.lexeme) name (.class id)
  refine Flags.bind ?_ hassign
  cases superclassRef with
  | none =>
    rw [makeClass_none]
    exact flags_makeBelow none name methods
  | some ref =>
    rw [makeClass_some]
    have hsuperclass : (superclass eval ref).Flags := by
      refine (heval _).bind fun value => ?_
      cases value with
      | «class» id => exact flags_pure id
      | _ => exact flags_fault _ _
    exact hsuperclass.bind fun id => flags_makeBelow (some id) name methods

end Parts

end Run

open Run

/-- One expression flags if its parts do. -/
theorem evalNode_flags {eval : Expr → Run Value} {enter : Closure → List Value → Nat → Run Value}
    (heval : ∀ e, (eval e).Flags) (henter : ∀ c arguments line, (enter c arguments line).Flags)
    (e : Expr) : (evalNode eval enter e).Flags := by
  cases e with
  | literal value line => exact flags_pure _
  | grouping inner => exact heval inner
  | unary op mark right => exact (heval right).bind fun _ => flags_orFault _ _
  | binary op mark left right =>
    exact (heval left).bind fun _ => (heval right).bind fun _ => flags_orFault _ _
  | unpaired op mark right => exact flags_fault _ _
  | logical op mark left right =>
    refine (heval left).bind fun value => ?_
    split
    · exact flags_pure _
    · exact heval right
  | conditional condition yes no =>
    refine (heval condition).bind fun value => ?_
    split
    · exact heval yes
    · exact heval no
  | comma left right => exact (heval left).bind fun _ => heval right
  | name ref => exact flags_read ref
  | assign ref value =>
    exact (heval value).bind fun value =>
      Flags.bind (flags_assignIn (·.owner? ref) ref.mark value) fun _ => flags_pure _
  | call callee paren arguments => exact flags_callExpression henter heval callee paren arguments
  | get object name => exact (heval object).bind fun value => flags_property value name
  | set object name value =>
    refine (heval object).bind fun target => ?_
    cases target with
    | «instance» id =>
      refine (heval value).bind fun value => Flags.bind ?_ fun _ => flags_pure _
      exact flags_of_classes fun _ => rfl
    | _ => exact flags_fault _ _
  | this ref => exact flags_read ref
  | super ref method => exact flags_superMethod ref method
  | lambda keyword code => exact flags_closure none code

/-- One statement flags if its parts do. -/
theorem execNode_flags {rounds : Nat} {eval : Expr → Run Value} {exec : Stmt → Run Completion}
    (heval : ∀ e, (eval e).Flags) (hexec : ∀ s, (exec s).Flags) (s : Stmt) :
    (execNode rounds eval exec s).Flags := by
  cases s with
  | expression value => exact (heval value).bind fun _ => flags_pure _
  | print keyword value =>
    exact (heval value).bind fun v => (flags_print v _).bind fun _ => flags_pure _
  | var name initial =>
    cases initial with
    | none => exact (flags_declare _).bind fun _ => flags_pure _
    | some initial =>
      exact (heval initial).bind fun v => (flags_define _ v).bind fun _ => flags_pure _
  | function definition =>
    obtain ⟨name, code⟩ := definition
    exact (flags_closure _ code).bind fun f => (flags_define _ f).bind fun _ => flags_pure _
  | «class» name parent methods =>
    exact (flags_declareClass heval name parent methods).bind fun _ => flags_pure _
  | block body => exact flags_block hexec body
  | «if» condition yes no =>
    cases no with
    | none =>
      refine (heval condition).bind fun value => ?_
      split
      · exact hexec yes
      · exact flags_pure _
    | some no =>
      refine (heval condition).bind fun value => ?_
      split
      · exact hexec yes
      · exact hexec no
  | «while» condition body => exact flags_loop (heval condition) (hexec body) rounds
  | «return» keyword value =>
    cases value with
    | none => exact flags_pure _
    | some value => exact (heval value).bind fun _ => flags_pure _
  | «break» keyword => exact flags_pure _

/-- Whatever is evaluated, initializers are flagged and other methods are not. The induction is on
    the fuel. -/
theorem eval_exec_flags (fuel : Nat) : (∀ e, (eval fuel e).Flags) ∧ ∀ s, (exec fuel s).Flags := by
  induction fuel with
  | zero => exact ⟨fun _ => flags_of_classes fun _ => rfl, fun _ => flags_of_classes fun _ => rfl⟩
  | succ fuel ih =>
    obtain ⟨heval, hexec⟩ := ih
    exact ⟨evalNode_flags heval fun c arguments line => flags_callClosure hexec c arguments line,
      execNode_flags heval hexec⟩

end Lox
