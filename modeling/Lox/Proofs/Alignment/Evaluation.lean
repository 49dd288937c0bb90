import Lox.Proofs.Alignment.Call

namespace Lox

variable {visits : Visit → Prop} {depths : Std.TreeMap Nat Nat} {eval' eval : Expr → Run Value}
  {exec' exec : Stmt → Run Completion} {enter' enter : Closure → List Value → Nat → Run Value}
  {r : Resolver} {m : Machine}

/-- What an operator rejects is the fault of its operand. -/
theorem UnaryOp.apply_clean {op : UnaryOp} {value : Value} {fault : Fault}
    (h : op.apply value = .error fault) : ¬fault.Internal := by
  unfold UnaryOp.apply at h
  split at h
  · cases h
  · cases h
    exact id
  · cases h

/-- What an operator rejects is the fault of its operands. -/
theorem BinaryOp.apply_clean {op : BinaryOp} {left right : Value} {fault : Fault}
    (h : op.apply left right = .error fault) : ¬fault.Internal := by
  have hnumbers {a b : Float} (h : op.applyNumbers a b = .error fault) : ¬fault.Internal := by
    unfold BinaryOp.applyNumbers at h
    split at h <;> try split at h
    all_goals cases h
    exact id
  unfold BinaryOp.apply at h
  split at h
  · cases h
  · cases h
  · cases h
  · exact hnumbers h
  · cases h
    exact id
  · cases h
    exact id

namespace Run

/-- A property agrees: what is found is a method of a class in the store or no method at all. -/
theorem agrees_property (object : Value) (name : Mark) (hsound : m.store.Sound visits) :
    Agrees visits (property object name) (property object name) m := by
  cases object with
  | «instance» id =>
    refine .query ?_
    cases hfind : m.store.property? id name.lexeme with
    | none => exact agrees_fault name.line hsound
    | some found =>
      cases found with
      | field value => exact agrees_pure hsound trivial
      | method c => exact agrees_allocate (hsound.boundMethod (hsound.property? hfind) id) trivial
  | _ => exact agrees_fault name.line hsound

/-- Where both frames of a `super` hold what they should, its class and its instance are found. -/
theorem superTarget_eq {ref : Ref} {depth parent receiver : Nat}
    (hdepth : m.depths[ref.id]? = some (depth + 1))
    (hparent : m.store.getAt? m.chain (depth + 1) "super" = some (.class parent))
    (hreceiver : m.store.getAt? m.chain depth "this" = some (.instance receiver)) :
    m.superTarget ref = .ok (parent, receiver) := by
  simp [Machine.superTarget, hdepth, hparent, hreceiver]

/-- A method above a class agrees, since the frames of `super` and `this` are where binding says. -/
theorem agrees_superMethod (hcovers : Covers visits depths) {ref : Ref} {method : Mark}
    (hv : visits ⟨.expr (.super ref method), r⟩) (hm : m.Situated visits depths r.shapes) :
    Agrees visits (superMethod ref method) (superMethod ref method) m := by
  obtain ⟨depth, parent, receiver, hdepth, _, _, hparent, hreceiver⟩ := hm.super hcovers hv
  have htarget : superTarget ref m = .ok (parent, receiver) m := by
    unfold superTarget
    rw [superTarget_eq hdepth hparent hreceiver]
    rfl
  refine .step htarget (.query ?_)
  cases hfind : m.store.findMethod? parent method.lexeme with
  | none => exact agrees_fault method.line hm.store
  | some c =>
    exact agrees_allocate (hm.store.boundMethod (hm.store.findMethod? hfind) receiver) trivial

/-- A closure is made where its code is visited. -/
theorem agrees_closure {name : Option String} {code : Lambda} {role : FunctionRole}
    (hv : visits ⟨.code role code, r⟩) (hm : m.Situated visits depths r.shapes) :
    Agrees visits (closure name code) (closure name code) m := by
  refine .chain (.allocate ?_)
  have hmade : ClosureSound visits m.store ⟨name, code, m.chain, false⟩ :=
    ⟨role, r, hv, hm.aligned, (fun h => nomatch h)⟩
  exact agrees_pure (hm.store.newFunction hmade) trivial

/-- A read agrees where no fault in it is one of binding. -/
theorem agrees_read {ref : Ref} (hclean : ∀ fault, m.lookUp ref = .error fault → ¬fault.Internal)
    (hsound : m.store.Sound visits) : Agrees visits (read ref) (read ref) m := by
  have h : Agrees visits (orFault ref.mark.line (m.lookUp ref)) (orFault ref.mark.line (m.lookUp ref))
      m := agrees_orFault hsound hclean (fun _ _ => trivial) ref.mark.line
  exact ⟨rfl, h.ok, h.error⟩

/-- An assignment to a name like others keeps the frames of the language as they are. -/
theorem agrees_assignIn (owner : Option Nat) {name : Mark} (hplain : name.Plain) (value : Value)
    (hsound : m.store.Sound visits) :
    Agrees visits (assignIn owner name value) (assignIn owner name value) m := by
  cases owner with
  | none =>
    have h : Agrees visits (fault (.undefinedVariable name.lexeme) name.line : Run Unit)
        (fault (.undefinedVariable name.lexeme) name.line) m :=
      agrees_fault name.line hsound fun hinternal => hinternal hplain
    exact ⟨rfl, h.ok, h.error⟩
  | some frame =>
    refine ⟨rfl, fun h => ?_, (fun h => nomatch h)⟩
    cases h
    exact ⟨hsound.setSlot frame _ hplain, trivial⟩

/-- An assignment agrees wherever its name is found, if it is found at all. -/
theorem agrees_assign {ref : Ref} (hplain : ref.mark.Plain) (value : Value)
    (hsound : m.store.Sound visits) : Agrees visits (assign ref value) (assign ref value) m := by
  have h := agrees_assignIn (m.owner? ref) hplain value hsound
  exact ⟨rfl, h.ok, h.error⟩

/-- It makes no difference whether a name or a function comes first into the store. -/
theorem define_newFunction (s : Store) (c : Closure) (chain : Chain) (name : String)
    (value : Value) :
    (s.newFunction c).2.define chain name value =
      ((s.define chain name value).newFunction c).2 := by
  cases chain <;> rfl

/-- A function sees its own name, which it is given right after it is made. -/
theorem agrees_defineFunction {name : Mark} {code : Lambda}
    (hv : visits ⟨.code .function code, r.declareAndDefine name .declared⟩) (hplain : name.Plain)
    (hm : m.Situated visits depths r.shapes) :
    let run : Run Completion := do
      let f ← closure (some name.lexeme) code
      define name.lexeme f
      return .normal
    Agrees visits run run m fun completion m' =>
      completion = .normal →
        m'.Situated visits depths (r.shapes.modifyHead (·.settle [name.lexeme])) := by
  intro run
  let made : Closure := ⟨some name.lexeme, code, m.chain, false⟩
  have hdefined := hm.define (.function m.store.functions.size) hplain
  have hmade : ClosureSound visits (m.store.define m.chain name.lexeme
      (.function m.store.functions.size)) made := by
    refine ⟨.function, _, hv, ?_, (fun h => nomatch h)⟩
    rw [Resolver.shapes_declareAndDefine]
    exact hdefined.aligned
  have hafter := hdefined.keep (.of_adds (Store.adds_newFunction _ made))
    (hdefined.store.newFunction hmade)
  dsimp only at hafter
  rw [← define_newFunction] at hafter
  exact .step rfl (.step (a := ()) rfl (agrees_pure hafter.store fun _ => hafter))

/-- What is wrong with writing is the fault of the sink. -/
theorem halt_clean_of_write {pieces : List String} {line : Nat} {halt : Halt} {m' : Machine}
    (h : write pieces line m = .error halt m') : halt.Clean := by
  obtain ⟨message, -, rfl⟩ := write_eq_error h
  intro e he
  cases he
  exact id

/-- What is written leaves the frames in line with the scopes. -/
theorem agrees_write (pieces : List String) (line : Nat) {shapes : List Shape}
    (hm : m.Situated visits depths shapes) :
    Agrees visits (write pieces line) (write pieces line) m
      fun _ m' => m'.Situated visits depths shapes := by
  have hafter : ((write pieces line).after m).Situated visits depths shapes := by
    rw [after_write]
    exact ⟨hm.store, hm.known, hm.aligned, hm.innermost⟩
  refine ⟨rfl, fun {a m'} hy => ?_, fun {halt m'} hy => ?_⟩
  · rw [after, hy] at hafter
    exact ⟨hafter.store, hafter⟩
  · rw [after, hy] at hafter
    exact ⟨hafter.store, halt_clean_of_write hy⟩

/-- What is printed leaves the frames in line with the scopes. -/
theorem agrees_print (value : Value) (line : Nat) {shapes : List Shape}
    (hm : m.Situated visits depths shapes) :
    Agrees visits (print value line) (print value line) m
      fun _ m' => m'.Situated visits depths shapes :=
  .query (agrees_write _ line hm)

end Run

/-- The walk comes to every method of a class from where it comes to the first. -/
theorem Covers.method (hcovers : Covers visits depths) {methods : List Definition}
    (hv : visits ⟨.methods methods, r⟩) {method : Definition} (hmem : method ∈ methods) :
    ∃ role r', visits ⟨.code role method.code, r'⟩ ∧ r'.shapes = r.shapes := by
  induction methods generalizing r with
  | nil => cases hmem
  | cons first rest ih =>
    obtain ⟨name, code⟩ := first
    rcases List.mem_cons.mp hmem with rfl | hrest
    · have hfirst : visits ⟨.code (.ofMethod name.lexeme) code, r⟩ :=
        hcovers.part hv (by simp [Visit.parts])
      exact ⟨_, r, hfirst, rfl⟩
    · have hothers : visits ⟨.methods rest, code.resolve (.ofMethod name.lexeme) r⟩ :=
        hcovers.part hv (by simp [Visit.parts])
      obtain ⟨role, r', hvisit, hshapes⟩ := ih hothers hrest
      exact ⟨role, r', hvisit, hshapes.trans (code.resolve_onward _ r).shapes_eq⟩

/-- Methods that are made in line with the scopes around that of `this` are sound. -/
theorem Covers.methodsMade (hcovers : Covers visits depths) {methods : List Definition}
    {shapes : List Shape} (hv : visits ⟨.methods methods, r⟩)
    (hshapes : r.shapes = .implicit (.this methods) "this" :: shapes) {s : Store} {chain : Chain}
    (haligned : s.Aligned shapes chain) {name : String} {c : Closure}
    (hfind : (Run.methodsMade chain methods).find? name = some c) : MethodSound visits s c := by
  obtain ⟨method, hmem, heq⟩ := List.mem_map.mp (Table.mem_of_find?_ofList hfind)
  cases heq
  obtain ⟨role, r', hvisit, hsame⟩ := hcovers.method hv hmem
  exact ⟨role, r', methods, shapes, hvisit, ⟨method, hmem, rfl⟩, hsame.trans hshapes, haligned⟩

namespace Run

/-- The superclass agrees: it is evaluated where binding has looked at it. -/
theorem agrees_superclass (heval : EvalAgrees visits depths eval' eval) {name : Mark} {parent : Ref}
    (hv : visits ⟨.superclass name parent, r⟩) (hm : m.Situated visits depths r.shapes) :
    Agrees visits (superclass eval' parent) (superclass eval parent) m
      fun _ m' => m'.Situated visits depths r.shapes := by
  apply (heval.agrees hv rfl hm).bind
  intro value _ hy hsound _
  have hm₁ := hm.keep ((heval.keeps _).ok hy) hsound
  cases value with
  | «class» id => exact agrees_pure hsound hm₁
  | _ => exact agrees_fault parent.mark.line hsound

/-- Making the methods of a class does not fail, leaves the machine where it was, and makes methods
    that are sound. -/
theorem methodsInside_sound (hcovers : Covers visits depths) {methods : List Definition}
    {parent : Option Nat} {shapes : List Shape} (hv : visits ⟨.methods methods, r⟩)
    (hshapes : r.shapes = .implicit (.this methods) "this" ::
      ((parent.map fun _ => Shape.implicit (.super methods) "super").toList ++ shapes))
    (hm : m.Situated visits depths shapes) :
    ∃ table m', methodsInside parent methods m = .ok table m' ∧
      m'.Situated visits depths shapes ∧
      ∀ {name c}, table.find? name = some c → MethodSound visits m'.store c := by
  cases parent with
  | none =>
    exact ⟨_, m, methodsInside_none methods m, hm, hcovers.methodsMade hv hshapes hm.aligned⟩
  | some id =>
    have hsuits : (Purpose.superclass methods id).Suits (.super methods) := rfl
    refine ⟨_, _, methodsInside_some id methods m, ?_, ?_⟩
    · refine hm.keep ((keeps_methodsInside (some id) methods).ok (methodsInside_some id methods m)) ?_
      exact hm.store.implicitFrame .super rfl (fun h => nomatch h) (fun _ => ⟨rfl, id, rfl⟩) m.chain
    · refine hcovers.methodsMade hv hshapes ?_
      exact hm.aligned.implicitFrame hm.store.global hsuits "super" (.class id)

/-- The methods of a class agree: they are made in line with the scopes around their code. -/
theorem agrees_makeBelow (hcovers : Covers visits depths) {name : Mark} {superclassRef : Option Ref}
    {methods : List Definition} (hv : visits ⟨.stmt (.class name superclassRef methods), r⟩)
    {parent : Option Nat} (hparent : parent.isSome = superclassRef.isSome)
    (hm : m.Situated visits depths r.shapes) :
    Agrees visits (makeBelow parent name methods) (makeBelow parent name methods) m
      fun _ m' => m'.Situated visits depths (r.shapes.modifyHead (·.settle [name.lexeme])) := by
  have hplain := Stmt.Proper.class_plain (hcovers.sound hv).proper
  have hmethods : visits ⟨.methods methods, r.enterMethods name superclassRef methods⟩ := by
    refine hcovers.part hv ?_
    cases superclassRef <;> simp [Visit.parts, Stmt.parts]
  have hshapes := Resolver.shapes_enterMethods r name superclassRef methods
  have hsame : (superclassRef.map fun _ => Shape.implicit (.super methods) "super") =
      parent.map fun _ => Shape.implicit (.super methods) "super" := by
    cases parent <;> cases superclassRef <;> simp at hparent ⊢
  obtain ⟨table, m', hmade, hm', htable⟩ := methodsInside_sound hcovers hmethods
    (by rw [hshapes, Resolver.methodShapes, hsame]) (hm.define .nil hplain)
  refine .step (a := ()) rfl (.step hmade (.query ?_))
  have hsound := hm'.store.newClass ⟨name.lexeme, ancestors parent m'.store, table⟩ htable
  exact agrees_allocate hsound (hm'.keep (.of_adds (Store.adds_newClass _ _)) hsound)

/-- Classes are made alike, with a superclass and without. -/
theorem agrees_makeClass (hcovers : Covers visits depths)
    (heval : EvalAgrees visits depths eval' eval) {name : Mark} {superclassRef : Option Ref}
    {methods : List Definition} (hv : visits ⟨.stmt (.class name superclassRef methods), r⟩)
    (hm : m.Situated visits depths r.shapes) :
    Agrees visits (makeClass eval' name superclassRef methods)
      (makeClass eval name superclassRef methods) m
      fun _ m' => m'.Situated visits depths (r.shapes.modifyHead (·.settle [name.lexeme])) := by
  cases superclassRef with
  | none =>
    rw [makeClass_none, makeClass_none]
    exact agrees_makeBelow hcovers hv rfl hm
  | some parent =>
    have hparent : visits ⟨.superclass name parent, r⟩ :=
      hcovers.part hv (by simp [Visit.parts, Stmt.parts])
    rw [makeClass_some, makeClass_some]
    exact (agrees_superclass heval hparent hm).bind fun _ _ hm₁ =>
      agrees_makeBelow hcovers hv rfl hm₁

/-- Class declarations agree: the name of the class is there behind them. -/
theorem agrees_declareClass (hcovers : Covers visits depths)
    (heval : EvalAgrees visits depths eval' eval) {name : Mark} {superclassRef : Option Ref}
    {methods : List Definition} (hv : visits ⟨.stmt (.class name superclassRef methods), r⟩)
    (hm : m.Situated visits depths r.shapes) :
    Agrees visits (declareClass eval' name superclassRef methods)
      (declareClass eval name superclassRef methods) m
      fun _ m' => m'.Situated visits depths (r.shapes.modifyHead (·.settle [name.lexeme])) := by
  have hplain := Stmt.Proper.class_plain (hcovers.sound hv).proper
  apply (agrees_makeClass hcovers heval hv hm).bind
  intro id m₁ _ hsound hm₁
  have hassign := agrees_assignIn (m₁.store.owner? m₁.chain name.lexeme) hplain (.class id) hsound
  exact ⟨rfl, fun hy => ⟨(hassign.ok hy).1,
    hm₁.keep ((keeps_assignByName name _).ok hy) (hassign.ok hy).1⟩, hassign.error⟩

end Run

open Run

/-- One node agrees if its parts do. The cases are those of the walk that binds names. -/
theorem evalNode_agrees (hcovers : Covers visits depths)
    (heval : EvalAgrees visits depths eval' eval) (henter : EnterAgrees visits depths enter' enter)
    {v : Visit} {e : Expr} (hv : visits v) (he : v.node.expression? = some e)
    (hm : m.Situated visits depths v.before.shapes) :
    Agrees visits (evalNode eval' enter' e) (evalNode eval enter e) m := by
  obtain ⟨node, r⟩ := v
  cases node with
  | superclass name parent =>
    obtain rfl := Option.some.inj he
    have hplain : parent.mark.Plain := (hcovers.sound hv).proper
    exact agrees_read (fun _ => Machine.lookUp_error_clean hplain) hm.store
  | expr e' =>
    obtain rfl := Option.some.inj he
    have hproper := (hcovers.sound hv).proper
    have hpart {w : Visit} (hw : w ∈ e'.parts r) : visits w := hcovers.part hv hw
    -- A part that the walk comes to over another expression has the same scopes around it.
    have hover (e₀ : Expr) {r₀ : Resolver} {m : Machine} (hm : m.Situated visits depths r₀.shapes) :
        m.Situated visits depths (e₀.resolve r₀).shapes := by
      rwa [(e₀.resolve_onward r₀).shapes_eq]
    cases e' with
    | literal value line => exact agrees_pure hm.store trivial
    | grouping inner => exact (heval.expr (hpart (by simp [Expr.parts])) hm).forget
    | unary op mark right =>
      refine (heval.expr (hpart (by simp [Expr.parts])) hm).bind fun _ hsound _ => ?_
      exact agrees_orFault hsound (fun _ => op.apply_clean) (fun _ _ => trivial) mark.line
    | binary op mark left right =>
      have hleft : visits ⟨.expr left, r⟩ := hpart (by simp [Expr.parts])
      have hright : visits ⟨.expr right, left.resolve r⟩ := hpart (by simp [Expr.parts])
      refine (heval.expr hleft hm).bind fun _ _ hm₁ => ?_
      refine (heval.expr hright (hover left hm₁)).bind fun _ hsound _ => ?_
      exact agrees_orFault hsound (fun _ => op.apply_clean) (fun _ _ => trivial) mark.line
    | unpaired op mark right => exact hproper.elim
    | logical op mark left right =>
      have hleft : visits ⟨.expr left, r⟩ := hpart (by simp [Expr.parts])
      have hright : visits ⟨.expr right, left.resolve r⟩ := hpart (by simp [Expr.parts])
      refine (heval.expr hleft hm).bind fun _ hsound hm₁ => ?_
      split
      · exact agrees_pure hsound trivial
      · exact (heval.expr hright (hover left hm₁)).forget
    | conditional condition yes no =>
      have hcondition : visits ⟨.expr condition, r⟩ := hpart (by simp [Expr.parts])
      have hyes : visits ⟨.expr yes, condition.resolve r⟩ := hpart (by simp [Expr.parts])
      have hno : visits ⟨.expr no, yes.resolve (condition.resolve r)⟩ :=
        hpart (by simp [Expr.parts])
      refine (heval.expr hcondition hm).bind fun _ _ hm₁ => ?_
      have hm₂ := hover condition hm₁
      split
      · exact (heval.expr hyes hm₂).forget
      · exact (heval.expr hno (hover yes hm₂)).forget
    | comma left right =>
      have hleft : visits ⟨.expr left, r⟩ := hpart (by simp [Expr.parts])
      have hright : visits ⟨.expr right, left.resolve r⟩ := hpart (by simp [Expr.parts])
      refine (heval.expr hleft hm).bind fun _ _ hm₁ => ?_
      exact (heval.expr hright (hover left hm₁)).forget
    | name ref =>
      have hplain : ref.mark.Plain := hproper
      exact agrees_read (fun _ => Machine.lookUp_error_clean hplain) hm.store
    | assign ref value =>
      apply (heval.expr (hpart (by simp [Expr.parts])) hm).bind
      intro value _ _ hsound _
      refine (agrees_assign hproper.1 value hsound).bind fun _ hsound _ => ?_
      exact agrees_pure hsound trivial
    | call callee paren arguments =>
      have hcallee : visits ⟨.expr callee, r⟩ := hpart (by simp [Expr.parts])
      have harguments : visits ⟨.exprs arguments, callee.resolve r⟩ := hpart (by simp [Expr.parts])
      exact agrees_callExpression hcovers heval henter paren hcallee harguments hm
    | get object name =>
      apply (heval.expr (hpart (by simp [Expr.parts])) hm).bind
      intro target _ _ hsound _
      exact agrees_property target name hsound
    | set object name value =>
      have hvalue : visits ⟨.expr value, r⟩ := hpart (by simp [Expr.parts])
      have hobject : visits ⟨.expr object, value.resolve r⟩ := hpart (by simp [Expr.parts])
      apply (heval.expr hobject (hover value hm)).bind
      intro target _ _ hsound hm₁
      cases target with
      | «instance» id =>
        have hm₁ := (value.resolve_onward r).shapes_eq ▸ hm₁
        apply (heval.expr hvalue hm₁).bind
        intro value _ _ hsound _
        exact .step (a := ()) rfl (agrees_pure (hsound.setField id name.lexeme value) trivial)
      | _ => exact agrees_fault name.line hsound
    | this ref =>
      obtain ⟨depth, id, hdepth, _, hget⟩ := hm.this hcovers hv
      refine agrees_read (fun fault hfault => ?_) hm.store
      simp [Machine.lookUp, hdepth, hget] at hfault
    | super ref method => exact agrees_superMethod hcovers hv hm
    | lambda keyword code =>
      have hcode : visits ⟨.code .lambda code, r⟩ := hpart (by simp [Expr.parts])
      exact agrees_closure hcode hm
  | _ => cases he

/-- After a statement that brings in no name the machine is where it was, however the statement
    ends. -/
theorem ExecAgrees.stay (h : ExecAgrees visits depths exec' exec) {s : Stmt}
    (hv : visits ⟨.stmt s, r⟩) (hdeclares : s.declares = [])
    (hm : m.Situated visits depths r.shapes) :
    Agrees visits (exec' s) (exec s) m fun _ m' => m'.Situated visits depths r.shapes := by
  have hagrees := h.agrees hv hm
  exact hagrees.mono fun hy _ => hm.keep (hdeclares ▸ (h.keeps s).ok hy) (hagrees.ok hy).1

/-- A statement that does not end normally is not followed by another. -/
private theorem agrees_left {completion : Completion} {Q : Machine → Prop}
    (hsound : m.store.Sound visits) (hleft : completion ≠ .normal) :
    Agrees visits (pure completion) (pure completion) m
      fun completion m' => completion = .normal → Q m' :=
  agrees_pure hsound fun hnormal => absurd hnormal hleft

/-- One statement agrees if its parts do, and leaves the frames in line with the scopes behind it.
    -/
theorem execNode_agrees (hcovers : Covers visits depths)
    (heval : EvalAgrees visits depths eval' eval) (hexec : ExecAgrees visits depths exec' exec)
    (rounds : Nat) {s : Stmt} (hv : visits ⟨.stmt s, r⟩) (hm : m.Situated visits depths r.shapes) :
    Agrees visits (execNode rounds eval' exec' s) (execNode rounds eval exec s) m
      fun completion m' => completion = .normal → m'.Situated visits depths (s.resolve r).shapes := by
  have hproper := (hcovers.sound hv).proper
  have hpart {w : Visit} (hw : w ∈ s.parts r) : visits w := hcovers.part hv hw
  -- What the statement leaves behind is where it began but for the names that it declares.
  suffices h : Agrees visits (execNode rounds eval' exec' s) (execNode rounds eval exec s) m
      fun completion m' => completion = .normal →
        m'.Situated visits depths (r.shapes.modifyHead (·.settle s.declares)) by
    rwa [← (s.resolve_onward r).shapes] at h
  have hsame {m : Machine} (hdeclares : s.declares = []) (hm : m.Situated visits depths r.shapes) :
      m.Situated visits depths (r.shapes.modifyHead (·.settle s.declares)) := by
    rwa [hdeclares, Resolver.modifyHead_settle_nil]
  cases s with
  | expression value =>
    refine (heval.expr (hpart (by simp [Stmt.parts])) hm).bind fun _ hsound hm₁ => ?_
    exact agrees_pure hsound fun _ => hsame rfl hm₁
  | print keyword value =>
    apply (heval.expr (hpart (by simp [Stmt.parts])) hm).bind
    intro value _ _ hsound hm₁
    refine (agrees_print value keyword.line hm₁).bind fun _ hsound hm₂ => ?_
    exact agrees_pure hsound fun _ => hsame rfl hm₂
  | var name initial =>
    cases initial with
    | none =>
      have hdeclared := hm.declare hproper
      exact .step (a := ()) rfl (agrees_pure hdeclared.store fun _ => hdeclared)
    | some initial =>
      have hinitial : visits ⟨.expr initial, r.declare name .declared⟩ :=
        hpart (by simp [Stmt.parts])
      have hinside := hm.declared name.lexeme
      rw [← Resolver.shapes_declare r name .declared] at hinside
      have hvalue := heval.expr hinitial hinside
      apply hvalue.bind
      intro value _ hy hsound _
      have hdefined := (hm.keep ((heval.keeps initial).ok hy) hsound).define value hproper.1
      exact .step (a := ()) rfl (agrees_pure hdefined.store fun _ => hdefined)
  | function definition =>
    obtain ⟨name, code⟩ := definition
    have hcode : visits ⟨.code .function code, r.declareAndDefine name .declared⟩ :=
      hpart (by simp [Stmt.parts])
    exact agrees_defineFunction hcode hproper.1 hm
  | «class» name superclassRef methods =>
    refine (agrees_declareClass hcovers heval hv hm).bind fun _ hsound hm₁ => ?_
    exact agrees_pure hsound fun _ => hm₁
  | block body =>
    have hbody : visits ⟨.stmts body, r.enter (.block body)⟩ := hpart (by simp [Stmt.parts])
    have hblock := agrees_block hcovers hexec hbody hm
    refine hblock.mono fun hy _ _ => hsame rfl (hm.keep ?_ (hblock.ok hy).1)
    exact (keeps_block hexec.keeps body).ok hy
  | «if» condition yes no =>
    have hover {m : Machine} (hm : m.Situated visits depths r.shapes) :
        m.Situated visits depths (condition.resolve r).shapes := by
      rwa [(condition.resolve_onward r).shapes_eq]
    cases no with
    | none =>
      have hcondition : visits ⟨.expr condition, r⟩ := hpart (by simp [Stmt.parts])
      have hyes : visits ⟨.stmt yes, condition.resolve r⟩ := hpart (by simp [Stmt.parts])
      obtain ⟨_, _, hdeclares⟩ := hproper
      refine (heval.expr hcondition hm).bind fun _ hsound hm₁ => ?_
      split
      · refine (hexec.stay hyes hdeclares (hover hm₁)).mono fun _ hm₂ _ => hsame hdeclares ?_
        rwa [(condition.resolve_onward r).shapes_eq] at hm₂
      · exact agrees_pure hsound fun _ => hsame hdeclares hm₁
    | some no =>
      have hcondition : visits ⟨.expr condition, r⟩ := hpart (by simp [Stmt.parts])
      have hyes : visits ⟨.stmt yes, condition.resolve r⟩ := hpart (by simp [Stmt.parts])
      have hno : visits ⟨.stmt no, yes.resolve (condition.resolve r)⟩ :=
        hpart (by simp [Stmt.parts])
      obtain ⟨_, _, _, hyesDeclares, hnoDeclares⟩ := hproper
      have hdeclares : (Stmt.if condition yes (some no)).declares = [] := by
        simp [Stmt.declares, hyesDeclares, hnoDeclares]
      have hbetween : (yes.resolve (condition.resolve r)).shapes = r.shapes := by
        rw [(yes.resolve_onward _).shapes, hyesDeclares, Resolver.modifyHead_settle_nil,
          (condition.resolve_onward r).shapes_eq]
      refine (heval.expr hcondition hm).bind fun _ _ hm₁ => ?_
      split
      · refine (hexec.stay hyes hyesDeclares (hover hm₁)).mono fun _ hm₂ _ => hsame hdeclares ?_
        rwa [(condition.resolve_onward r).shapes_eq] at hm₂
      · refine (hexec.stay hno hnoDeclares (hbetween ▸ hm₁)).mono fun _ hm₂ _ => hsame hdeclares ?_
        rwa [hbetween] at hm₂
  | «while» condition body =>
    have hcondition : visits ⟨.expr condition, r⟩ := hpart (by simp [Stmt.parts])
    have hbody : visits ⟨.stmt body,
        { condition.resolve r with loops := (condition.resolve r).loops + 1 }⟩ :=
      hpart (by simp [Stmt.parts])
    obtain ⟨_, _, hdeclares⟩ := hproper
    have hinside : ({ condition.resolve r with
        loops := (condition.resolve r).loops + 1 } : Resolver).shapes = r.shapes :=
      (condition.resolve_onward r).shapes_eq
    refine (agrees_loop hm (heval.expr hcondition) (fun hm => ?_) rounds).mono
      fun _ hm₁ _ => hsame hdeclares hm₁
    have hstay := hexec.stay hbody hdeclares (hinside ▸ hm)
    rwa [hinside] at hstay
  | «return» keyword value =>
    cases value with
    | none => exact agrees_left hm.store (by simp)
    | some value =>
      have hvalue : visits ⟨.expr value, r.checkReturn keyword true⟩ :=
        hpart (by simp [Stmt.parts])
      have hinside := (Resolver.onward_checkReturn r keyword true).shapes_eq ▸ hm
      refine (heval.expr hvalue hinside).bind fun _ hsound _ => ?_
      exact agrees_left hsound (by simp)
  | «break» keyword => exact agrees_left hm.store (by simp)

end Lox
