import Lox.Proofs.Run.Simulation
import Lox.Proofs.Session.History

namespace Lox

/-- Numbers do not overflow the stack. -/
theorem BinaryOp.applyNumbers_ne_stackOverflow (op : BinaryOp) (a b : Float) :
    op.applyNumbers a b ≠ .error .stackOverflow := by
  cases op with
  | divide =>
    unfold applyNumbers
    dsimp only
    split <;> nofun
  | _ => nofun

/-- Operators do not overflow the stack. -/
theorem BinaryOp.apply_ne_stackOverflow (op : BinaryOp) (a b : Value) :
    op.apply a b ≠ .error .stackOverflow := by
  unfold BinaryOp.apply
  split
  · nofun
  · nofun
  · nofun
  · exact applyNumbers_ne_stackOverflow _ _ _
  · nofun
  · nofun

/-- The line of an expression with other labels. -/
theorem Expr.line_relabel (f : Relabeling) (e : Expr) : (e.relabel f).line = f.line e.line := by
  cases e with
  | grouping inner => exact inner.line_relabel f
  | conditional condition yes no => exact condition.line_relabel f
  | comma left right => exact left.line_relabel f
  | _ => rfl

namespace Run

theorem prints_fault {α : Type} (f : Fault) (line : Nat) : (fault f line : Run α).Prints :=
  prints_of_constant fun _ => rfl

/-- A loop takes nothing back if its parts do not. -/
theorem prints_loop {condition : Run Value} {body : Run Completion} (hcondition : condition.Prints)
    (hbody : body.Prints) (rounds : Nat) : (loop condition body rounds).Prints := by
  induction rounds with
  | zero => exact prints_of_constant fun _ => rfl
  | succ rounds ih =>
    apply hcondition.bind
    intro value
    split
    · apply hbody.bind
      intro completion
      cases completion with
      | normal => exact ih
      | _ => exact prints_of_constant fun _ => rfl
    · exact prints_of_constant fun _ => rfl

end Run

namespace Simulation

open Run

variable {S : Simulation}

/-- With how much fuel the second run follows the first: with as much, or with less where it may be cut
    short for want of fuel. -/
def Fuels (S : Simulation) (fuel fuel' : Nat) : Prop :=
  (fuel = fuel' ∧ S.halt .outOfFuel .outOfFuel) ∨ (fuel' ≤ fuel ∧ S.cut .outOfFuel)

/-- Fuel that goes with more than none is more than none. -/
theorem Fuels.pred {fuel fuel' : Nat} (h : S.Fuels fuel (fuel' + 1)) :
    ∃ n, fuel = n + 1 ∧ S.Fuels n fuel' := by
  rcases h with ⟨rfl, hhalt⟩ | ⟨hle, hcut⟩
  · exact ⟨fuel', rfl, .inl ⟨rfl, hhalt⟩⟩
  · exact ⟨fuel - 1, by omega, .inr ⟨by omega, hcut⟩⟩

/-- Statements in a row follow if each of them does. -/
theorem sequence_follows {exec exec' : Stmt → Run Completion}
    (hexec : ∀ s, S.Same (exec s) (exec' (s.relabel S.label))) (body : List Stmt) :
    S.Same (sequence exec body) (sequence exec' (Stmt.relabelAll S.label body)) := by
  induction body with
  | nil => exact same_pure _
  | cons s rest ih =>
    apply Same.bind (hexec s)
    intro completion
    cases completion with
    | normal => exact ih
    | _ => exact same_pure _

/-- Expressions in a row follow if each of them does. -/
theorem all_follows {eval eval' : Expr → Run Value}
    (heval : ∀ e, S.Same (eval e) (eval' (e.relabel S.label))) (es : List Expr) :
    S.Same (all eval es) (all eval' (Expr.relabelAll S.label es)) := by
  induction es with
  | nil => exact same_pure _
  | cons e rest ih =>
    exact Same.bind (heval e) fun value => Same.bind ih fun values => same_pure _

section Lawful

variable (hS : S.Lawful)
include hS

/-- Without fuel on the second side the first run is cut or has none either. -/
theorem Fuels.empty {α : Type} {fuel : Nat} {x : Run α} (h : S.Fuels fuel 0)
    (hx : S.cut .outOfFuel → x.Prints) (hempty : fuel = 0 → x = outOfFuel) : S.Same x outOfFuel := by
  rcases h with ⟨rfl, hhalt⟩ | ⟨_, hcut⟩
  · obtain rfl := hempty rfl
    exact ⟨prints_of_constant fun _ => rfl, fun hm => .error hhalt hm⟩
  · exact hS.cut_follows (hx hcut) hcut

/-- A block follows if its statements do. -/
theorem block_follows {exec exec' : Stmt → Run Completion}
    (hexec : ∀ s, S.Same (exec s) (exec' (s.relabel S.label))) (body : List Stmt) :
    S.Same (block exec body) (block exec' (Stmt.relabelAll S.label body)) := by
  refine Same.bind hS.chain_follows fun chain => ?_
  let birth : Birth := ⟨.block body, chain⟩
  refine Same.bind (hS.allocate_follows fun s => s.newFrame_relabel S.label .block birth) fun frame => ?_
  exact hS.inChain_follows (sequence_follows hexec body) _

/-- A loop follows round by round, as long as there is fuel for both. -/
theorem loop_follows {condition condition' : Run Value} {body body' : Run Completion}
    (hcondition : S.Same condition condition') (hbody : S.Same body body') {rounds rounds' : Nat}
    (h : S.Fuels rounds rounds') :
    S.Same (loop condition body rounds) (loop condition' body' rounds') := by
  induction rounds' generalizing rounds with
  | zero =>
    refine Fuels.empty hS h (fun _ => prints_loop hcondition.prints hbody.prints rounds) ?_
    rintro rfl
    rfl
  | succ rounds' ih =>
    obtain ⟨rounds, rfl, hless⟩ := h.pred
    apply Same.bind hcondition
    intro value
    split
    · apply Same.bind hbody
      intro completion
      cases completion with
      | normal => exact ih hless
      | _ => exact same_pure _
    · exact same_pure _

theorem callNative_follows (f : Native) (arguments : List Value) (line : Nat) :
    S.Same (callNative f arguments line) (callNative f arguments (S.label.line line)) := by
  cases f with
  | clock => exact hS.readClock
  | hosted name arity => exact hS.callHost_follows name arguments line

/-- Parameters on other lines get the same arguments. -/
theorem defineParams_follows (params : List Mark) (arguments : List Value) :
    S.Same (defineParams params arguments) (defineParams (params.map (Mark.relabel S.label)) arguments) := by
  induction params generalizing arguments with
  | nil => exact same_pure _
  | cons param params ih =>
    cases arguments with
    | nil => exact same_pure _
    | cons argument arguments =>
      exact Same.bind (hS.define_follows param.lexeme argument) fun _ => ih arguments

theorem runBody_follows {exec exec' : Stmt → Run Completion}
    (hexec : ∀ s, S.Same (exec s) (exec' (s.relabel S.label))) (c : Closure)
    (arguments : List Value) :
    S.Same (runBody exec c arguments) (runBody exec' (c.relabel S.label) arguments) := by
  obtain ⟨name, ⟨params, body⟩, chain, initializer⟩ := c
  let birth : Birth := ⟨.call ⟨params, body⟩, chain⟩
  refine Same.bind (hS.allocate_follows fun s => s.newFrame_relabel S.label .function birth) fun frame => ?_
  refine hS.inChain_follows (Same.bind (defineParams_follows hS params arguments) fun _ => ?_) _
  exact sequence_follows hexec body

/-- Calls of a closure follow if its statements do. -/
theorem callClosure_follows {exec exec' : Stmt → Run Completion}
    (hexec : ∀ s, S.Same (exec s) (exec' (s.relabel S.label))) (c : Closure)
    (arguments : List Value) (line : Nat) :
    S.Same (callClosure exec c arguments line)
      (callClosure exec' (c.relabel S.label) arguments (S.label.line line)) := by
  obtain ⟨name, code, chain, initializer⟩ := c
  apply Same.bind (runBody_follows hS hexec ⟨name, code, chain, initializer⟩ arguments)
  intro completion
  cases initializer with
  | true =>
    refine Same.bind (hS.query_follows fun s => s.getAt?_relabel S.label chain 0 "this") fun value => ?_
    cases value with
    | none => exact hS.fault_follows line nofun
    | some value => exact same_pure _
  | false => exact same_pure _

section Calls

variable {enter enter' : Closure → List Value → Nat → Run Value}
  (henter : ∀ c arguments line, S.Same (enter c arguments line)
    (enter' (c.relabel S.label) arguments (S.label.line line)))
include henter

/-- Constructions follow if calls of closures do. -/
theorem construct_follows (classId : Nat) (arguments : List Value) (line : Nat) :
    S.Same (construct enter classId arguments line)
      (construct enter' classId arguments (S.label.line line)) := by
  refine Same.bind (hS.allocate_follows fun s => rfl) fun instanceId => ?_
  refine Follows.bind (hS.query_follows fun s => s.initializer?_relabel S.label classId)
    fun method => ?_
  cases method with
  | none => exact same_pure _
  | some method =>
    refine Follows.bind (hS.allocate_follows fun s => s.bind_relabel S.label method instanceId)
      fun closure => ?_
    exact Same.bind (henter closure arguments line) fun _ => same_pure _

/-- Calls of any value follow if calls of closures do. -/
theorem call_follows (callee : Value) (arguments : List Value) (line : Nat) :
    S.Same (call enter callee arguments line) (call enter' callee arguments (S.label.line line)) := by
  cases callee with
  | native f => exact callNative_follows hS f arguments line
  | function id =>
    refine Follows.bind (hS.query_follows fun s => s.functions_relabel S.label id) fun closure => ?_
    cases closure with
    | none => exact hS.fault_follows line nofun
    | some c => exact henter c arguments line
  | «class» id => exact construct_follows hS henter id arguments line
  | _ => exact hS.fault_follows line nofun

end Calls

/-- A call, given what becomes of it once callee and arguments are there. -/
theorem callExpression_follows {eval eval' : Expr → Run Value}
    {enter enter' : Closure → List Value → Nat → Run Value}
    (heval : ∀ e, S.Same (eval e) (eval' (e.relabel S.label)))
    (hcheck : ∀ callee arguments line, S.Same (callChecked enter callee arguments line)
      (callChecked enter' callee arguments (S.label.line line)))
    (callee : Expr) (paren : Mark) (arguments : List Expr) :
    S.Same (callExpression enter eval callee paren arguments)
      (callExpression enter' eval' (callee.relabel S.label) (paren.relabel S.label)
        (Expr.relabelAll S.label arguments)) := by
  apply Same.bind (heval callee)
  intro f
  split
  · exact Same.bind (all_follows heval arguments) fun values => hcheck f values paren.line
  · exact hS.fault_follows paren.line nofun

/-- The class and the instance of a `super` are found at the depths that go with each other. -/
theorem superTarget_follows (ref : Ref) :
    S.Same (superTarget ref) (superTarget (ref.relabel S.label)) := by
  refine hS.orFault_follows ref.mark.line (fun {m m'} hm => ?_) fun m => ?_
  · unfold Machine.superTarget
    dsimp only [Ref.relabel, Mark.relabel]
    rw [hS.depths hm, hS.store hm, hS.chain hm]
    simp only [Store.getAt?_relabel]
  · unfold Machine.superTarget
    dsimp only
    split
    · nofun
    · split
      · split <;> nofun
      · nofun

theorem superMethod_follows (ref : Ref) (method : Mark) :
    S.Same (superMethod ref method)
      (superMethod (ref.relabel S.label) (method.relabel S.label)) := by
  refine Same.bind (superTarget_follows hS ref) fun (parent, receiver) => ?_
  refine Follows.bind
    (hS.query_follows fun s => s.findMethod?_relabel S.label parent method.lexeme) fun found => ?_
  cases found with
  | none => exact hS.fault_follows method.line nofun
  | some c => exact hS.allocate_follows fun s => s.boundMethod_relabel S.label c receiver

/-- A property follows, since related stores find the same one. -/
theorem property_follows (object : Value) (name : Mark) :
    S.Same (property object name) (property object (name.relabel S.label)) := by
  cases object with
  | «instance» id =>
    refine Follows.bind (hS.query_follows fun s => s.property?_relabel S.label id name.lexeme)
      fun found => ?_
    cases found with
    | none => exact hS.fault_follows name.line nofun
    | some found =>
      cases found with
      | field value => exact same_pure _
      | method c => exact hS.allocate_follows fun s => s.boundMethod_relabel S.label c id
  | _ => exact hS.fault_follows name.line nofun

theorem closure_follows (name : Option String) (code : Lambda) :
    S.Same (closure name code) (closure name (code.relabel S.label)) := by
  refine Same.bind hS.chain_follows fun chain => ?_
  refine Same.bind (hS.allocate_follows fun s => ?_) fun id => same_pure _
  exact s.newFunction_relabel S.label ⟨name, code, chain, false⟩

/-- The methods of a class follow the same methods with other labels. -/
theorem methodTable_follows (methods : List Definition) :
    S.Follows (Table.map (Closure.relabel S.label)) (methodTable methods)
      (methodTable (Definition.relabelAll S.label methods)) := by
  refine Same.bind hS.chain_follows fun chain => ?_
  let entry (d : Definition) : String × Closure :=
    (d.name.lexeme, ⟨some d.name.lexeme, d.code, chain, d.name.lexeme = initializerName⟩)
  have hentry : (fun (name, c) => (name, Closure.relabel S.label c)) ∘ entry =
      entry ∘ Definition.relabel S.label := by
    funext ⟨name, code⟩
    rfl
  have htable : (Table.ofList (methods.map entry)).map (Closure.relabel S.label) =
      .ofList ((Definition.relabelAll S.label methods).map entry) := by
    rw [Table.map_ofList, List.map_map, hentry, Definition.relabelAll_eq_map, List.map_map]
  have hpure : S.Follows (Table.map (Closure.relabel S.label))
      (pure (Table.ofList (methods.map entry))) (pure _) := follows_pure _
  rwa [htable] at hpure

/-- Methods inside a frame of the superclass follow the same methods with other labels. -/
theorem methodsInside_follows (parent : Option Nat) (methods : List Definition) :
    S.Follows (Table.map (Closure.relabel S.label)) (methodsInside parent methods)
      (methodsInside parent (Definition.relabelAll S.label methods)) := by
  cases parent with
  | none => exact methodTable_follows hS methods
  | some id =>
    refine Same.bind hS.chain_follows fun chain => ?_
    let birth : Birth := ⟨.superclass methods id, chain⟩
    refine Same.bind (hS.allocate_follows fun s => s.newFrame_relabel S.label .super birth) fun frame => ?_
    refine hS.inChain_follows (Same.bind (hS.define_follows "super" (.class id)) fun _ => ?_) _
    exact methodTable_follows hS methods

/-- A superclass follows the same name with other labels. -/
theorem superclass_follows {eval eval' : Expr → Run Value}
    (heval : ∀ e, S.Same (eval e) (eval' (e.relabel S.label))) (ref : Ref) :
    S.Same (superclass eval ref) (superclass eval' (ref.relabel S.label)) := by
  apply Same.bind (heval (.name ref))
  intro value
  cases value with
  | «class» id => exact same_pure _
  | _ => exact hS.fault_follows ref.mark.line nofun

/-- A class is made from definitions with other labels alike. -/
theorem makeBelow_follows (parent : Option Nat) (name : Mark) (methods : List Definition) :
    S.Same (makeBelow parent name methods)
      (makeBelow parent (name.relabel S.label) (Definition.relabelAll S.label methods)) := by
  refine Same.bind (hS.define_follows name.lexeme .nil) fun _ => ?_
  refine Follows.bind (methodsInside_follows hS parent methods) fun table => ?_
  refine Same.bind (hS.query_follows fun s => s.ancestors_relabel S.label parent) fun above => ?_
  exact hS.allocate_follows fun s => s.newClass_relabel S.label ⟨name.lexeme, above, table⟩

/-- A class follows the same declaration with other labels. -/
theorem makeClass_follows {eval eval' : Expr → Run Value}
    (heval : ∀ e, S.Same (eval e) (eval' (e.relabel S.label))) (name : Mark)
    (superclassRef : Option Ref) (methods : List Definition) :
    S.Same (makeClass eval name superclassRef methods)
      (makeClass eval' (name.relabel S.label) (superclassRef.map (Ref.relabel S.label))
        (Definition.relabelAll S.label methods)) := by
  cases superclassRef with
  | none => exact makeBelow_follows hS none name methods
  | some ref =>
    rw [Option.map_some, makeClass_some, makeClass_some]
    exact Same.bind (superclass_follows hS heval ref) fun id =>
      makeBelow_follows hS (some id) name methods

/-- An assignment by name follows the same one with other labels. -/
theorem assignByName_follows (name : Mark) (value : Value) :
    S.Same (assignByName name value) (assignByName (name.relabel S.label) value) := by
  refine ⟨prints_of_sink fun m => ?_, fun {m m'} hm => ?_⟩
  · unfold after assignByName
    cases m.store.owner? m.chain name.lexeme <;> rfl
  · have howner : m'.store.owner? m'.chain name.lexeme = m.store.owner? m.chain name.lexeme := by
      rw [hS.store hm, hS.chain hm, Store.owner?_relabel]
    unfold assignByName
    dsimp only [Mark.relabel]
    rw [howner]
    exact hS.assignIn_matches hm _ name value

theorem declareClass_follows {eval eval' : Expr → Run Value}
    (heval : ∀ e, S.Same (eval e) (eval' (e.relabel S.label))) (name : Mark)
    (superclassRef : Option Ref) (methods : List Definition) :
    S.Same (declareClass eval name superclassRef methods)
      (declareClass eval' (name.relabel S.label) (superclassRef.map (Ref.relabel S.label))
        (Definition.relabelAll S.label methods)) :=
  Same.bind (makeClass_follows hS heval name superclassRef methods) fun id =>
    assignByName_follows hS name (.class id)

/-- An operator finds the same at fault on any line. -/
theorem apply_follows {result : Except Fault Value} (line : Nat)
    (hfault : result ≠ .error .stackOverflow) :
    S.Same (orFault line result) (orFault (S.label.line line) result) :=
  hS.orFault_follows line (fun _ => rfl) fun _ => hfault

/-- One expression follows its image if its parts do and calls are followed. -/
theorem evalNode_follows {eval eval' : Expr → Run Value}
    {enter enter' : Closure → List Value → Nat → Run Value}
    (heval : ∀ e, S.Same (eval e) (eval' (e.relabel S.label))) (e : Expr)
    (hcall : ∀ callee paren arguments, e = .call callee paren arguments →
      S.Same (callExpression enter eval callee paren arguments)
        (callExpression enter' eval' (callee.relabel S.label) (paren.relabel S.label)
          (Expr.relabelAll S.label arguments))) :
    S.Same (evalNode eval enter e) (evalNode eval' enter' (e.relabel S.label)) := by
  cases e with
  | literal value line => exact same_pure _
  | grouping inner => exact heval inner
  | unary op mark right =>
    refine Same.bind (heval right) fun value => apply_follows hS mark.line ?_
    cases op with
    | negate => cases value <;> nofun
    | not => nofun
  | binary op mark left right =>
    refine Same.bind (heval left) fun a => Same.bind (heval right) fun b => ?_
    exact apply_follows hS mark.line (op.apply_ne_stackOverflow a b)
  | unpaired op mark right => exact hS.fault_follows mark.line nofun
  | logical op mark left right =>
    apply Same.bind (heval left)
    intro value
    split
    · exact same_pure _
    · exact heval right
  | conditional condition yes no =>
    apply Same.bind (heval condition)
    intro value
    split
    · exact heval yes
    · exact heval no
  | comma left right => exact Same.bind (heval left) fun _ => heval right
  | name ref => exact hS.read_follows ref
  | assign ref value =>
    exact Same.bind (heval value) fun v => Same.bind (hS.assign_follows ref v) fun _ => same_pure _
  | call callee paren arguments => exact hcall callee paren arguments rfl
  | get object name => exact Same.bind (heval object) fun value => property_follows hS value name
  | set object name value =>
    apply Same.bind (heval object)
    intro target
    cases target with
    | «instance» id =>
      refine Same.bind (heval value) fun v => Same.bind (hS.modifyStore_follows fun s => rfl) fun _ => ?_
      exact same_pure _
    | _ => exact hS.fault_follows name.line nofun
  | this ref => exact hS.read_follows ref
  | super ref method => exact superMethod_follows hS ref method
  | lambda keyword code => exact closure_follows hS none code

/-- One statement follows its image if its parts do. -/
theorem execNode_follows {rounds rounds' : Nat} {eval eval' : Expr → Run Value}
    {exec exec' : Stmt → Run Completion} (hrounds : S.Fuels rounds rounds')
    (heval : ∀ e, S.Same (eval e) (eval' (e.relabel S.label)))
    (hexec : ∀ s, S.Same (exec s) (exec' (s.relabel S.label))) (s : Stmt) :
    S.Same (execNode rounds eval exec s) (execNode rounds' eval' exec' (s.relabel S.label)) := by
  cases s with
  | expression value => exact Same.bind (heval value) fun _ => same_pure _
  | print keyword value =>
    exact Same.bind (heval value) fun v => Same.bind (hS.print_follows v _) fun _ => same_pure _
  | var name initial =>
    cases initial with
    | none => exact Same.bind (hS.declare_follows name.lexeme) fun _ => same_pure _
    | some initial =>
      exact Same.bind (heval initial) fun v =>
        Same.bind (hS.define_follows name.lexeme v) fun _ => same_pure _
  | function definition =>
    obtain ⟨name, code⟩ := definition
    exact Same.bind (closure_follows hS (some name.lexeme) code) fun f =>
      Same.bind (hS.define_follows name.lexeme f) fun _ => same_pure _
  | «class» name parent methods =>
    exact Same.bind (declareClass_follows hS heval name parent methods) fun _ => same_pure _
  | block body => exact block_follows hS hexec body
  | «if» condition yes no =>
    cases no with
    | none =>
      apply Same.bind (heval condition)
      intro value
      split
      · exact hexec yes
      · exact same_pure _
    | some no =>
      apply Same.bind (heval condition)
      intro value
      split
      · exact hexec yes
      · exact hexec no
  | «while» condition body => exact loop_follows hS (heval condition) (hexec body) hrounds
  | «return» keyword value =>
    cases value with
    | none => exact same_pure _
    | some value => exact Same.bind (heval value) fun _ => same_pure _
  | «break» keyword => exact same_pure _

end Lawful

/-- A checked call is followed as soon as what it enters is. -/
def Checks (S : Simulation) : Prop :=
  ∀ enter enter' : Closure → List Value → Nat → Run Value,
    (∀ c arguments line, S.Same (enter c arguments line)
      (enter' (c.relabel S.label) arguments (S.label.line line))) →
    ∀ callee arguments line, S.Same (callChecked enter callee arguments line)
      (callChecked enter' callee arguments (S.label.line line))

/-- Related machines have as many calls active. -/
structure CountsAlike (S : Simulation) : Prop where
  calls : ∀ {m m'}, S.machine m m' → m'.calls = m.calls
  count : ∀ {m m'}, S.machine m m' → ∀ calls, S.machine { m with calls } { m' with calls }

/-- Where calls are counted alike a call follows a call. -/
theorem CountsAlike.counted {S : Simulation} (h : S.CountsAlike) {α : Type} {x x' : Run α}
    (hx : S.Same x x') : S.Same (counted x) (counted x') := by
  refine ⟨hx.prints.counted, fun {m m'} hm => ?_⟩
  have hback {m₁ m₁' : Machine} (hm₁ : S.machine m₁ m₁') :
      S.machine { m₁ with calls := m₁.calls - 1 } { m₁' with calls := m₁'.calls - 1 } := by
    rw [h.calls hm₁]
    exact h.count hm₁ _
  have hmatch := hx.step (h.count hm (m.calls + 1))
  unfold Run.counted
  rw [h.calls hm]
  generalize x { m with calls := m.calls + 1 } = r at hmatch
  generalize x' { m' with calls := m.calls + 1 } = r' at hmatch
  cases hmatch with
  | ok hm₁ => exact .ok (hback hm₁)
  | error he hm₁ => exact .error he (hback hm₁)
  | cut he hpieces =>
    refine .cut he ?_
    cases r <;> exact hpieces

/-- A call for which there is room. -/
def callWithin (enter : Closure → List Value → Nat → Run Value) (callee : Value)
    (arguments : List Value) (line : Nat) : Run Value := do
  if ← exhausted then
    fault .stackOverflow line
  else
    counted (call enter callee arguments line)

section CallWithin

variable {enter : Closure → List Value → Nat → Run Value} {callee : Value} {arguments : List Value}
  {line : Nat} {m : Machine}

/-- Below the limit a call is counted and made. -/
theorem callWithin_of_room (h : m.calls < m.maxCalls) :
    callWithin enter callee arguments line m = counted (call enter callee arguments line) m := by
  have hexhausted : exhausted m = .ok false m := by simp [exhausted, h]
  rw [callWithin, bind_apply, hexhausted]
  rfl

/-- At the limit a call is refused. -/
theorem callWithin_of_full (h : m.maxCalls ≤ m.calls) :
    callWithin enter callee arguments line m = fault .stackOverflow line m := by
  have hexhausted : exhausted m = .ok true m := by simp [exhausted, h]
  rw [callWithin, bind_apply, hexhausted]
  rfl

end CallWithin

/-- Checked calls are followed if calls are for which there is room, where the number of arguments is
    right. -/
theorem callChecked_follows {S : Simulation} (hS : S.Lawful)
    {enter enter' : Closure → List Value → Nat → Run Value} {callee : Value} {arguments : List Value}
    {line : Nat} (h : S.Same (callWithin enter callee arguments line)
      (callWithin enter' callee arguments (S.label.line line))) :
    S.Same (callChecked enter callee arguments line)
      (callChecked enter' callee arguments (S.label.line line)) := by
  refine Same.bind (hS.query_follows fun s => s.arity?_relabel S.label callee) fun arity => ?_
  cases arity with
  | none => exact hS.fault_follows line nofun
  | some arity =>
    dsimp only
    split
    · exact hS.fault_follows line nofun
    · exact h

/-- Where as many calls may be active, there is room for the same calls. -/
theorem CountsAlike.checks {S : Simulation} (h : S.CountsAlike) (hS : S.Lawful)
    (hmax : ∀ {m m'}, S.machine m m' → m'.maxCalls = m.maxCalls)
    (hoverflow : ∀ line,
      S.halt (.error ⟨.stackOverflow, line⟩) (.error ⟨.stackOverflow, S.label.line line⟩)) :
    S.Checks := by
  intro enter enter' henter callee arguments line
  have hexhausted : S.Same exhausted exhausted := by
    refine ⟨prints_of_constant fun _ => rfl, fun {m m'} hm => ?_⟩
    unfold exhausted
    rw [h.calls hm, hmax hm]
    exact .ok hm
  refine callChecked_follows hS (Same.bind hexhausted fun full => ?_)
  split
  · exact ⟨prints_fault _ line, fun hm => .error (hoverflow line) hm⟩
  · exact h.counted (call_follows hS henter callee arguments line)

section Trees

variable (hS : S.Lawful) (hchecks : S.Checks)
include hS hchecks

/-- The induction on the fuel, where a run that is cut for want of fuel must have printed its part.
    -/
private theorem eval_exec_follows_of_prints
    (hprints : S.cut .outOfFuel →
      ∀ fuel, (∀ e, (eval fuel e).Prints) ∧ (∀ s, (exec fuel s).Prints))
    {fuel fuel' : Nat} (h : S.Fuels fuel fuel') :
    (∀ e, S.Same (eval fuel e) (eval fuel' (e.relabel S.label))) ∧
      (∀ s, S.Same (exec fuel s) (exec fuel' (s.relabel S.label))) := by
  induction fuel' generalizing fuel with
  | zero =>
    refine ⟨fun e => Fuels.empty hS h (fun hcut => (hprints hcut fuel).1 e) ?_,
      fun s => Fuels.empty hS h (fun hcut => (hprints hcut fuel).2 s) ?_⟩ <;>
    · rintro rfl
      rfl
  | succ fuel' ih =>
    obtain ⟨fuel, rfl, hless⟩ := h.pred
    obtain ⟨heval, hexec⟩ := ih hless
    have henter (c : Closure) (arguments : List Value) (line : Nat) :=
      callClosure_follows hS hexec c arguments line
    refine ⟨fun e => evalNode_follows hS heval e fun callee paren arguments _ => ?_,
      execNode_follows hS hless heval hexec⟩
    exact callExpression_follows hS heval (hchecks _ _ henter) callee paren arguments

end Trees

/-- Every run follows itself. -/
def identity : Simulation :=
  ⟨.same, Eq, Eq, fun _ => False⟩

/-- A run that takes nothing back follows itself. -/
theorem same_identity {α : Type} {x : Run α} (hx : x.Prints) : identity.Same x x := by
  refine ⟨hx, ?_⟩
  rintro m _ rfl
  cases x m with
  | ok a m => exact .ok rfl
  | error e m => exact .error rfl rfl

theorem lawful_identity : identity.Lawful := by
  have hmachine {m m' : Machine} : identity.machine m m' ↔ m' = m ∧ True :=
    ⟨fun h => ⟨h.symm, trivial⟩, fun h => h.1.symm⟩
  refine .of_view hmachine ?_ (fun h _ _ _ _ => h) (fun _ _ => rfl) fun _ _ => rfl
  intro m store chain sink clock
  rw [show store.relabel identity.label = store from store.relabel_same]

theorem checks_identity : identity.Checks := by
  have hcounts : identity.CountsAlike := ⟨fun h => h ▸ rfl, by rintro m _ rfl _; rfl⟩
  exact hcounts.checks lawful_identity (fun h => h ▸ rfl) fun _ => rfl

/-- A statement follows itself under labels that stay. -/
theorem identity_follows {exec : Stmt → Run Completion} (hexec : ∀ s, (exec s).Prints) (s : Stmt) :
    identity.Same (exec s) (exec (s.relabel .same)) := by
  rw [s.relabel_same]
  exact same_identity (hexec s)

end Simulation

/-- Evaluation takes nothing back that was printed. -/
theorem eval_exec_prints (fuel : Nat) :
    (∀ e, (eval fuel e).Prints) ∧ (∀ s, (exec fuel s).Prints) := by
  obtain ⟨heval, hexec⟩ := Simulation.eval_exec_follows_of_prints Simulation.lawful_identity
    Simulation.checks_identity nofun
    (.inl ⟨rfl, rfl⟩ : Simulation.identity.Fuels fuel fuel)
  exact ⟨fun e => (heval e).prints, fun s => (hexec s).prints⟩

/-- Calls take nothing back that was printed. -/
theorem Run.prints_callChecked (fuel : Nat) (callee : Value) (arguments : List Value) (line : Nat) :
    (callChecked (callClosure (exec fuel)) callee arguments line).Prints := by
  have hexec := Simulation.identity_follows (eval_exec_prints fuel).2
  exact (Simulation.checks_identity _ _
    (Simulation.callClosure_follows Simulation.lawful_identity hexec) callee arguments line).prints

namespace Simulation

/-- Evaluation is followed by the evaluation of the tree with the other labels. -/
theorem eval_exec_follows {S : Simulation} (hS : S.Lawful) (hchecks : S.Checks) {fuel fuel' : Nat}
    (h : S.Fuels fuel fuel') :
    (∀ e, S.Same (eval fuel e) (eval fuel' (e.relabel S.label))) ∧
      (∀ s, S.Same (exec fuel s) (exec fuel' (s.relabel S.label))) :=
  eval_exec_follows_of_prints hS hchecks (fun _ => eval_exec_prints) h

section Programs

variable {S : Simulation} {exec exec' : Stmt → Run Completion}
  (hexec : ∀ s, S.Same (exec s) (exec' (s.relabel S.label)))
include hexec

/-- A program follows its image statement by statement. -/
theorem runEach_follows (program : List Stmt) :
    S.Same (runEach exec program) (runEach exec' (Stmt.relabelAll S.label program)) := by
  induction program with
  | nil => exact same_pure _
  | cons s rest ih => exact Same.bind (hexec s) fun _ => ih

/-- A line follows its image, with the values of its expressions printed in between. -/
theorem runShowing_follows (hS : S.Lawful) {eval eval' : Expr → Run Value}
    (heval : ∀ e, S.Same (eval e) (eval' (e.relabel S.label))) (program : List Stmt) :
    S.Same (runShowing eval exec program)
      (runShowing eval' exec' (Stmt.relabelAll S.label program)) := by
  induction program with
  | nil => exact same_pure _
  | cons s rest ih =>
    have hother : S.Same (do let _ ← exec s; runShowing eval exec rest)
        (do let _ ← exec' (s.relabel S.label)
            runShowing eval' exec' (Stmt.relabelAll S.label rest)) :=
      Same.bind (hexec s) fun _ => ih
    cases s with
    | expression e =>
      refine Same.bind (heval e) fun value => Same.bind ?_ fun _ => ih
      rw [e.line_relabel S.label]
      exact hS.print_follows value e.line
    | var name initial => cases initial <;> exact hother
    | «if» condition yes no => cases no <;> exact hother
    | «return» keyword value => cases value <;> exact hother
    | _ => exact hother

end Programs

end Simulation

/-- The run of a program is followed by that of the program with the other labels. -/
theorem Mode.run_follows {S : Simulation} (hS : S.Lawful) (hchecks : S.Checks) {fuel fuel' : Nat}
    (h : S.Fuels fuel fuel') (mode : Mode) (program : List Stmt) :
    S.Same (mode.run fuel program) (mode.run fuel' (Stmt.relabelAll S.label program)) := by
  obtain ⟨heval, hexec⟩ := Simulation.eval_exec_follows hS hchecks h
  cases mode with
  | program => exact Simulation.runEach_follows hexec program
  | line => exact Simulation.runShowing_follows hexec hS heval program

end Lox
