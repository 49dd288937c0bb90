import Lox.Proofs.Alignment.Evaluation
import Lox.Proofs.Rounds.Run
import Lox.Proofs.Table

namespace Lox

open Folding

variable {C : Course} {F : Folding} {marks : List Bool} {r : Resolver}

/-- Binding leaves an expression with the scopes around it as they were. -/
theorem Folding.Placed.behindExpr (h : Placed marks r.shapes) (e : Expr) :
    Placed marks (e.resolve r).shapes := by
  rwa [(e.resolve_onward r).shapes_eq]

/-- A statement settles its names in the innermost scope only, and none in that of a round. -/
theorem Folding.Placed.behindStmt (h : Placed marks r.shapes) {s : Stmt}
    (hround : marks.headD false = true → s.declares = []) : Placed marks (s.resolve r).shapes := by
  rw [(s.resolve_onward r).shapes]
  cases hmark : marks.headD false with
  | false => exact h.modifyHead hmark _
  | true => rwa [hround hmark, Resolver.modifyHead_settle_nil]

namespace Run

variable {eval : Expr → Run Value} {exec : Stmt → Run Completion}
  {enter : Closure → List Value → Nat → Run Value}

/-- Every visited expression is evaluated to the same. -/
abbrev EvalFolds (C : Course) (eval : Expr → Run Value) : Prop :=
  ∀ {F marks v e}, C.visits v → v.node.expression? = some e → Placed marks v.before.shapes →
    SameFolds C F marks (eval e) (eval e)

/-- Every visited statement is executed to the same, if it brings no name into the scope of a round. -/
abbrev ExecFolds (C : Course) (exec : Stmt → Run Completion) : Prop :=
  ∀ {F marks s r}, C.visits ⟨.stmt s, r⟩ → Placed marks r.shapes →
    (marks.headD false = true → s.declares = []) → SameFolds C F marks (exec s) (exec s)

/-- Functions that are alike are entered alike, wherever they are called. -/
abbrev EnterFolds (C : Course) (enter : Closure → List Value → Nat → Run Value) : Prop :=
  ∀ {F marks c c'}, c.Folds C.Fits F [] c' → ∀ arguments line,
    SameFolds C F marks (enter c arguments line) (enter c' arguments line)

section Statements

variable (hcovers : Covers C.visits C.depths) (hexec : ExecFolds C exec)
include hcovers hexec

/-- Statements in a row come to the same, as long as the innermost frame is none of a round. -/
theorem sameFolds_sequence {body : List Stmt} (hv : C.visits ⟨.stmts body, r⟩)
    (hplaced : Placed marks r.shapes) (hmark : marks.headD false = false) :
    SameFolds C F marks (sequence exec body) (sequence exec body) := by
  induction body generalizing r with
  | nil => exact sameFolds_pure _
  | cons s rest ih =>
    have hs : C.visits ⟨.stmt s, r⟩ := hcovers.part hv (by simp [Visit.parts])
    have hrest : C.visits ⟨.stmts rest, s.resolve r⟩ := hcovers.part hv (by simp [Visit.parts])
    have hround : marks.headD false = true → s.declares = [] := by
      rw [hmark]
      nofun
    refine Folds.next (hexec hs hplaced hround) fun completion => ?_
    cases completion with
    | normal => exact ih hrest (hplaced.behindStmt hround)
    | _ => exact sameFolds_pure _

/-- A block comes to the same, since its own frame is on both sides. -/
theorem sameFolds_block {body : List Stmt} (hv : C.visits ⟨.stmts body, r.enter (.block body)⟩)
    (hplaced : Placed marks r.shapes) :
    SameFolds C F marks (block exec body) (block exec body) := by
  refine folds_chain.bind fun {F₁ outer outer'} _ hline => ?_
  refine (folds_newFrame .block _ _).bind fun {F₂ frame frame'} hF hframe => ?_
  exact (sameFolds_sequence hcovers hexec hv (hplaced.cons _) rfl).inChain
    (.frame hframe (hline.mono hF))

end Statements

/-- A loop comes to the same round by round. -/
theorem sameFolds_loop {condition condition' : Run Value} {body body' : Run Completion}
    (hcondition : SameFolds C F marks condition condition') (hbody : SameFolds C F marks body body')
    (rounds : Nat) :
    SameFolds C F marks (loop condition body rounds) (loop condition' body' rounds) := by
  induction rounds with
  | zero => exact folds_outOfFuel
  | succ rounds ih =>
    refine hcondition.next fun value => ?_
    split
    · refine hbody.next fun completion => ?_
      cases completion with
      | normal => exact ih
      | _ => exact sameFolds_pure _
    · exact sameFolds_pure _

theorem sameFolds_callNative (f : Native) (arguments : List Value) (line : Nat) :
    SameFolds C F marks (callNative f arguments line) (callNative f arguments line) := by
  cases f with
  | clock => exact sameFolds_readClock
  | hosted name arity => exact sameFolds_callHost name arguments line

/-- Parameters get the same arguments in frames that are on both sides. -/
theorem sameFolds_defineParams (hmark : marks.headD false = false) (params : List Mark)
    (arguments : List Value) :
    SameFolds C F marks (defineParams params arguments) (defineParams params arguments) := by
  induction params generalizing arguments with
  | nil => exact sameFolds_pure _
  | cons param params ih =>
    cases arguments with
    | nil => exact sameFolds_pure _
    | cons argument arguments =>
      exact (sameFolds_define hmark param.lexeme argument).next fun _ => ih arguments

section Bodies

variable (hcovers : Covers C.visits C.depths) (hexec : ExecFolds C exec)
include hcovers hexec

/-- The body of a closure comes to the same: its frame is on both sides. -/
theorem sameFolds_runBody {c c' : Closure} (hc : c.Folds C.Fits F [] c') (arguments : List Value) :
    SameFolds C F marks (runBody exec c arguments) (runBody exec c' arguments) := by
  obtain ⟨around, hline, role, r, hv, hplaced, -⟩ := hc.line
  unfold runBody
  rw [hc.code]
  refine (folds_newFrame .function _ _).bind fun {F' frame frame'} hF hframe => ?_
  have hbody : C.visits ⟨.stmts c.code.body, r.enterFunction role c.code⟩ :=
    hcovers.part hv (by simp [Visit.parts])
  have hinside : Placed (false :: around) (r.enterFunction role c.code).shapes := by
    have hshapes : (r.enterFunction role c.code).shapes =
        (Shape.opened (.function c.code) :: r.shapes).modifyHead
          (·.settle (c.code.params.map Mark.lexeme)) :=
      (Resolver.onward_params c.code.params _).shapes
    rw [hshapes]
    exact hplaced.cons _
  have hrun : SameFolds C F' (false :: around)
      (do defineParams c.code.params arguments; sequence exec c.code.body)
      (do defineParams c.code.params arguments; sequence exec c.code.body) :=
    (sameFolds_defineParams rfl c.code.params arguments).next fun _ =>
      sameFolds_sequence hcovers hexec hbody hinside rfl
  exact hrun.inChain (.frame hframe (hline.mono hF))

/-- An initializer finds its instance in a frame that is not that of a round. -/
theorem sameFolds_callClosure {c c' : Closure} (hc : c.Folds C.Fits F [] c') (arguments : List Value)
    (line : Nat) :
    SameFolds C F marks (callClosure exec c arguments line) (callClosure exec c' arguments line) := by
  refine (sameFolds_runBody hcovers hexec hc arguments).bind fun {F' completion completion'} hF hsame => ?_
  subst hsame
  rw [hc.initializer]
  split
  · rename_i hinitializer
    have hthis : SameFolds C F' marks (query (·.getAt? c.chain 0 "this"))
        (query (·.getAt? c'.chain 0 "this")) := by
      obtain ⟨around, hline, role, r, hv, hplaced, hhead⟩ := hc.line
      have hmark : around.getD 0 false = false := by
        have hfirst : around.headD false = false := hhead hinitializer
        cases around <;> exact hfirst
      exact folds_query fun hF' hs => hs.getAt? (hline.mono (hF.trans hF')) hmark "this"
    refine hthis.next fun value => ?_
    cases value with
    | none => exact folds_fault _ line
    | some value => exact sameFolds_pure value
  · exact sameFolds_pure _

end Bodies

section Entering

variable (henter : EnterFolds C enter)
include henter

/-- Constructions come to the same. -/
theorem sameFolds_construct (classId : Nat) (arguments : List Value) (line : Nat) :
    SameFolds C F marks (construct enter classId arguments line)
      (construct enter classId arguments line) := by
  have hmade : SameFolds C F marks (allocate (·.newInstance classId))
      (allocate (·.newInstance classId)) :=
    folds_allocate fun {F' _ _} _ hs => ⟨F', List.prefix_refl _, hs.newInstance classId⟩
  refine hmade.next fun instanceId => ?_
  have hinit : Folds C F marks (fun F' => Option.Rel (Closure.Folds C.Fits F' [false]))
      (query (·.initializer? classId)) (query (·.initializer? classId)) :=
    folds_query fun _ hs => hs.initializer? classId
  refine hinit.bind fun {F' method method'} _ hmethod => ?_
  cases hmethod with
  | none => exact sameFolds_pure _
  | @some method method' hmethod =>
    have hbound : Folds C F' marks (fun F'' => Closure.Folds C.Fits F'' [])
        (allocate (·.bind method instanceId)) (allocate (·.bind method' instanceId)) :=
      folds_allocate fun {F'' _ s'} hF hs => ⟨F'' ++ [some s'.frames.size], List.prefix_append _ _,
        hs.bind (hmethod.mono hF) instanceId⟩
    refine hbound.bind fun {F'' closure closure'} _ hclosure => ?_
    exact (henter hclosure arguments line).next fun _ => sameFolds_pure _

/-- Calls of any value come to the same. -/
theorem sameFolds_call (callee : Value) (arguments : List Value) (line : Nat) :
    SameFolds C F marks (call enter callee arguments line) (call enter callee arguments line) := by
  cases callee with
  | native f => exact sameFolds_callNative f arguments line
  | function id =>
    have hfunction : Folds C F marks (fun F' => Option.Rel (Closure.Folds C.Fits F' []))
        (query (·.functions[id]?)) (query (·.functions[id]?)) :=
      folds_query fun _ hs => hs.functions id
    refine hfunction.bind fun {F' c c'} _ hc => ?_
    cases hc with
    | none => exact folds_fault _ line
    | some hc => exact henter hc arguments line
  | «class» id => exact sameFolds_construct henter id arguments line
  | _ => exact folds_fault _ line

/-- Checked calls of any value come to the same. -/
theorem sameFolds_callChecked (callee : Value) (arguments : List Value) (line : Nat) :
    SameFolds C F marks (callChecked enter callee arguments line)
      (callChecked enter callee arguments line) := by
  have harity : SameFolds C F marks (query (·.arity? callee)) (query (·.arity? callee)) :=
    folds_query fun _ hs => hs.arity? callee
  refine harity.next fun arity => ?_
  cases arity with
  | none => exact folds_fault _ line
  | some arity =>
    dsimp only
    split
    · exact folds_fault _ line
    · refine sameFolds_exhausted.next fun full => ?_
      split
      · exact folds_fault _ line
      · exact (sameFolds_call henter callee arguments line).counted

end Entering

section Expressions

variable (hcovers : Covers C.visits C.depths) (heval : EvalFolds C eval)
include hcovers heval

/-- Expressions in a row come to the same. -/
theorem sameFolds_all {es : List Expr} (hv : C.visits ⟨.exprs es, r⟩)
    (hplaced : Placed marks r.shapes) : SameFolds C F marks (all eval es) (all eval es) := by
  induction es generalizing r with
  | nil => exact sameFolds_pure _
  | cons e rest ih =>
    have he : C.visits ⟨.expr e, r⟩ := hcovers.part hv (by simp [Visit.parts])
    have hrest : C.visits ⟨.exprs rest, e.resolve r⟩ := hcovers.part hv (by simp [Visit.parts])
    exact (heval he rfl hplaced).next fun _ =>
      Folds.next (ih hrest (hplaced.behindExpr e)) fun _ => sameFolds_pure _

/-- Call expressions come to the same. -/
theorem sameFolds_callExpression (henter : EnterFolds C enter) {callee : Expr} (paren : Mark)
    {arguments : List Expr} (hcallee : C.visits ⟨.expr callee, r⟩)
    (harguments : C.visits ⟨.exprs arguments, callee.resolve r⟩) (hplaced : Placed marks r.shapes) :
    SameFolds C F marks (callExpression enter eval callee paren arguments)
      (callExpression enter eval callee paren arguments) := by
  refine (heval hcallee rfl hplaced).next fun f => ?_
  split
  · have hvalues := sameFolds_all (F := F) hcovers heval harguments (hplaced.behindExpr callee)
    exact hvalues.next fun values => sameFolds_callChecked henter f values paren.line
  · exact folds_fault _ paren.line

end Expressions

/-- The frames of `this` and `super` are on both sides, so the same is found in them. -/
theorem sameFolds_superTarget (hcovers : Covers C.visits C.depths) {ref : Ref} {method : Mark}
    (hv : C.visits ⟨.expr (.super ref method), r⟩) (hplaced : Placed marks r.shapes) :
    SameFolds C F marks (superTarget ref) (superTarget ref) := by
  refine ⟨fun {F' m m'} _ hm => ?_⟩
  have hsound := hcovers.sound hv
  have hname : ref.mark.lexeme = "super" := hsound.proper
  obtain ⟨depth, hfound, hthis, hsuper⟩ := depth?_super hsound.placed.regular
    (hsound.placed.role ▸ hsound.role_of_super)
  have hdepth : C.depths[ref.id]? = some (depth + 1) := by
    rw [hsound.recorded_before rfl rfl, hname]
    exact hfound
  have htarget : m'.superTarget ref = m.superTarget ref := by
    unfold Machine.superTarget
    rw [hm.depths, hm.depths', hdepth]
    dsimp only
    rw [hm.store.getAt? hm.line (hplaced.unmarked_kind hsuper nofun) "super", Nat.add_sub_cancel,
      hm.store.getAt? hm.line (hplaced.unmarked_kind hthis nofun) "this"]
  unfold superTarget
  rw [htarget]
  exact (sameFolds_orFault ref.mark.line _).step (List.prefix_refl _) hm

/-- A method is bound in a frame that is on both sides. -/
theorem sameFolds_boundMethod {c c' : Closure} (hc : c.Folds C.Fits F [false] c') (instanceId : Nat) :
    SameFolds C F marks (allocate (·.boundMethod c instanceId))
      (allocate (·.boundMethod c' instanceId)) :=
  folds_allocate fun {F' _ s'} hF hs => ⟨F' ++ [some s'.frames.size], List.prefix_append _ _,
    hs.boundMethod (hc.mono hF) instanceId⟩

/-- A method above a class is the same on both sides. -/
theorem sameFolds_superMethod (hcovers : Covers C.visits C.depths) {ref : Ref} {method : Mark}
    (hv : C.visits ⟨.expr (.super ref method), r⟩) (hplaced : Placed marks r.shapes) :
    SameFolds C F marks (superMethod ref method) (superMethod ref method) := by
  refine (sameFolds_superTarget hcovers hv hplaced).next fun (parent, receiver) => ?_
  have hfound : Folds C F marks (fun F' => Option.Rel (Closure.Folds C.Fits F' [false]))
      (query (·.findMethod? parent method.lexeme)) (query (·.findMethod? parent method.lexeme)) :=
    folds_query fun _ hs => hs.findMethod? parent method.lexeme
  refine hfound.bind fun {F' found found'} _ hmethod => ?_
  cases hmethod with
  | none => exact folds_fault _ method.line
  | some hmethod => exact sameFolds_boundMethod hmethod receiver

/-- A property is the same on both sides. -/
theorem sameFolds_property (object : Value) (name : Mark) :
    SameFolds C F marks (property object name) (property object name) := by
  cases object with
  | «instance» id =>
    have hfound : Folds C F marks
        (fun F' => Option.Rel (Store.Property.Corresponds (Closure.Folds C.Fits F' [false])))
        (query (·.property? id name.lexeme)) (query (·.property? id name.lexeme)) :=
      folds_query fun _ hs => hs.property? id name.lexeme
    refine hfound.bind fun {F' found found'} _ hproperty => ?_
    cases hproperty with
    | none => exact folds_fault _ name.line
    | some hproperty =>
      cases hproperty with
      | field value => exact sameFolds_pure value
      | method hmethod => exact sameFolds_boundMethod hmethod id
  | _ => exact folds_fault _ name.line

/-- A closure is made where its code is visited. -/
theorem sameFolds_closure (name : Option String) {code : Lambda} {role : FunctionRole}
    (hv : C.visits ⟨.code role code, r⟩) (hplaced : Placed marks r.shapes) :
    SameFolds C F marks (closure name code) (closure name code) := by
  refine folds_chain.bind fun {F' chain chain'} _ hline => ?_
  have hmade : SameFolds C F' marks (allocate (·.newFunction ⟨name, code, chain, false⟩))
      (allocate (·.newFunction ⟨name, code, chain', false⟩)) :=
    folds_allocate fun {F'' _ _} hF hs => ⟨F'', List.prefix_refl _,
      hs.newFunction ⟨rfl, rfl, rfl, marks, hline.mono hF, role, r, hv, hplaced, nofun⟩⟩
  exact hmade.next fun _ => sameFolds_pure _

/-- Tables of methods that are alike, name by name. -/
def TableFolds (C : Course) (F : Folding) (t t' : Table Closure) : Prop :=
  ∀ name, Option.Rel (Closure.Folds C.Fits F [false]) (t.find? name) (t'.find? name)

/-- Methods of one class that were made on both sides fold. -/
theorem TableFolds.methodsMade {methods : List Definition} {chain chain' : Chain}
    (hfits : ∀ method ∈ methods, ∀ initializer, C.Fits method.code initializer (false :: marks))
    (hline : F.InLine marks chain chain') :
    TableFolds C F (methodsMade chain methods) (methodsMade chain' methods) := by
  let entry (chain : Chain) (m : Definition) : String × Closure :=
    (m.name.lexeme, ⟨some m.name.lexeme, m.code, chain, m.name.lexeme = initializerName⟩)
  suffices hfrom : ∀ t t', TableFolds C F t t' → TableFolds C F
      ((methods.map (entry chain)).foldl (fun t (name, c) => t.insert name c) t)
      ((methods.map (entry chain')).foldl (fun t (name, c) => t.insert name c) t') from
    hfrom .empty .empty fun _ => .none
  induction methods with
  | nil => exact fun _ _ ht => ht
  | cons method rest ih =>
    obtain ⟨hfirst, hrest⟩ := List.forall_mem_cons.mp hfits
    exact fun t t' ht => ih hrest _ _
      (Table.rel_insert ht method.name.lexeme ⟨rfl, rfl, rfl, marks, hline, hfirst _⟩)

/-- The methods of a class fold where their code fits. -/
theorem folds_methodTable {methods : List Definition}
    (hfits : ∀ method ∈ methods, ∀ initializer, C.Fits method.code initializer (false :: marks)) :
    Folds C F marks (TableFolds C) (methodTable methods) (methodTable methods) :=
  folds_chain.bind fun _ hline => folds_pure fun hF => .methodsMade hfits (hline.mono hF)

/-- The marks of the scopes in which the methods of a class are, but for the scope of `this`. -/
def aroundMethods (parent : Option Nat) (marks : List Bool) : List Bool :=
  (parent.map fun _ => false).toList ++ marks

/-- The methods of a class with a superclass are made inside a frame that is on both sides. -/
theorem folds_methodsInside {methods : List Definition} {parent : Option Nat}
    (hfits : ∀ method ∈ methods, ∀ initializer,
      C.Fits method.code initializer (false :: aroundMethods parent marks)) :
    Folds C F marks (TableFolds C) (methodsInside parent methods) (methodsInside parent methods) := by
  cases parent with
  | none => exact folds_methodTable hfits
  | some id =>
    refine folds_chain.bind fun {F₁ outer outer'} _ hline => ?_
    refine (folds_newFrame .super _ _).bind fun {F₂ frame frame'} hF hframe => ?_
    have hinside : Folds C F₂ (false :: marks) (TableFolds C)
        (do define "super" (.class id); methodTable methods)
        (do define "super" (.class id); methodTable methods) :=
      (sameFolds_define rfl "super" _).next fun _ => folds_methodTable hfits
    exact hinside.inChain (.frame hframe (hline.mono hF))

section Classes

variable (hcovers : Covers C.visits C.depths) {name : Mark} {superclassRef : Option Ref}
  {methods : List Definition} (hv : C.visits ⟨.stmt (.class name superclassRef methods), r⟩)
  (hplaced : Placed marks r.shapes) (hmark : marks.headD false = false)
include hcovers hv hplaced hmark

/-- The methods of a class are visited inside the scopes of its `super` and its `this`. -/
theorem fits_methods {parent : Option Nat} (hparent : parent.isSome = superclassRef.isSome) :
    ∀ method ∈ methods, ∀ initializer,
      C.Fits method.code initializer (false :: aroundMethods parent marks) := by
  intro method hmem initializer
  have hmethods : C.visits ⟨.methods methods, r.enterMethods name superclassRef methods⟩ := by
    refine hcovers.part hv ?_
    cases superclassRef <;> simp [Visit.parts, Stmt.parts]
  obtain ⟨role, r', hvisit, hshapes⟩ := hcovers.method hmethods hmem
  refine ⟨role, r', hvisit, ?_, fun _ => rfl⟩
  rw [hshapes, Resolver.shapes_enterMethods]
  have houter : Placed marks (r.shapes.modifyHead (·.settle [name.lexeme])) :=
    hplaced.modifyHead hmark _
  cases superclassRef with
  | none =>
    obtain rfl : parent = none := by simpa using hparent
    exact houter.cons _
  | some ref =>
    obtain ⟨id, rfl⟩ := Option.isSome_iff_exists.mp hparent
    exact (houter.cons _).cons _

/-- A class is made on both sides alike. -/
theorem sameFolds_makeBelow {parent : Option Nat} (hparent : parent.isSome = superclassRef.isSome) :
    SameFolds C F marks (makeBelow parent name methods) (makeBelow parent name methods) := by
  refine (sameFolds_define hmark name.lexeme .nil).next fun _ => ?_
  have hfits := fits_methods hcovers hv hplaced hmark hparent
  refine (folds_methodsInside hfits).bind fun {F₁ table table'} _ htable => ?_
  have habove : SameFolds C F₁ marks (query (ancestors parent)) (query (ancestors parent)) :=
    folds_query fun _ hs => hs.ancestors parent
  refine habove.next fun above => ?_
  exact folds_allocate fun {F₂ _ _} hF hs => ⟨F₂, List.prefix_refl _,
    hs.newClass ⟨rfl, rfl, fun name => Option.Rel.mono (.mono · hF) (htable name)⟩⟩

variable (heval : EvalFolds C eval)
include heval

/-- A class is made on both sides alike, below the superclass that its name stands for. -/
theorem sameFolds_makeClass :
    SameFolds C F marks (makeClass eval name superclassRef methods)
      (makeClass eval name superclassRef methods) := by
  cases superclassRef with
  | none =>
    rw [makeClass_none]
    exact sameFolds_makeBelow hcovers hv hplaced hmark rfl
  | some ref =>
    have hparent : C.visits ⟨.superclass name ref, r⟩ :=
      hcovers.part hv (by simp [Visit.parts, Stmt.parts])
    have hsuperclass : SameFolds C F marks (superclass eval ref) (superclass eval ref) := by
      refine (heval hparent rfl hplaced).next fun value => ?_
      cases value with
      | «class» id => exact sameFolds_pure id
      | _ => exact folds_fault _ ref.mark.line
    rw [makeClass_some]
    exact hsuperclass.next fun id => sameFolds_makeBelow hcovers hv hplaced hmark rfl

/-- The name of a class that has been made is in the innermost frame, where an assignment looks first. -/
theorem sameFolds_declareClass (hkeeps : ∀ e, (eval e).Keeps []) :
    SameFolds C F marks (declareClass eval name superclassRef methods)
      (declareClass eval name superclassRef methods) := by
  refine ⟨fun {F' m m'} hF hm => ?_⟩
  have hmatch := (sameFolds_makeClass (F := F) hcovers hv hplaced hmark heval).step hF hm
  unfold declareClass
  rw [bind_apply, bind_apply]
  generalize hrun : makeClass eval name superclassRef methods m = result at hmatch
  generalize hrun' : makeClass eval name superclassRef methods m' = result' at hmatch
  cases hmatch with
  | error hF₁ hm₁ => exact .error hF₁ hm₁
  | @ok F₁ id _ m₁ m₁' hF₁ hid hm₁ =>
    subst hid
    obtain ⟨frame, rest, frame', rest', hchain, hchain', hkept⟩ := hm.line.head
    have hhead : m.chain.head? = some frame := by rw [hchain]; rfl
    obtain ⟨hsame, hhas⟩ := has_of_makeClass hkeeps hrun hhead (hm.store.isSome_kind? (hkept hmark))
    have hsame' := ((keeps_makeClass (fun e => (hkeeps e).weaken) _ _).ok hrun').chain
    have hhas' : m₁'.store.Has frame' name.lexeme :=
      (congrArg Option.isSome (hm₁.store.slot? ((hkept hmark).mono hF₁) _)).trans hhas
    have howner : m₁.store.owner? m₁.chain name.lexeme = some frame := by
      rw [hsame, hchain]
      exact List.find?_cons_of_pos hhas
    have howner' : m₁'.store.owner? m₁'.chain name.lexeme = some frame' := by
      rw [hsame', hchain']
      exact List.find?_cons_of_pos hhas'
    show FoldsTo _ _ _ _ (assignIn (m₁.store.owner? m₁.chain name.lexeme) name (.class _) m₁)
      (assignIn (m₁'.store.owner? m₁'.chain name.lexeme) name (.class _) m₁')
    rw [howner, howner']
    exact (foldsTo_assignIn hm₁ (.some ((hkept hmark).mono hF₁)) name _).earlier hF₁

end Classes

end Run

open Run

section Nodes

variable {eval : Expr → Run Value} {exec : Stmt → Run Completion}
  {enter : Closure → List Value → Nat → Run Value}
  (hcovers : Covers C.visits C.depths) (heval : EvalFolds C eval)
include hcovers heval

/-- One expression comes to the same if its parts do. -/
theorem evalNode_folds (henter : EnterFolds C enter) {v : Visit} {e : Expr} (hv : C.visits v)
    (he : v.node.expression? = some e) (hplaced : Placed marks v.before.shapes) :
    SameFolds C F marks (evalNode eval enter e) (evalNode eval enter e) := by
  have hrecorded {ref : Ref} (href : e.ref? = some ref) :=
    (hcovers.sound hv).recorded_before he href
  obtain ⟨node, r⟩ := v
  cases node with
  | superclass name parent =>
    obtain rfl := Option.some.inj he
    exact sameFolds_read hplaced (hrecorded rfl)
  | expr e' =>
    obtain rfl := Option.some.inj he
    have hpart {w : Visit} (hw : w ∈ e'.parts r) : C.visits w := hcovers.part hv hw
    -- The first part is met where the expression is, and every later one behind those before it.
    have hfirst {part : Expr} (hw : ⟨.expr part, r⟩ ∈ e'.parts r) :
        SameFolds C F marks (eval part) (eval part) :=
      heval (hpart hw) rfl hplaced
    have hsecond (left : Expr) {part : Expr} (hw : ⟨.expr part, left.resolve r⟩ ∈ e'.parts r) :
        SameFolds C F marks (eval part) (eval part) :=
      heval (hpart hw) rfl (hplaced.behindExpr left)
    cases e' with
    | literal value line => exact sameFolds_pure _
    | grouping inner => exact hfirst (by simp [Expr.parts])
    | unary op mark right =>
      exact (hfirst (by simp [Expr.parts])).next fun _ => sameFolds_orFault _ _
    | binary op mark left right =>
      exact (hfirst (by simp [Expr.parts])).next fun _ =>
        (hsecond left (by simp [Expr.parts])).next fun _ => sameFolds_orFault _ _
    | unpaired op mark right => exact folds_fault _ _
    | logical op mark left right =>
      refine (hfirst (by simp [Expr.parts])).next fun value => ?_
      split
      · exact sameFolds_pure value
      · exact hsecond left (by simp [Expr.parts])
    | conditional condition yes no =>
      refine (hfirst (by simp [Expr.parts])).next fun value => ?_
      split
      · exact hsecond condition (by simp [Expr.parts])
      · have hno : C.visits ⟨.expr no, yes.resolve (condition.resolve r)⟩ :=
          hpart (by simp [Expr.parts])
        exact heval hno rfl ((hplaced.behindExpr condition).behindExpr yes)
    | comma left right =>
      exact (hfirst (by simp [Expr.parts])).next fun _ =>
        hsecond left (by simp [Expr.parts])
    | name ref => exact sameFolds_read hplaced (hrecorded rfl)
    | assign ref value =>
      exact (hfirst (by simp [Expr.parts])).next fun value =>
        (sameFolds_assign hplaced (hrecorded rfl) value).next fun _ => sameFolds_pure value
    | call callee paren arguments =>
      exact sameFolds_callExpression hcovers heval henter paren (hpart (by simp [Expr.parts]))
        (hpart (by simp [Expr.parts])) hplaced
    | get object name =>
      exact (hfirst (by simp [Expr.parts])).next fun value => sameFolds_property value name
    | set object name value =>
      refine (hsecond value (by simp [Expr.parts])).next fun target => ?_
      cases target with
      | «instance» id =>
        exact (hfirst (by simp [Expr.parts])).next fun value =>
          (sameFolds_setField id _ value).next fun _ => sameFolds_pure value
      | _ => exact folds_fault _ _
    | this ref => exact sameFolds_read hplaced (hrecorded rfl)
    | super ref method => exact sameFolds_superMethod hcovers hv hplaced
    | lambda keyword code =>
      have hcode : C.visits ⟨.code .lambda code, r⟩ := hpart (by simp [Expr.parts])
      exact sameFolds_closure none hcode hplaced
  | _ => cases he

/-- One statement comes to the same if its parts do. In the frame of a round none declares a name.
    -/
theorem execNode_folds (hkeeps : ∀ e, (eval e).Keeps []) (hexec : ExecFolds C exec) (rounds : Nat)
    {s : Stmt} (hv : C.visits ⟨.stmt s, r⟩) (hplaced : Placed marks r.shapes)
    (hround : marks.headD false = true → s.declares = []) :
    SameFolds C F marks (execNode rounds eval exec s) (execNode rounds eval exec s) := by
  have hproper := (hcovers.sound hv).proper
  have hpart {w : Visit} (hw : w ∈ s.parts r) : C.visits w := hcovers.part hv hw
  -- Where a statement declares a name, the innermost frame is no frame of a round.
  have hhead (hdeclares : s.declares ≠ []) : marks.headD false = false :=
    (Bool.eq_false_or_eq_true _).resolve_left fun h => hdeclares (hround h)
  have hfirst {part : Expr} (hw : ⟨.expr part, r⟩ ∈ s.parts r) :
      SameFolds C F marks (eval part) (eval part) :=
    heval (hpart hw) rfl hplaced
  cases s with
  | expression value =>
    exact (hfirst (by simp [Stmt.parts])).next fun _ => sameFolds_pure _
  | print keyword value =>
    exact (hfirst (by simp [Stmt.parts])).next fun value =>
      (sameFolds_print value _).next fun _ => sameFolds_pure _
  | var name initial =>
    have hmark := hhead (by simp [Stmt.declares])
    cases initial with
    | none => exact (sameFolds_declare hmark _).next fun _ => sameFolds_pure _
    | some initial =>
      have hinitial : C.visits ⟨.expr initial, r.declare name .declared⟩ :=
        hpart (by simp [Stmt.parts])
      have hinside : Placed marks (r.declare name .declared).shapes := by
        rw [Resolver.shapes_declare]
        exact hplaced.modifyHead hmark _
      exact (heval hinitial rfl hinside).next fun value =>
        (sameFolds_define hmark _ value).next fun _ => sameFolds_pure _
  | function definition =>
    obtain ⟨name, code⟩ := definition
    have hmark := hhead (by simp [Stmt.declares])
    have hcode : C.visits ⟨.code .function code, r.declareAndDefine name .declared⟩ :=
      hpart (by simp [Stmt.parts])
    have hinside : Placed marks (r.declareAndDefine name .declared).shapes := by
      rw [Resolver.shapes_declareAndDefine]
      exact hplaced.modifyHead hmark _
    exact (sameFolds_closure _ hcode hinside).next fun f =>
      (sameFolds_define hmark _ f).next fun _ => sameFolds_pure _
  | «class» name superclassRef methods =>
    have hmark := hhead (by simp [Stmt.declares])
    exact (sameFolds_declareClass hcovers hv hplaced hmark heval hkeeps).next fun _ => sameFolds_pure _
  | block body => exact sameFolds_block hcovers hexec (hpart (by simp [Stmt.parts])) hplaced
  | «if» condition yes no =>
    have hyes : C.visits ⟨.stmt yes, condition.resolve r⟩ := hpart (by cases no <;> simp [Stmt.parts])
    have hinside := hplaced.behindExpr condition
    cases no with
    | none =>
      obtain ⟨_, _, hdeclares⟩ := hproper
      refine (hfirst (by simp [Stmt.parts])).next fun value => ?_
      split
      · exact hexec hyes hinside fun _ => hdeclares
      · exact sameFolds_pure _
    | some no =>
      have hno : C.visits ⟨.stmt no, yes.resolve (condition.resolve r)⟩ :=
        hpart (by simp [Stmt.parts])
      obtain ⟨_, _, _, hyesDeclares, hnoDeclares⟩ := hproper
      have hbetween : Placed marks (yes.resolve (condition.resolve r)).shapes :=
        hinside.behindStmt fun _ => hyesDeclares
      refine (hfirst (by simp [Stmt.parts])).next fun value => ?_
      split
      · exact hexec hyes hinside fun _ => hyesDeclares
      · exact hexec hno hbetween fun _ => hnoDeclares
  | «while» condition body =>
    obtain ⟨_, _, hdeclares⟩ := hproper
    have hbody : C.visits ⟨.stmt body,
        { condition.resolve r with loops := (condition.resolve r).loops + 1 }⟩ :=
      hpart (by simp [Stmt.parts])
    exact sameFolds_loop (hfirst (by simp [Stmt.parts]))
      (hexec hbody (hplaced.behindExpr condition) fun _ => hdeclares) rounds
  | «return» keyword value =>
    cases value with
    | none => exact sameFolds_pure _
    | some value =>
      have hvalue : C.visits ⟨.expr value, r.checkReturn keyword true⟩ :=
        hpart (by simp [Stmt.parts])
      have hinside : Placed marks (r.checkReturn keyword true).shapes := by
        rwa [(Resolver.onward_checkReturn r keyword true).shapes_eq]
      exact (heval hvalue rfl hinside).next fun _ => sameFolds_pure _
  | «break» keyword => exact sameFolds_pure _

end Nodes

/-- Evaluation comes to the same with the frames of rounds and without. The induction is on the
    fuel. -/
theorem eval_exec_folds (hcovers : Covers C.visits C.depths) (fuel : Nat) :
    EvalFolds C (eval fuel) ∧ ExecFolds C (exec fuel) := by
  induction fuel with
  | zero => exact ⟨fun _ _ _ => folds_outOfFuel, fun _ _ _ => folds_outOfFuel⟩
  | succ fuel ih =>
    obtain ⟨heval, hexec⟩ := ih
    exact ⟨evalNode_folds hcovers heval
        fun hc arguments line => sameFolds_callClosure hcovers hexec hc arguments line,
      execNode_folds hcovers heval (eval_keeps fuel) hexec fuel⟩

end Lox
