import Lox.Proofs.Alignment.Evaluation
import Lox.Proofs.Renaming.Run
import Lox.Proofs.Table

namespace Lox

namespace Run

variable {ρ : Renaming} {F : World} {marks : List Bool} {eval : Expr → Run Value}
  {exec : Stmt → Run Completion} {enter : Closure → List Value → Nat → Run Value}

/-- Every expression is evaluated to what any renaming of it is. -/
abbrev EvalAlike (ρ : Renaming) (eval : Expr → Run Value) : Prop :=
  ∀ {F marks e e'}, e.Renames ρ marks e' → SameAlike ρ F marks (eval e) (eval e')

/-- Every statement is executed as any renaming of it is. -/
abbrev ExecAlike (ρ : Renaming) (exec : Stmt → Run Completion) : Prop :=
  ∀ {F marks s s'}, s.Renames ρ marks s' → SameAlike ρ F marks (exec s) (exec s')

/-- Functions that are alike are entered alike, wherever they are called. -/
abbrev EnterAlike (ρ : Renaming) (enter : Closure → List Value → Nat → Run Value) : Prop :=
  ∀ {F marks c c'}, c.Alike ρ F [] c' → ∀ arguments line,
    SameAlike ρ F marks (enter c arguments line) (enter c' arguments line)

section Statements

variable (hexec : ExecAlike ρ exec)
include hexec

/-- Statements in a row and a renaming of them come to the same. -/
theorem same_sequence {body body' : List Stmt} (h : Stmt.RenamesAll ρ marks body body') :
    SameAlike ρ F marks (sequence exec body) (sequence exec body') := by
  induction body generalizing body' with
  | nil =>
    cases h
    exact same_pure _
  | cons s rest ih =>
    cases h with
    | cons hs hrest =>
      refine Alike.next (hexec hs) fun completion => ?_
      cases completion with
      | normal => exact ih hrest
      | _ => exact same_pure _

/-- A block comes to the same, with the variable renamed in its scope or not. -/
theorem same_block {renamed : Bool} {body body' : List Stmt}
    (h : Stmt.RenamesAll ρ (renamed :: marks) body body') :
    SameAlike ρ F marks (block exec body) (block exec body') := by
  refine alike_chain.bind fun {F₁ outer outer'} _ houter => ?_
  obtain ⟨rfl, hline⟩ := houter
  refine (alike_newFrame renamed .block _ _).bind fun {F₂ frame frame'} hF hframe => ?_
  obtain ⟨rfl, hframe⟩ := hframe
  exact (same_sequence hexec h).inChain ((hline.mono hF).cons hframe)

end Statements

/-- A loop comes to the same round by round. -/
theorem same_loop {condition condition' : Run Value} {body body' : Run Completion}
    (hcondition : SameAlike ρ F marks condition condition') (hbody : SameAlike ρ F marks body body')
    (rounds : Nat) : SameAlike ρ F marks (loop condition body rounds) (loop condition' body' rounds) := by
  induction rounds with
  | zero => exact alike_outOfFuel
  | succ rounds ih =>
    refine hcondition.next fun value => ?_
    split
    · refine hbody.next fun completion => ?_
      cases completion with
      | normal => exact ih
      | _ => exact same_pure _
    · exact same_pure _

theorem same_callNative (f : Native) (arguments : List Value) (line : Nat) :
    SameAlike ρ F marks (callNative f arguments line) (callNative f arguments line) := by
  cases f with
  | clock => exact same_readClock
  | hosted name arity => exact same_callHost name arguments line

/-- Parameters get the same arguments under the names that they have. -/
theorem same_defineParams {params : List Mark}
    (hfree : ∀ param ∈ params, ρ.Free (marks.headD false) param.lexeme) (arguments : List Value) :
    SameAlike ρ F marks (defineParams params arguments)
      (defineParams (params.map (ρ.mark (marks.headD false))) arguments) := by
  induction params generalizing arguments with
  | nil => exact same_pure _
  | cons param params ih =>
    cases arguments with
    | nil => exact same_pure _
    | cons argument arguments =>
      obtain ⟨hparam, hparams⟩ := List.forall_mem_cons.mp hfree
      exact (alike_define hparam argument).next fun _ => ih hparams arguments

section Bodies

variable (hexec : ExecAlike ρ exec)
include hexec

/-- The bodies of alike closures come to the same. -/
theorem same_runBody {c c' : Closure} (hc : c.Alike ρ F [] c') (arguments : List Value) :
    SameAlike ρ F marks (runBody exec c arguments) (runBody exec c' arguments) := by
  obtain ⟨name, code, chain, initializer⟩ := c
  obtain ⟨name', code', chain', initializer'⟩ := c'
  obtain rfl : chain' = chain := hc.chain
  obtain ⟨around, hline, hcode⟩ := hc.code
  cases hcode with
  | code renamed hparams hbody =>
    refine (alike_newFrame renamed .function _ _).bind fun {F' frame frame'} hF hframe => ?_
    obtain ⟨rfl, hframe⟩ := hframe
    have hinside := (hline.mono hF).cons hframe
    exact Alike.inChain ((same_defineParams hparams arguments).next fun _ => same_sequence hexec hbody)
      hinside

/-- An initializer finds its instance under a name of the language's own. -/
theorem same_callClosure {c c' : Closure} (hc : c.Alike ρ F [] c') (arguments : List Value) (line : Nat) :
    SameAlike ρ F marks (callClosure exec c arguments line) (callClosure exec c' arguments line) := by
  refine (same_runBody hexec hc arguments).bind fun {F' completion completion'} hF hsame => ?_
  subst hsame
  rw [hc.initializer]
  split
  · have hthis : SameAlike ρ F' marks (query (·.getAt? c.chain 0 "this"))
        (query (·.getAt? c'.chain 0 "this")) := by
      obtain ⟨around, hline, -⟩ := hc.code
      rw [hc.chain]
      exact alike_query fun hF' hs => hs.getAt?_own (hline.mono (hF.trans hF')) fun hplain => hplain.1 rfl
    refine hthis.next fun value => ?_
    cases value with
    | none => exact alike_fault _ line
    | some value => exact same_pure value
  · exact same_pure _

end Bodies

section Entering

variable (henter : EnterAlike ρ enter)
include henter

/-- Constructions come to the same. -/
theorem same_construct (classId : Nat) (arguments : List Value) (line : Nat) :
    SameAlike ρ F marks (construct enter classId arguments line)
      (construct enter classId arguments line) := by
  have hmade : SameAlike ρ F marks (allocate (·.newInstance classId)) (allocate (·.newInstance classId)) :=
    alike_allocate fun {F' _ _} _ hs => ⟨F', List.prefix_refl _, hs.newInstance classId⟩
  refine hmade.next fun instanceId => ?_
  have hinit : Alike ρ F marks (fun F' => Option.Rel (Closure.Alike ρ F' [false]))
      (query (·.initializer? classId)) (query (·.initializer? classId)) :=
    alike_query fun _ hs => hs.initializer? classId
  refine hinit.bind fun {F' method method'} _ hmethod => ?_
  cases hmethod with
  | none => exact same_pure _
  | @some method method' hmethod =>
    have hbound : Alike ρ F' marks (fun F'' => Closure.Alike ρ F'' [])
        (allocate (·.bind method instanceId)) (allocate (·.bind method' instanceId)) :=
      alike_allocate fun {F'' _ _} hF hs =>
        ⟨F'' ++ [false], List.prefix_append _ _, hs.bind (hmethod.mono hF) instanceId⟩
    refine hbound.bind fun {F'' closure closure'} _ hclosure => ?_
    exact (henter hclosure arguments line).next fun _ => same_pure _

/-- Calls of any value come to the same. -/
theorem same_call (callee : Value) (arguments : List Value) (line : Nat) :
    SameAlike ρ F marks (call enter callee arguments line) (call enter callee arguments line) := by
  cases callee with
  | native f => exact same_callNative f arguments line
  | function id =>
    have hfunction : Alike ρ F marks (fun F' => Option.Rel (Closure.Alike ρ F' []))
        (query (·.functions[id]?)) (query (·.functions[id]?)) :=
      alike_query fun _ hs => hs.functions id
    refine hfunction.bind fun {F' c c'} _ hc => ?_
    cases hc with
    | none => exact alike_fault _ line
    | some hc => exact henter hc arguments line
  | «class» id => exact same_construct henter id arguments line
  | _ => exact alike_fault _ line

theorem same_callChecked (callee : Value) (arguments : List Value) (line : Nat) :
    SameAlike ρ F marks (callChecked enter callee arguments line)
      (callChecked enter callee arguments line) := by
  have harity : SameAlike ρ F marks (query (·.arity? callee)) (query (·.arity? callee)) :=
    alike_query fun _ hs => hs.arity? callee
  refine harity.next fun arity => ?_
  cases arity with
  | none => exact alike_fault _ line
  | some arity =>
    dsimp only
    split
    · exact alike_fault _ line
    · refine same_exhausted.next fun full => ?_
      split
      · exact alike_fault _ line
      · exact (same_call henter callee arguments line).counted

end Entering

section Expressions

variable (heval : EvalAlike ρ eval)
include heval

/-- Expressions in a row and a renaming of them come to the same. -/
theorem same_all {es es' : List Expr} (h : Expr.RenamesAll ρ marks es es') :
    SameAlike ρ F marks (all eval es) (all eval es') := by
  induction es generalizing es' with
  | nil =>
    cases h
    exact same_pure _
  | cons e rest ih =>
    cases h with
    | cons he hrest =>
      exact (heval he).next fun _ => (ih hrest).next fun _ => same_pure _

/-- Call expressions and a renaming of them come to the same. -/
theorem same_callExpression
    (henter : EnterAlike ρ enter)
    {callee callee' : Expr} {paren : Mark} {arguments arguments' : List Expr}
    (hcallee : callee.Renames ρ marks callee') (harguments : Expr.RenamesAll ρ marks arguments arguments') :
    SameAlike ρ F marks (callExpression enter eval callee paren arguments)
      (callExpression enter eval callee' paren arguments') := by
  refine (heval hcallee).next fun f => ?_
  split
  · exact (same_all heval harguments).next fun values => same_callChecked henter f values paren.line
  · exact alike_fault _ paren.line

end Expressions

/-- The class and the instance of a `super` are the same, since nothing is renamed in their frames.
    -/
theorem same_superTarget (ref : Ref) : SameAlike ρ F marks (superTarget ref) (superTarget ref) := by
  refine ⟨fun {F' m m'} _ hm => ?_⟩
  have hsuper (depth : Nat) : m'.store.getAt? m.chain depth "super" = m.store.getAt? m.chain depth "super" :=
    hm.store.getAt?_own hm.line fun hplain => hplain.2 rfl
  have hthis (depth : Nat) : m'.store.getAt? m.chain depth "this" = m.store.getAt? m.chain depth "this" :=
    hm.store.getAt?_own hm.line fun hplain => hplain.1 rfl
  have htarget : m'.superTarget ref = m.superTarget ref := by
    have hdepths : m'.depths = m.depths := by rw [hm.same]
    unfold Machine.superTarget
    simp only [hdepths, hm.chain, hsuper, hthis]
  unfold superTarget
  rw [htarget]
  exact (same_orFault ref.mark.line _).step (List.prefix_refl _) hm

theorem same_boundMethod {c c' : Closure} (hc : c.Alike ρ F [false] c') (instanceId : Nat) :
    SameAlike ρ F marks (allocate (·.boundMethod c instanceId)) (allocate (·.boundMethod c' instanceId)) :=
  alike_allocate fun {F' _ _} hF hs =>
    ⟨F' ++ [false], List.prefix_append _ _, hs.boundMethod (hc.mono hF) instanceId⟩

theorem same_superMethod (ref : Ref) (method : Mark) :
    SameAlike ρ F marks (superMethod ref method) (superMethod ref method) := by
  refine (same_superTarget ref).next fun (parent, receiver) => ?_
  have hfound : Alike ρ F marks (fun F' => Option.Rel (Closure.Alike ρ F' [false]))
      (query (·.findMethod? parent method.lexeme)) (query (·.findMethod? parent method.lexeme)) :=
    alike_query fun _ hs => hs.findMethod? parent method.lexeme
  refine hfound.bind fun {F' found found'} _ hmethod => ?_
  cases hmethod with
  | none => exact alike_fault _ method.line
  | some hmethod => exact same_boundMethod hmethod receiver

/-- A property is the same, since its name is not that of a variable. -/
theorem same_property (object : Value) (name : Mark) :
    SameAlike ρ F marks (property object name) (property object name) := by
  cases object with
  | «instance» id =>
    have hfound : Alike ρ F marks (fun F' => Option.Rel (Store.Property.Alike ρ F'))
        (query (·.property? id name.lexeme)) (query (·.property? id name.lexeme)) :=
      alike_query fun _ hs => hs.property? id name.lexeme
    refine hfound.bind fun {F' found found'} _ hproperty => ?_
    cases hproperty with
    | none => exact alike_fault _ name.line
    | some hproperty =>
      cases hproperty with
      | field value => exact same_pure value
      | method hmethod => exact same_boundMethod hmethod id
  | _ => exact alike_fault _ name.line

theorem same_closure (name : Option String) {code code' : Lambda} (hcode : code.Renames ρ marks code') :
    SameAlike ρ F marks (closure name code) (closure name code') := by
  refine alike_chain.bind fun {F' _ around} _ hchain => ?_
  obtain ⟨rfl, hline⟩ := hchain
  have hmade : SameAlike ρ F' marks (allocate (·.newFunction ⟨name, code, around, false⟩))
      (allocate (·.newFunction ⟨name, code', around, false⟩)) :=
    alike_allocate fun {F'' _ _} hF hs =>
      ⟨F'', List.prefix_refl _, hs.newFunction ⟨rfl, rfl, rfl, marks, hline.mono hF, hcode⟩⟩
  exact hmade.next fun _ => same_pure _

/-- Tables of methods that are alike, name by name. -/
def TableAlike (ρ : Renaming) (F : World) (t t' : Table Closure) : Prop :=
  ∀ name, Option.Rel (Closure.Alike ρ F [false]) (t.find? name) (t'.find? name)

/-- The methods of a class are alike: they are made in frames that are, and keep their names. -/
theorem TableAlike.methodsMade {methods methods' : List Definition} {chain : Chain}
    (h : Definition.RenamesAll ρ (false :: marks) methods methods') (hline : F.InLine marks chain) :
    TableAlike ρ F (methodsMade chain methods) (methodsMade chain methods') := by
  let entry (m : Definition) : String × Closure :=
    (m.name.lexeme, ⟨some m.name.lexeme, m.code, chain, m.name.lexeme = initializerName⟩)
  suffices hfrom : ∀ t t', TableAlike ρ F t t' → TableAlike ρ F
      ((methods.map entry).foldl (fun t (name, c) => t.insert name c) t)
      ((methods'.map entry).foldl (fun t (name, c) => t.insert name c) t') from
    hfrom .empty .empty fun _ => .none
  induction methods generalizing methods' with
  | nil =>
    cases h
    exact fun _ _ ht => ht
  | cons method rest ih =>
    obtain ⟨name, code⟩ := method
    cases h with
    | cons hcode hrest =>
      exact fun t t' ht => ih hrest _ _ (Table.rel_insert ht name.lexeme ⟨rfl, rfl, rfl, marks, hline, hcode⟩)

theorem alike_methodTable {methods methods' : List Definition}
    (h : Definition.RenamesAll ρ (false :: marks) methods methods') :
    Alike ρ F marks (TableAlike ρ) (methodTable methods) (methodTable methods') := by
  refine alike_chain.bind fun {F' _ around} _ hchain => ?_
  obtain ⟨rfl, hline⟩ := hchain
  exact alike_pure fun hF => .methodsMade h (hline.mono hF)

/-- Methods are made inside a frame of the superclass on both sides. -/
theorem alike_methodsInside {superclass : Option Ref} {methods methods' : List Definition}
    (h : Definition.RenamesAll ρ (Renaming.inMethods superclass marks) methods methods') {parent : Option Nat}
    (hparent : parent.isSome = superclass.isSome) :
    Alike ρ F marks (TableAlike ρ) (methodsInside parent methods) (methodsInside parent methods') := by
  cases superclass with
  | none =>
    obtain rfl : parent = none := by simpa using hparent
    exact alike_methodTable h
  | some ref =>
    obtain ⟨id, rfl⟩ := Option.isSome_iff_exists.mp hparent
    refine alike_chain.bind fun {F₁ outer outer'} _ houter => ?_
    obtain ⟨rfl, hline⟩ := houter
    refine (alike_newFrame false .super _ _).bind fun {F₂ frame frame'} hF hframe => ?_
    obtain ⟨rfl, hframe⟩ := hframe
    have hinside : Alike ρ F₂ (false :: marks) (TableAlike ρ)
        (do define "super" (.class id); methodTable methods)
        (do define "super" (.class id); methodTable methods') :=
      (same_define (ρ.apart_false "super") _).next fun _ => alike_methodTable h
    exact hinside.inChain ((hline.mono hF).cons hframe)

theorem same_makeBelow {name : Mark} {superclassRef : Option Ref} {methods methods' : List Definition}
    (hapart : ρ.Apart (marks.headD false) name.lexeme)
    (hmethods : Definition.RenamesAll ρ (Renaming.inMethods superclassRef marks) methods methods')
    {parent : Option Nat} (hparent : parent.isSome = superclassRef.isSome) :
    SameAlike ρ F marks (makeBelow parent name methods) (makeBelow parent name methods') := by
  refine (same_define hapart .nil).next fun _ => ?_
  refine (alike_methodsInside hmethods hparent).bind fun {F₁ table table'} _ htable => ?_
  have habove : SameAlike ρ F₁ marks (query (ancestors parent)) (query (ancestors parent)) :=
    alike_query fun _ hs => hs.ancestors parent
  refine habove.next fun above => ?_
  exact alike_allocate fun {F₂ _ _} hF hs =>
    ⟨F₂, List.prefix_refl _, hs.newClass ⟨rfl, rfl, fun name => Option.Rel.mono (.mono hF) (htable name)⟩⟩

section Classes

variable (heval : EvalAlike ρ eval)
include heval

/-- A superclass is found under the name that its variable has. -/
theorem same_superclass {ref : Ref} (hfree : ρ.Free (ρ.isRenamed marks ref) ref.mark.lexeme) :
    SameAlike ρ F marks (superclass eval ref) (superclass eval (ρ.ref marks ref)) := by
  refine (heval (.name hfree)).next fun value => ?_
  cases value with
  | «class» id => exact same_pure id
  | _ => exact alike_fault _ ref.mark.line

/-- A class comes to the same, under its own name and below the superclass that is found. -/
theorem same_makeClass {name : Mark} {superclassRef : Option Ref} {methods methods' : List Definition}
    (hapart : ρ.Apart (marks.headD false) name.lexeme)
    (hfree : ∀ parent ∈ superclassRef, ρ.Free (ρ.isRenamed marks parent) parent.mark.lexeme)
    (hmethods : Definition.RenamesAll ρ (Renaming.inMethods superclassRef marks) methods methods') :
    SameAlike ρ F marks (makeClass eval name superclassRef methods)
      (makeClass eval name (superclassRef.map (ρ.ref marks)) methods') := by
  cases superclassRef with
  | none =>
    rw [Option.map_none, makeClass_none, makeClass_none]
    exact same_makeBelow hapart hmethods rfl
  | some ref =>
    rw [Option.map_some, makeClass_some, makeClass_some]
    exact (same_superclass heval (hfree ref rfl)).next fun id => same_makeBelow hapart hmethods rfl

/-- The name of a class that has been made is in the innermost frame, where an assignment looks first. -/
theorem same_declareClass (hkeeps : ∀ e, (eval e).Keeps []) {name : Mark} {superclassRef : Option Ref}
    {methods methods' : List Definition} (hapart : ρ.Apart (marks.headD false) name.lexeme)
    (hfree : ∀ parent ∈ superclassRef, ρ.Free (ρ.isRenamed marks parent) parent.mark.lexeme)
    (hmethods : Definition.RenamesAll ρ (Renaming.inMethods superclassRef marks) methods methods') :
    SameAlike ρ F marks (declareClass eval name superclassRef methods)
      (declareClass eval name (superclassRef.map (ρ.ref marks)) methods') := by
  refine ⟨fun {F' m m'} hF hm => ?_⟩
  have hmatch := (same_makeClass heval hapart hfree hmethods).step hF hm
  unfold declareClass
  rw [bind_apply, bind_apply]
  generalize hrun : makeClass eval name superclassRef methods m = r at hmatch
  generalize makeClass eval name (superclassRef.map (ρ.ref marks)) methods' m' = r' at hmatch
  cases hmatch with
  | error hF₁ he hm₁ => exact .error hF₁ he hm₁
  | @ok F₁ _ id m₁ m₁' hF₁ hid hm₁ =>
    subst hid
    -- The class is made before its name is assigned, and the assignment finds the name where it was
    -- declared.
    obtain ⟨frame, rest, hchain, hframe⟩ := hm.line.head
    have hhead : m.chain.head? = some frame := by rw [hchain]; rfl
    obtain ⟨hsame, hhas⟩ := has_of_makeClass hkeeps hrun hhead (hm.store.isSome_kind? hframe)
    have hframe₁ := World.getElem?_mono hF₁ hframe
    have hhas' : m₁'.store.Has frame name.lexeme := by
      have hslot := hm₁.store.isSome_slot? hframe₁ (Renaming.free_of_apart hapart)
      rw [Renaming.name_of_apart hapart] at hslot
      exact hslot.trans hhas
    have howner : m₁.store.owner? m₁.chain name.lexeme = some frame := by
      rw [hsame, hchain]
      exact List.find?_cons_of_pos hhas
    have howner' : m₁'.store.owner? m₁'.chain name.lexeme = some frame := by
      rw [hm₁.chain, hsame, hchain]
      exact List.find?_cons_of_pos hhas'
    have howned : ∀ owner, some frame = some owner → F₁[owner]? = some (marks.headD false) := by
      intro owner hsome
      rwa [← Option.some.inj hsome]
    have hassigned := matches_assignIn hm₁ howned (Renaming.free_of_apart hapart) (.class id)
    rw [Renaming.mark_of_apart hapart] at hassigned
    show Matches _ _ _ _ (assignIn (m₁.store.owner? m₁.chain name.lexeme) name (.class id) m₁)
      (assignIn (m₁'.store.owner? m₁'.chain name.lexeme) name (.class id) m₁')
    rw [howner, howner']
    exact hassigned.earlier hF₁

end Classes

end Run

open Run

section Nodes

variable {ρ : Renaming} {F : World} {marks : List Bool} {eval : Expr → Run Value}
  {exec : Stmt → Run Completion} {enter : Closure → List Value → Nat → Run Value}
  (heval : EvalAlike ρ eval)
include heval

/-- One expression comes to the same if its parts do. The cases are those of the renaming. -/
theorem evalNode_alike
    (henter : EnterAlike ρ enter)
    {e e' : Expr} (h : e.Renames ρ marks e') :
    SameAlike ρ F marks (evalNode eval enter e) (evalNode eval enter e') := by
  cases h with
  | literal => exact same_pure _
  | grouping hinner => exact heval hinner
  | unary hright => exact (heval hright).next fun _ => same_orFault _ _
  | binary hleft hright =>
    exact (heval hleft).next fun _ => (heval hright).next fun _ => same_orFault _ _
  | unpaired hright => exact alike_fault _ _
  | logical hleft hright =>
    refine (heval hleft).next fun value => ?_
    split
    · exact same_pure value
    · exact heval hright
  | conditional hcondition hyes hno =>
    refine (heval hcondition).next fun value => ?_
    split
    · exact heval hyes
    · exact heval hno
  | comma hleft hright => exact (heval hleft).next fun _ => heval hright
  | name hfree => exact alike_read hfree
  | assign hfree hvalue =>
    exact (heval hvalue).next fun value => (alike_assign hfree value).next fun _ => same_pure value
  | call hcallee harguments => exact same_callExpression heval henter hcallee harguments
  | get hobject => exact (heval hobject).next fun value => same_property value _
  | set hobject hvalue =>
    refine (heval hobject).next fun target => ?_
    cases target with
    | «instance» id =>
      exact (heval hvalue).next fun value => (same_setField id _ value).next fun _ => same_pure value
    | _ => exact alike_fault _ _
  | this hapart =>
    have hread := alike_read (F := F) (Renaming.free_of_apart hapart)
    rwa [Renaming.ref_of_apart hapart] at hread
  | super => exact same_superMethod _ _
  | lambda hcode => exact same_closure none hcode

/-- One statement comes to the same if its parts do. -/
theorem execNode_alike (hkeeps : ∀ e, (eval e).Keeps [])
    (hexec : ExecAlike ρ exec) (rounds : Nat)
    {s s' : Stmt} (h : s.Renames ρ marks s') :
    SameAlike ρ F marks (execNode rounds eval exec s) (execNode rounds eval exec s') := by
  cases h with
  | expression hvalue => exact (heval hvalue).next fun _ => same_pure _
  | print hvalue =>
    exact (heval hvalue).next fun value => (same_print value _).next fun _ => same_pure _
  | declare hfree => exact (alike_declare hfree).next fun _ => same_pure _
  | var hfree hinitial =>
    exact (heval hinitial).next fun value => (alike_define hfree value).next fun _ => same_pure _
  | function hapart hcode =>
    exact (same_closure _ hcode).next fun f => (same_define hapart f).next fun _ => same_pure _
  | «class» hapart hfree hmethods =>
    exact (same_declareClass heval hkeeps hapart hfree hmethods).next fun _ => same_pure _
  | block renamed hbody => exact same_block hexec hbody
  | when hcondition hyes =>
    refine (heval hcondition).next fun value => ?_
    split
    · exact hexec hyes
    · exact same_pure _
  | «if» hcondition hyes hno =>
    refine (heval hcondition).next fun value => ?_
    split
    · exact hexec hyes
    · exact hexec hno
  | «while» hcondition hbody => exact same_loop (heval hcondition) (hexec hbody) rounds
  | leave => exact same_pure _
  | «return» hvalue => exact (heval hvalue).next fun _ => same_pure _
  | «break» => exact same_pure _

end Nodes

/-- Evaluation of code and of a renaming of it come to the same. The induction is on the fuel. -/
theorem eval_exec_alike (ρ : Renaming) (fuel : Nat) :
    EvalAlike ρ (eval fuel) ∧ ExecAlike ρ (exec fuel) := by
  induction fuel with
  | zero => exact ⟨fun _ => alike_outOfFuel, fun _ => alike_outOfFuel⟩
  | succ fuel ih =>
    obtain ⟨heval, hexec⟩ := ih
    exact ⟨evalNode_alike heval fun hc arguments line => same_callClosure hexec hc arguments line,
      execNode_alike heval (eval_keeps fuel) hexec fuel⟩

end Lox
