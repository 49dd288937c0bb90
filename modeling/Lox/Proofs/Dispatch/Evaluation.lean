import Lox.Proofs.Alignment.Evaluation
import Lox.Proofs.Dispatch.Call
import Lox.Session

namespace Lox

open Run

variable {final : Store} {alarm : Halt} {eval' eval : Expr → Run Value}
  {exec' exec : Stmt → Run Completion} {enter' enter : Closure → List Value → Nat → Run Value}
  {m : Machine}

/-- What an operator makes of an operand is no object. -/
theorem UnaryOp.apply_live {op : UnaryOp} {value result : Value} (h : op.apply value = .ok result)
    (s : Store) : result.Live s := by
  unfold UnaryOp.apply at h
  split at h
  · cases h
    trivial
  · cases h
  · cases h
    trivial

/-- What an operator makes of two operands is no object. -/
theorem BinaryOp.apply_live {op : BinaryOp} {left right result : Value}
    (h : op.apply left right = .ok result) (s : Store) : result.Live s := by
  have hnumbers {a b : Float} (h : op.applyNumbers a b = .ok result) : result.Live s := by
    unfold BinaryOp.applyNumbers at h
    split at h <;> try split at h
    all_goals cases h
    all_goals trivial
  unfold BinaryOp.apply at h
  split at h
  · cases h
    trivial
  · cases h
    trivial
  · cases h
    trivial
  · exact hnumbers h
  · cases h
  · cases h

namespace Run

/-- A value that is found under a name is there. -/
theorem live_of_lookUp {ref : Ref} {value : Value} (hm : m.store.Rooted)
    (h : m.lookUp ref = .ok value) : value.Live m.store := by
  unfold Machine.lookUp at h
  dsimp only at h
  split at h
  · exact hm.get h
  · split at h
    · cases h
    · rename_i hget
      cases h
      exact hm.getAt? hget

theorem tracks_read (ref : Ref) (hm : m.store.Rooted) :
    Tracks final alarm (read ref) (read ref) m fun value m' => value.Live m'.store := by
  have h : Tracks final alarm (orFault ref.mark.line (m.lookUp ref))
      (orFault ref.mark.line (m.lookUp ref)) m fun value m' => value.Live m'.store :=
    tracks_orFault ref.mark.line hm fun _ => live_of_lookUp hm
  exact tracks_self h.advances h.ok

/-- An assignment gives a name a value that is there. -/
theorem tracks_assign {ref : Ref} {value : Value} (hm : m.store.Rooted) (hplain : ref.mark.Plain)
    (hlive : value.Live m.store) :
    Tracks final alarm (assign ref value) (assign ref value) m := by
  have h : Tracks final alarm (assignIn (m.owner? ref) ref.mark value)
      (assignIn (m.owner? ref) ref.mark value) m := tracks_assignIn _ hm hplain hlive
  exact tracks_self h.advances fun _ => trivial

theorem live_boundMethod (s : Store) (method : Closure) (instanceId : Nat) :
    (s.boundMethod method instanceId).1.Live (s.boundMethod method instanceId).2 :=
  ⟨(s.bind method instanceId).1, Array.getElem?_push_size⟩

/-- A method of a class in the store is bound for an instance in the store. -/
theorem tracks_boundMethod {classId instanceId : Nat} {name : String} {method : Closure}
    (hm : m.store.Rooted) (howns : m.store.Owns classId name method)
    (hlive : (Value.instance instanceId).Live m.store) :
    Tracks final alarm (allocate (·.boundMethod method instanceId))
      (allocate (·.boundMethod method instanceId)) m fun value m' => value.Live m'.store :=
  tracks_allocate (hm.boundMethod howns hlive) (Store.secures_boundMethod _ method instanceId)
    (live_boundMethod m.store method instanceId)

/-- A value that is found in a field is there. -/
theorem live_of_property? {s : Store} (hs : s.Rooted) {instanceId : Nat} {name : String}
    {value : Value} (h : s.property? instanceId name = some (.field value)) : value.Live s := by
  obtain ⟨i, hi, hproperty⟩ := Option.bind_eq_some_iff.mp h
  simp only [Option.orElse_eq_orElse, Option.orElse_eq_or, Option.or_eq_some_iff] at hproperty
  rcases hproperty with hfield | ⟨_, hmethod⟩
  · obtain ⟨found, hfound, hsame⟩ := Option.map_eq_some_iff.mp hfield
    cases hsame
    exact hs.fields hi hfound
  · obtain ⟨found, _, hmethod⟩ := Option.map_eq_some_iff.mp hmethod
    cases hmethod

/-- A property tracks: what is found is a field's value or a method of a class in the store. -/
theorem tracks_property {object : Value} (name : Mark) (hm : m.store.Rooted)
    (hlive : object.Live m.store) :
    Tracks final alarm (property object name) (property object name) m
      fun value m' => value.Live m'.store := by
  cases object with
  | «instance» id =>
    refine .query hm ?_
    cases hfind : m.store.property? id name.lexeme with
    | none => exact tracks_fault _ name.line hm
    | some found =>
      cases found with
      | field value => exact tracks_pure hm (live_of_property? hm hfind)
      | method found =>
        obtain ⟨owner, howns⟩ := Store.owns_of_property? hfind
        exact tracks_boundMethod hm howns hlive
  | _ => exact tracks_fault _ name.line hm

/-- What `super` stands for in a method is an instance that is there. -/
theorem live_of_superTarget {ref : Ref} {parent receiver : Nat} (hm : m.store.Rooted)
    (h : m.superTarget ref = .ok (parent, receiver)) : (Value.instance receiver).Live m.store := by
  unfold Machine.superTarget at h
  split at h
  · cases h
  · dsimp only at h
    split at h
    · split at h
      · rename_i hreceiver
        cases h
        split at hreceiver
        · cases hreceiver
        · exact hm.getAt? hreceiver
      · cases h
    · cases h

/-- A method above a class tracks, as it is one of a class in the store. -/
theorem tracks_superMethod (ref : Ref) (method : Mark) (hm : m.store.Rooted) :
    Tracks final alarm (superMethod ref method) (superMethod ref method) m
      fun value m' => value.Live m'.store := by
  have htarget : Tracks final alarm (superTarget ref) (superTarget ref) m
      fun target m' => (Value.instance target.2).Live m'.store := by
    have h : Tracks final alarm (orFault ref.mark.line (m.superTarget ref))
        (orFault ref.mark.line (m.superTarget ref)) m
        fun target m' => (Value.instance target.2).Live m'.store :=
      tracks_orFault ref.mark.line hm fun _ => live_of_superTarget hm
    exact tracks_self h.advances h.ok
  refine htarget.bind fun {target m₁} hm₁ hlive => .query hm₁.rooted ?_
  obtain ⟨parent, receiver⟩ := target
  cases hfind : m₁.store.findMethod? parent method.lexeme with
  | none => exact tracks_fault _ method.line hm₁.rooted
  | some found =>
    obtain ⟨owner, howns⟩ := Store.owns_of_findMethod? hfind
    exact tracks_boundMethod hm₁.rooted howns hlive

/-- A closure is made where its code belongs. -/
theorem tracks_closure (name : Option String) {code : Lambda} (hm : m.Within code.ids) :
    Tracks final alarm (closure name code) (closure name code) m
      fun value m' => value.Live m'.store := by
  refine .chain hm.rooted ?_
  have hmade := hm.rooted.newFunction (c := ⟨name, code, m.chain, false⟩) hm.houses
  refine .allocate hmade (Store.secures_newFunction _ _) (tracks_pure hmade ?_)
  exact ⟨⟨name, code, m.chain, false⟩, Array.getElem?_push_size⟩

/-- With these methods, and the classes above its superclass above it, a class stands right below its
    superclass. -/
theorem methodsInside_descends {parent : Option Nat} (name : String) (methods : List Definition)
    (hm : m.store.Rooted) (hoff : m.store.OffSuper m.chain)
    (hparent : ∀ id, parent = some id → (Value.class id).Live m.store) :
    ∃ table m', methodsInside parent methods m = .ok table m' ∧ m.Advances m' ∧
      m'.store.Descends ⟨name, ancestors parent m'.store, table⟩ := by
  cases parent with
  | none =>
    refine ⟨_, m, methodsInside_none methods m, .refl hm, .first rfl fun hfind => ?_⟩
    obtain ⟨_, _, _, _, hchain⟩ := exists_of_methodsMade hfind
    exact hchain ▸ hoff
  | some id =>
    obtain ⟨above, habove⟩ := hparent id rfl
    let birth : Birth := ⟨.superclass methods id, m.chain⟩
    have hsecures := Store.secures_define_newFrame m.store .super birth m.chain "super" (.class id)
    have hrooted := hm.implicitFrame .super birth m.chain "super" (hparent id rfl)
    have hsame : ((superFrame id methods m).2.define ((superFrame id methods m).1 :: m.chain)
        "super" (.class id)).classes[id]? = some above := habove
    refine ⟨_, _, methodsInside_some id methods m, ⟨hrooted, hsecures, rfl⟩,
      .below hsame ?_ fun hfind => ?_⟩
    · simp only [ancestors, hsame, Option.elim_some]
    · obtain ⟨_, _, _, _, hchain⟩ := exists_of_methodsMade hfind
      refine ⟨(superFrame id methods m).1, by rw [hchain]; rfl, ?_⟩
      refine (Store.slot?_define_newFrame m.store .super birth m.chain _ "super" "super" _).trans ?_
      exact if_pos ⟨rfl, rfl⟩

/-- A superclass tracks, and it is there. -/
theorem tracks_superclass (heval : EvalTracks final alarm eval' eval) {ref : Ref}
    (hm : m.Within [ref.id]) :
    Tracks final alarm (superclass eval' ref) (superclass eval ref) m
      fun id m' => (Value.class id).Live m'.store := by
  refine (heval (e := .name ref) (by rwa [Expr.ids])).bind fun {value _} hm₁ hlive => ?_
  cases value with
  | «class» id => exact tracks_pure hm₁.rooted hlive
  | _ => exact tracks_fault _ ref.mark.line hm₁.rooted

/-- Methods are made in frames that belong to them, right below the superclass if there is one. -/
theorem tracks_makeBelow {parent : Option Nat} {name : Mark} {methods : List Definition}
    (hplain : name.Plain) (hm : m.store.Rooted) (hoff : m.store.OffSuper m.chain)
    (hparent : ∀ id, parent = some id → (Value.class id).Live m.store) :
    Tracks final alarm (makeBelow parent name methods) (makeBelow parent name methods) m
      fun id m' => (Value.class id).Live m'.store := by
  have hdefine := Store.secures_define m.store m.chain .nil hplain
  have hdefined : (m.store.define m.chain name.lexeme .nil).Rooted := hm.define m.chain hplain trivial
  obtain ⟨table, m₁, hmade, hm₁, hdescends⟩ :=
    methodsInside_descends (m := { m with store := m.store.define m.chain name.lexeme .nil })
      name.lexeme methods hdefined (hoff.mono hdefine.toGrows)
      (fun id hid => (hparent id hid).mono hdefine.toGrows)
  refine .define hm hplain trivial (.step hmade hm₁ (.query hm₁.rooted ?_))
  exact tracks_allocate (hm₁.rooted.newClass hdescends) (Store.secures_newClass _ _)
    ⟨_, Array.getElem?_push_size⟩

/-- A class is made right below its superclass. -/
theorem tracks_makeClass (heval : EvalTracks final alarm eval' eval) {name : Mark}
    {superclassRef : Option Ref} {methods : List Definition} (hplain : name.Plain)
    (hm : m.Within (Stmt.class name superclassRef methods).ids) (hoff : m.store.OffSuper m.chain) :
    Tracks final alarm (makeClass eval' name superclassRef methods)
      (makeClass eval name superclassRef methods) m fun id m' => (Value.class id).Live m'.store := by
  cases superclassRef with
  | none =>
    rw [makeClass_none, makeClass_none]
    exact tracks_makeBelow hplain hm.rooted hoff nofun
  | some ref =>
    rw [makeClass_some, makeClass_some]
    refine (tracks_superclass heval (hm.part (by simp [Stmt.ids]))).bind fun hm₁ hlive => ?_
    have hoff₁ := hoff.mono hm₁.secures.toGrows
    exact tracks_makeBelow hplain hm₁.rooted (hm₁.chain.symm ▸ hoff₁)
      fun id hid => Option.some.inj hid ▸ hlive

/-- A class that is declared is there. -/
theorem tracks_declareClass (heval : EvalTracks final alarm eval' eval) {name : Mark}
    {superclassRef : Option Ref} {methods : List Definition} (hplain : name.Plain)
    (hm : m.Within (Stmt.class name superclassRef methods).ids) (hoff : m.store.OffSuper m.chain) :
    Tracks final alarm (declareClass eval' name superclassRef methods)
      (declareClass eval name superclassRef methods) m := by
  refine (tracks_makeClass heval hplain hm hoff).bind fun {id m₁} hm₁ hlive => ?_
  have h : Tracks final alarm
      (assignIn (m₁.store.owner? m₁.chain name.lexeme) name (.class id))
      (assignIn (m₁.store.owner? m₁.chain name.lexeme) name (.class id)) m₁ :=
    tracks_assignIn _ hm₁.rooted hplain hlive
  exact tracks_self h.advances fun _ => trivial

end Run

/-- One expression tracks if its parts do. -/
theorem evalNode_tracks (heval : EvalTracks final alarm eval' eval)
    (henter : EnterTracks final alarm enter' enter) {e : Expr} (hproper : e.Proper)
    (hm : m.Within e.ids) :
    Tracks final alarm (evalNode eval' enter' e) (evalNode eval enter e) m
      fun value m' => value.Live m'.store := by
  have hrooted := hm.rooted
  cases e with
  | literal value line =>
    refine tracks_pure hrooted ?_
    cases value <;> trivial
  | grouping inner => exact heval (hm.part (by simp [Expr.ids]))
  | unary op mark right =>
    refine (heval (hm.part (by simp [Expr.ids]))).bind fun hm₁ _ => ?_
    exact tracks_orFault mark.line hm₁.rooted fun _ h => op.apply_live h _
  | binary op mark left right =>
    refine (heval (hm.part (by simp [Expr.ids]))).bind fun hm₁ _ => ?_
    refine (heval ((hm.advance hm₁).part (by simp [Expr.ids]))).bind fun hm₂ _ => ?_
    exact tracks_orFault mark.line hm₂.rooted fun _ h => op.apply_live h _
  | unpaired op mark right => exact hproper.elim
  | logical op mark left right =>
    refine (heval (hm.part (by simp [Expr.ids]))).bind fun hm₁ hlive => ?_
    split
    · exact tracks_pure hm₁.rooted hlive
    · exact heval ((hm.advance hm₁).part (by simp [Expr.ids]))
  | conditional condition yes no =>
    refine (heval (hm.part (by simp [Expr.ids]))).bind fun hm₁ _ => ?_
    split
    · exact heval ((hm.advance hm₁).part (by simp [Expr.ids]))
    · exact heval ((hm.advance hm₁).part (by simp [Expr.ids]))
  | comma left right =>
    refine (heval (hm.part (by simp [Expr.ids]))).bind fun hm₁ _ => ?_
    exact heval ((hm.advance hm₁).part (by simp [Expr.ids]))
  | name ref => exact tracks_read ref hrooted
  | assign ref value =>
    refine (heval (hm.part (by simp [Expr.ids]))).bind fun hm₁ hlive => ?_
    refine (tracks_assign hm₁.rooted hproper.1 hlive).bind fun hm₂ _ => ?_
    exact tracks_pure hm₂.rooted (hlive.mono hm₂.secures.toGrows)
  | call callee paren arguments =>
    exact tracks_callExpression henter heval paren (hm.part (by simp [Expr.ids]))
      (hm.part (by simp [Expr.ids]))
  | get object name =>
    refine (heval (hm.part (by simp [Expr.ids]))).bind fun hm₁ hlive => ?_
    exact tracks_property name hm₁.rooted hlive
  | set object name value =>
    refine (heval (hm.part (by simp [Expr.ids]))).bind fun {target m₁} hm₁ _ => ?_
    cases target with
    | «instance» id =>
      refine (heval ((hm.advance hm₁).part (by simp [Expr.ids]))).bind fun {value m₂} hm₂ hlive => ?_
      have hset := Store.secures_setField m₂.store id name.lexeme value
      have hrooted := hm₂.rooted.setField id name.lexeme hlive
      refine .step (a := ()) rfl ⟨hrooted, hset, rfl⟩ ?_
      exact tracks_pure hrooted (hlive.mono hset.toGrows)
    | _ => exact tracks_fault _ name.line hm₁.rooted
  | this ref => exact tracks_read ref hrooted
  | super ref method => exact tracks_superMethod ref method hrooted
  | lambda keyword code => exact tracks_closure none (hm.part (by simp [Expr.ids]))

/-- One statement tracks if its parts do. -/
theorem execNode_tracks (heval : EvalTracks final alarm eval' eval)
    (hexec : ExecTracks final alarm exec' exec) (rounds : Nat) {s : Stmt} (hproper : s.Proper)
    (hoff : m.store.OffSuper m.chain) (hm : m.Within s.ids) :
    Tracks final alarm (execNode rounds eval' exec' s) (execNode rounds eval exec s) m
      fun completion m' => completion.Live m'.store := by
  have hrooted := hm.rooted
  cases s with
  | expression value =>
    refine (heval (hm.part (by simp [Stmt.ids]))).bind fun hm₁ _ => ?_
    exact tracks_pure hm₁.rooted trivial
  | print keyword value =>
    refine (heval (hm.part (by simp [Stmt.ids]))).bind fun {value _} hm₁ _ => ?_
    refine (tracks_print value keyword.line hm₁.rooted).bind fun hm₂ _ => ?_
    exact tracks_pure hm₂.rooted trivial
  | var name initial =>
    cases initial with
    | none =>
      have hdeclared : (m.store.declare m.chain name.lexeme).Rooted := hrooted.declare m.chain hproper
      exact .step (a := ()) rfl ⟨hdeclared, Store.secures_declare _ _ hproper, rfl⟩
        (tracks_pure hdeclared trivial)
    | some initial =>
      refine (heval (hm.part (by simp [Stmt.ids]))).bind fun hm₁ hlive => ?_
      exact .define hm₁.rooted hproper.1 hlive
        (tracks_pure (hm₁.rooted.define _ hproper.1 hlive) trivial)
  | function definition =>
    obtain ⟨name, code⟩ := definition
    refine (tracks_closure _ (hm.part (by simp [Stmt.ids]))).bind fun hm₁ hlive => ?_
    exact .define hm₁.rooted hproper.1 hlive
      (tracks_pure (hm₁.rooted.define _ hproper.1 hlive) trivial)
  | «class» name superclassRef methods =>
    refine (tracks_declareClass heval (Stmt.Proper.class_plain hproper) hm hoff).bind fun hm₁ _ => ?_
    exact tracks_pure hm₁.rooted trivial
  | block body => exact tracks_block hexec (hm.part (by simp [Stmt.ids]))
  | «if» condition yes no =>
    cases no with
    | none =>
      refine (heval (hm.part (by simp [Stmt.ids]))).bind fun hm₁ _ => ?_
      split
      · exact hexec ((hm.advance hm₁).part (by simp [Stmt.ids]))
      · exact tracks_pure hm₁.rooted trivial
    | some no =>
      refine (heval (hm.part (by simp [Stmt.ids]))).bind fun hm₁ _ => ?_
      split
      · exact hexec ((hm.advance hm₁).part (by simp [Stmt.ids]))
      · exact hexec ((hm.advance hm₁).part (by simp [Stmt.ids]))
  | «while» condition body =>
    refine tracks_loop (fun hm => ?_) (fun hm => ?_) rounds hm
    · exact (heval (hm.part (by simp [Stmt.ids]))).mono fun _ => trivial
    · exact hexec (hm.part (by simp [Stmt.ids]))
  | «return» keyword value =>
    cases value with
    | none => exact tracks_pure hrooted trivial
    | some value =>
      refine (heval (hm.part (by simp [Stmt.ids]))).bind fun hm₁ hlive => ?_
      exact tracks_pure hm₁.rooted hlive
  | «break» keyword => exact tracks_pure hrooted trivial

/-- What a run has brought along to a moment: what begins there is where its code belongs, and arguments
    are there. -/
def Moment.Prepared (m : Machine) : Moment → Prop
  | evaluating e => m.Within e.ids
  | executing s => m.Within s.ids
  | entering c arguments => c.Ready arguments m.store

/-- What static binding sees to at a moment: the code is proper, and no statement stands right in the frame
    of a superclass. -/
def Moment.Orderly (m : Machine) : Moment → Prop
  | evaluating e => e.Proper
  | executing s => s.Proper ∧ m.store.OffSuper m.chain
  | entering c _ => c.code.Proper

namespace Watch

variable {watch' watch : Watch}
  (horderly : ∀ moment m, watch.condition moment m → moment.Orderly m)
  (hkept : ∀ moment m, watch.condition moment m → moment.Prepared m → m.store.Secures final →
    watch'.condition moment m)
include horderly hkept

/-- Closures are entered alike under both watches. -/
theorem enter_tracks (hexec : ExecTracks final watch.alarm exec' exec) :
    EnterTracks final watch.alarm (watch'.enter exec') (watch.enter exec) := by
  intro c arguments m line hc
  refine Tracks.guard hc.rooted (fun hcondition => hkept _ m hcondition hc) fun hcondition => ?_
  exact tracks_callClosure hexec line (horderly _ m hcondition) hc

/-- Evaluation under one watch tracks evaluation under the other. The induction is on the fuel, with
    the node lemmas as its step. -/
theorem eval_exec_tracks (fuel : Nat) :
    EvalTracks final watch.alarm (watch'.eval fuel) (watch.eval fuel) ∧
      ExecTracks final watch.alarm (watch'.exec fuel) (watch.exec fuel) := by
  induction fuel with
  | zero => exact ⟨fun hm => tracks_outOfFuel hm.rooted, fun hm => tracks_outOfFuel hm.rooted⟩
  | succ fuel ih =>
    obtain ⟨heval, hexec⟩ := ih
    have henter : EnterTracks final watch.alarm (watch'.enter (watch'.exec fuel))
        (watch.enter (watch.exec fuel)) := enter_tracks horderly hkept hexec
    refine ⟨fun {e m} hm => ?_, fun {s m} hm => ?_⟩
    · refine Tracks.guard hm.rooted (fun hcondition => hkept _ m hcondition hm) fun hcondition => ?_
      exact evalNode_tracks heval henter (horderly _ m hcondition) hm
    · refine Tracks.guard hm.rooted (fun hcondition => hkept _ m hcondition hm) fun hcondition => ?_
      obtain ⟨hproper, hoff⟩ := horderly _ m hcondition
      exact execNode_tracks heval hexec fuel hproper hoff hm

end Watch

/-- A program tracks statement by statement. -/
theorem runEach_tracks (hexec : ExecTracks final alarm exec' exec) {program : List Stmt}
    (hm : m.Within (Stmt.idsAll program)) :
    Tracks final alarm (runEach exec' program) (runEach exec program) m := by
  induction program generalizing m with
  | nil => exact tracks_pure hm.rooted trivial
  | cons s rest ih =>
    refine (hexec (hm.part (by simp [Stmt.idsAll]))).bind fun hm₁ _ => ?_
    exact ih ((hm.advance hm₁).part (by simp [Stmt.idsAll]))

/-- A line tracks statement by statement, with the values of its expressions printed in between. -/
theorem runShowing_tracks (heval : EvalTracks final alarm eval' eval)
    (hexec : ExecTracks final alarm exec' exec) {program : List Stmt}
    (hm : m.Within (Stmt.idsAll program)) :
    Tracks final alarm (runShowing eval' exec' program) (runShowing eval exec program) m := by
  induction program generalizing m with
  | nil => exact tracks_pure hm.rooted trivial
  | cons s rest ih =>
    have hother : Tracks final alarm (do let _ ← exec' s; runShowing eval' exec' rest)
        (do let _ ← exec s; runShowing eval exec rest) m := by
      refine (hexec (hm.part (by simp [Stmt.idsAll]))).bind fun hm₁ _ => ?_
      exact ih ((hm.advance hm₁).part (by simp [Stmt.idsAll]))
    cases s with
    | expression e =>
      refine (heval (hm.part (by simp [Stmt.idsAll, Stmt.ids]))).bind fun {value _} hm₁ _ => ?_
      refine (tracks_print value e.line hm₁.rooted).bind fun hm₂ _ => ?_
      exact ih ((hm.advance (hm₁.trans hm₂)).part (by simp [Stmt.idsAll]))
    | _ => exact hother

end Lox
