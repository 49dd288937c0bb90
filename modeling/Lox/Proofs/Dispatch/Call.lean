import Lox.Proofs.Dispatch.Tracking

namespace Lox

/-- A value that a statement returns is there. -/
def Completion.Live (s : Store) : Completion → Prop
  | returned value => value.Live s
  | _ => True

/-- What a call returns is there if what its body ends with is. -/
theorem Completion.Live.result {s : Store} {completion : Completion} (h : completion.Live s) :
    completion.result.Live s := by
  cases completion with
  | returned value => exact h
  | _ => trivial

theorem Lambda.ids_eq (code : Lambda) : code.ids = Stmt.idsAll code.body := by
  cases code
  rw [Lambda.ids]

variable (final : Store) (alarm : Halt)

/-- Evaluating an expression where its code belongs gets on, to a value that is there. -/
def EvalTracks (eval' eval : Expr → Run Value) : Prop :=
  ∀ {e m}, m.Within e.ids →
    Run.Tracks final alarm (eval' e) (eval e) m fun value m' => value.Live m'.store

/-- Statements are executed in pairs that track each other, wherever they may stand. -/
def ExecTracks (exec' exec : Stmt → Run Completion) : Prop :=
  ∀ {s m}, m.Within s.ids →
    Run.Tracks final alarm (exec' s) (exec s) m fun completion m' => completion.Live m'.store

/-- A closure that was made where its code belongs, with arguments that are there. -/
structure Closure.Ready (c : Closure) (arguments : List Value) (s : Store) : Prop where
  rooted : s.Rooted
  houses : s.Houses c.code.ids c.chain
  arguments : ∀ argument ∈ arguments, argument.Live s

/-- Closures are entered in pairs that track each other. -/
def EnterTracks (enter' enter : Closure → List Value → Nat → Run Value) : Prop :=
  ∀ {c arguments m} (line : Nat), c.Ready arguments m.store →
    Run.Tracks final alarm (enter' c arguments line) (enter c arguments line) m
      fun value m' => value.Live m'.store

variable {final alarm} {eval' eval : Expr → Run Value} {exec' exec : Stmt → Run Completion}
  {enter' enter : Closure → List Value → Nat → Run Value} {m : Machine}

namespace Run

/-- Expressions in a row track, and all their values are there. -/
theorem tracks_all (heval : EvalTracks final alarm eval' eval) {es : List Expr}
    (hm : m.Within (Expr.idsAll es)) :
    Tracks final alarm (all eval' es) (all eval es) m
      fun values m' => ∀ value ∈ values, value.Live m'.store := by
  induction es generalizing m with
  | nil => exact tracks_pure hm.rooted (by simp)
  | cons e rest ih =>
    refine (heval (hm.part (by simp [Expr.idsAll]))).bind fun {value m₁} hm₁ hvalue => ?_
    refine (ih ((hm.advance hm₁).part (by simp [Expr.idsAll]))).bind fun hm₂ hvalues => ?_
    exact tracks_pure hm₂.rooted
      (List.forall_mem_cons.mpr ⟨hvalue.mono hm₂.secures.toGrows, hvalues⟩)

/-- Statements in a row track as each of them does. -/
theorem tracks_sequence (hexec : ExecTracks final alarm exec' exec) {body : List Stmt}
    (hm : m.Within (Stmt.idsAll body)) :
    Tracks final alarm (sequence exec' body) (sequence exec body) m
      fun completion m' => completion.Live m'.store := by
  induction body generalizing m with
  | nil => exact tracks_pure hm.rooted trivial
  | cons s rest ih =>
    refine (hexec (hm.part (by simp [Stmt.idsAll]))).bind fun {completion _} hm₁ hlive => ?_
    cases completion with
    | normal => exact ih ((hm.advance hm₁).part (by simp [Stmt.idsAll]))
    | broken => exact tracks_pure hm₁.rooted trivial
    | returned value => exact tracks_pure hm₁.rooted hlive

/-- A block tracks as its statements do, since its frame belongs to whom those around it do. -/
theorem tracks_block (hexec : ExecTracks final alarm exec' exec) {body : List Stmt}
    (hm : m.Within (Stmt.idsAll body)) :
    Tracks final alarm (block exec' body) (block exec body) m
      fun completion m' => completion.Live m'.store := by
  let birth : Birth := ⟨.block body, m.chain⟩
  have hrooted := hm.rooted.newFrame .block birth
  refine .chain hm.rooted (.allocate hrooted (Store.secures_newFrame _ _ birth) (Tracks.inChain ?_ id))
  exact tracks_sequence hexec (Machine.within_newFrame hm.rooted hm.houses (by decide) birth)

/-- A loop tracks round by round. -/
theorem tracks_loop {condition' condition : Run Value} {body' body : Run Completion} {ids : List Nat}
    (hcondition : ∀ {m : Machine}, m.Within ids → Tracks final alarm condition' condition m)
    (hbody : ∀ {m : Machine}, m.Within ids → Tracks final alarm body' body m
      fun completion m' => completion.Live m'.store)
    (rounds : Nat) (hm : m.Within ids) :
    Tracks final alarm (loop condition' body' rounds) (loop condition body rounds) m
      fun completion m' => completion.Live m'.store := by
  induction rounds generalizing m with
  | zero => exact tracks_outOfFuel hm.rooted
  | succ rounds ih =>
    refine (hcondition hm).bind fun {value _} hm₁ _ => ?_
    have hwithin := hm.advance hm₁
    split
    · refine (hbody hwithin).bind fun {completion _} hm₂ hlive => ?_
      cases completion with
      | normal => exact ih (hwithin.advance hm₂)
      | broken => exact tracks_pure hm₂.rooted trivial
      | returned value => exact tracks_pure hm₂.rooted hlive
    · exact tracks_pure hm₁.rooted trivial

/-- Parameters get arguments that are there. -/
theorem tracks_defineParams {params : List Mark} {arguments : List Value} (hm : m.store.Rooted)
    (hplain : ∀ param ∈ params, param.Plain) (hlive : ∀ argument ∈ arguments, argument.Live m.store) :
    Tracks final alarm (defineParams params arguments) (defineParams params arguments) m := by
  induction params generalizing arguments m with
  | nil => exact tracks_pure hm trivial
  | cons param params ih =>
    cases arguments with
    | nil => exact tracks_pure hm trivial
    | cons argument arguments =>
      obtain ⟨hfirst, hothers⟩ := List.forall_mem_cons.mp hlive
      obtain ⟨hparam, hparams⟩ := List.forall_mem_cons.mp hplain
      refine .define hm hparam hfirst (ih (hm.define m.chain hparam hfirst) hparams ?_)
      exact fun other hother => (hothers other hother).mono (Store.grows_define _ _ _ _)

/-- The body of a closure tracks: its frame belongs to whom the frames of the closure do. -/
theorem tracks_runBody (hexec : ExecTracks final alarm exec' exec) {c : Closure}
    {arguments : List Value} (hproper : c.code.Proper) (hc : c.Ready arguments m.store) :
    Tracks final alarm (runBody exec' c arguments) (runBody exec c arguments) m
      fun completion m' => completion.Live m'.store := by
  let birth : Birth := ⟨.call c.code, c.chain⟩
  have hrooted := hc.rooted.newFrame .function birth
  have hsecures := Store.secures_newFrame m.store .function birth
  refine .allocate hrooted hsecures (Tracks.inChain ?_ id)
  refine (tracks_defineParams hrooted (Lambda.Proper.params_plain hproper) fun argument hmem =>
    (hc.arguments argument hmem).mono hsecures.toGrows).bind fun hm₁ _ => ?_
  have hinside : ({ m with
      store := (m.store.newFrame .function birth).2
      chain := (m.store.newFrame .function birth).1 :: c.chain } : Machine).Within c.code.ids :=
    Machine.within_newFrame hc.rooted hc.houses (by decide) birth
  exact tracks_sequence hexec (c.code.ids_eq ▸ hinside.advance hm₁)

/-- Calls of a closure track. What an initializer returns is there, as everything in a frame is. -/
theorem tracks_callClosure (hexec : ExecTracks final alarm exec' exec) {c : Closure}
    {arguments : List Value} (line : Nat) (hproper : c.code.Proper) (hc : c.Ready arguments m.store) :
    Tracks final alarm (callClosure exec' c arguments line) (callClosure exec c arguments line) m
      fun value m' => value.Live m'.store := by
  refine (tracks_runBody hexec hproper hc).bind fun {completion m₁} hm₁ hlive => ?_
  split
  · refine .query hm₁.rooted ?_
    cases hthis : m₁.store.getAt? c.chain 0 "this" with
    | none => exact tracks_fault _ line hm₁.rooted
    | some value => exact tracks_pure hm₁.rooted (hm₁.rooted.getAt? hthis)
  · exact tracks_pure hm₁.rooted hlive.result

/-- Native functions track, since what they give is no object. -/
theorem tracks_callNative (f : Native) (arguments : List Value) (line : Nat) (hm : m.store.Rooted) :
    Tracks final alarm (callNative f arguments line) (callNative f arguments line) m
      fun value m' => value.Live m'.store := by
  cases f with
  | clock => exact tracks_aside hm rfl rfl fun h => by cases h; trivial
  | hosted name arity => exact tracks_callHost name arguments line hm

section Entering

variable (henter : EnterTracks final alarm enter' enter)
include henter

/-- Constructions track: the class is there, and so are its initializer and the instance. -/
theorem tracks_construct {classId : Nat} {arguments : List Value} (line : Nat) (hm : m.store.Rooted)
    (hclass : (Value.class classId).Live m.store)
    (harguments : ∀ argument ∈ arguments, argument.Live m.store) :
    Tracks final alarm (construct enter' classId arguments line)
      (construct enter classId arguments line) m fun value m' => value.Live m'.store := by
  have hmade := hm.newInstance hclass
  have hsecures := Store.secures_newInstance m.store classId
  have hinstance : (Value.instance (m.store.newInstance classId).1).Live
      (m.store.newInstance classId).2 := by
    simp [Value.Live, Store.newInstance]
  refine .allocate hmade hsecures (.query hmade ?_)
  dsimp only
  cases hinit : (m.store.newInstance classId).2.initializer? classId with
  | none => exact tracks_pure hmade hinstance
  | some method =>
    obtain ⟨owner, howns⟩ := Store.owns_of_findMethod? hinit
    have hbind := Store.secures_bind (m.store.newInstance classId).2 method
      (m.store.newInstance classId).1
    have hbound := hmade.bind method hinstance
    refine .allocate hbound hbind ?_
    refine (henter line ⟨hbound, howns.houses_bind _, fun argument hmem => ?_⟩).bind fun hm₁ _ => ?_
    · exact (harguments argument hmem).mono (hsecures.trans hbind).toGrows
    · exact tracks_pure hm₁.rooted (hinstance.mono (hbind.trans hm₁.secures).toGrows)

/-- Calls of a value that is there track. -/
theorem tracks_call {callee : Value} {arguments : List Value} (line : Nat) (hm : m.store.Rooted)
    (hcallee : callee.Live m.store) (harguments : ∀ argument ∈ arguments, argument.Live m.store) :
    Tracks final alarm (call enter' callee arguments line) (call enter callee arguments line) m
      fun value m' => value.Live m'.store := by
  cases callee with
  | native f => exact tracks_callNative f arguments line hm
  | function id =>
    refine .query hm ?_
    cases hfind : m.store.functions[id]? with
    | none => exact tracks_fault _ line hm
    | some c => exact henter line ⟨hm, hm.functions hfind, harguments⟩
  | «class» id => exact tracks_construct henter line hm hcallee harguments
  | _ => exact tracks_fault _ line hm

/-- Checked calls of a value that is there track. -/
theorem tracks_callChecked {callee : Value} {arguments : List Value} (line : Nat)
    (hm : m.store.Rooted) (hcallee : callee.Live m.store)
    (harguments : ∀ argument ∈ arguments, argument.Live m.store) :
    Tracks final alarm (callChecked enter' callee arguments line)
      (callChecked enter callee arguments line) m fun value m' => value.Live m'.store := by
  refine .query hm ?_
  cases m.store.arity? callee with
  | none => exact tracks_fault _ line hm
  | some arity =>
    dsimp only
    split
    · exact tracks_fault _ line hm
    · refine .step rfl (.refl hm) ?_
      split
      · exact tracks_fault _ line hm
      · exact Tracks.counted (tracks_call henter line hm hcallee harguments) id

/-- Call expressions track, with the callee and the arguments evaluated on the way. -/
theorem tracks_callExpression (heval : EvalTracks final alarm eval' eval) {callee : Expr}
    {arguments : List Expr} (paren : Mark) (hcallee : m.Within callee.ids)
    (harguments : m.Within (Expr.idsAll arguments)) :
    Tracks final alarm (callExpression enter' eval' callee paren arguments)
      (callExpression enter eval callee paren arguments) m fun value m' => value.Live m'.store := by
  refine (heval hcallee).bind fun {f m₁} hm₁ hlive => ?_
  split
  · refine (tracks_all heval (harguments.advance hm₁)).bind fun {values m₂} hm₂ hvalues => ?_
    exact tracks_callChecked henter paren.line hm₂.rooted (hlive.mono hm₂.secures.toGrows) hvalues
  · exact tracks_fault _ paren.line hm₁.rooted

end Entering

end Run

end Lox
