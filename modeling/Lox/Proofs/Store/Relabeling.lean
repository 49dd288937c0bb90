import Lox.Evaluation.Basic
import Lox.Proofs.Store.Growth
import Lox.Proofs.Table
import Lox.Proofs.Tree.Relabeling

namespace Lox

/-- A function made of code with other labels. -/
def Closure.relabel (f : Relabeling) (c : Closure) : Closure :=
  { c with code := c.code.relabel f }

/-- A class whose methods are made of code with other labels. -/
def ClassRecord.relabel (f : Relabeling) (c : ClassRecord) : ClassRecord :=
  { c with methods := c.methods.map (Closure.relabel f) }

/-- What a frame was made for, where the code has other labels. -/
def Purpose.relabel (f : Relabeling) : Purpose → Purpose
  | block body => block (Stmt.relabelAll f body)
  | call code => call (code.relabel f)
  | receiver code instanceId => receiver (code.relabel f) instanceId
  | superclass methods classId => superclass (Definition.relabelAll f methods) classId

/-- How a frame came to be, where the code has other labels. -/
def Birth.relabel (f : Relabeling) (b : Birth) : Birth :=
  { b with purpose := b.purpose.relabel f }

/-- A frame whose birth tells code with other labels. Its names and their values stay. -/
def Frame.relabel (f : Relabeling) (frame : Frame) : Frame :=
  { frame with birth := frame.birth.map (Birth.relabel f) }

variable (f : Relabeling)

/-- Labels are no parameters, so the number of these stays. -/
theorem Lambda.length_params_relabel (code : Lambda) :
    (code.relabel f).params.length = code.params.length := by
  obtain ⟨params, body⟩ := code
  exact List.length_map _

theorem Closure.arity_relabel (c : Closure) : (c.relabel f).arity = c.arity :=
  c.code.length_params_relabel f

namespace Store

/-- The functions and the methods are made of code with other labels, and the frames for it. -/
def relabel (s : Store) : Store :=
  { s with
    frames := s.frames.map (Frame.relabel f)
    functions := s.functions.map (Closure.relabel f)
    classes := s.classes.map (ClassRecord.relabel f) }

/-- A property whose method, if it is one, is made of code with other labels. -/
def Property.relabel : Property → Property
  | .field value => .field value
  | .method definition => .method (definition.relabel f)

variable (s : Store)

/-- A frame has the same slots whatever the labels are. -/
theorem slot?_relabel (frame : Nat) (name : String) :
    (s.relabel f).slot? frame name = s.slot? frame name := by
  unfold slot? relabel
  rw [Array.getElem?_map]
  cases s.frames[frame]? <;> rfl

theorem withoutBirth_relabel :
    (s.relabel f).frames.map Frame.withoutBirth = s.frames.map Frame.withoutBirth :=
  Array.map_map

/-- A name is found in the same frame whatever the labels are. -/
theorem owner?_relabel (chain : Chain) (name : String) :
    (s.relabel f).owner? chain name = s.owner? chain name := by
  unfold owner?
  simp only [slot?_relabel]

theorem get_relabel (chain : Chain) (name : String) :
    (s.relabel f).get chain name = s.get chain name := by
  unfold get
  simp only [owner?_relabel, slot?_relabel]

/-- The frame at a depth owns the same names whatever the labels are. -/
theorem ownerAt?_relabel (chain : Chain) (depth : Nat) (name : String) :
    (s.relabel f).ownerAt? chain depth name = s.ownerAt? chain depth name := by
  unfold ownerAt?
  simp only [slot?_relabel]

theorem getAt?_relabel (chain : Chain) (depth : Nat) (name : String) :
    (s.relabel f).getAt? chain depth name = s.getAt? chain depth name := by
  unfold getAt?
  simp only [ownerAt?_relabel, slot?_relabel]

theorem functions_relabel (id : Nat) :
    (s.relabel f).functions[id]? = s.functions[id]?.map (Closure.relabel f) :=
  Array.getElem?_map ..

theorem classes_relabel (id : Nat) :
    (s.relabel f).classes[id]? = s.classes[id]?.map (ClassRecord.relabel f) :=
  Array.getElem?_map ..

/-- A method is found in the same class, and is the old one with other labels. -/
theorem findMethod?_relabel (classId : Nat) (name : String) :
    (s.relabel f).findMethod? classId name = (s.findMethod? classId name).map (Closure.relabel f) := by
  have habove (ancestors : List Nat) :
      (ancestors.findSome? fun id => (s.relabel f).classes[id]?.bind fun a => a.methods.find? name) =
        (ancestors.findSome? fun id => s.classes[id]?.bind fun a => a.methods.find? name).map
          (Closure.relabel f) := by
    induction ancestors with
    | nil => rfl
    | cons id rest ih =>
      have hfirst : ((s.relabel f).classes[id]?.bind fun a => a.methods.find? name) =
          (s.classes[id]?.bind fun a => a.methods.find? name).map (Closure.relabel f) := by
        rw [classes_relabel]
        cases s.classes[id]? with
        | none => rfl
        | some a => exact Table.find?_map _ a.methods name
      rw [List.findSome?_cons, List.findSome?_cons, hfirst]
      cases s.classes[id]?.bind fun a => a.methods.find? name with
      | none => exact ih
      | some c => rfl
  unfold findMethod?
  rw [classes_relabel]
  cases s.classes[classId]? with
  | none => rfl
  | some c =>
    have hown : (c.relabel f).methods.find? name = (c.methods.find? name).map (Closure.relabel f) :=
      Table.find?_map _ c.methods name
    simp only [Option.map_some, hown]
    cases c.methods.find? name with
    | none => exact habove c.ancestors
    | some method => rfl

/-- A property is found on the same instance, and is the old one with other labels. -/
theorem property?_relabel (instanceId : Nat) (name : String) :
    (s.relabel f).property? instanceId name =
      (s.property? instanceId name).map (Property.relabel f) := by
  change s.instances[instanceId]?.bind _ = (s.instances[instanceId]?.bind _).map _
  cases s.instances[instanceId]? with
  | none => rfl
  | some i =>
    simp only [Option.bind_some, findMethod?_relabel]
    cases i.fields.find? name with
    | some value => rfl
    | none => cases s.findMethod? i.classId name <;> rfl

theorem initializer?_relabel (classId : Nat) :
    (s.relabel f).initializer? classId = (s.initializer? classId).map (Closure.relabel f) :=
  s.findMethod?_relabel f classId initializerName

/-- A value takes the same number of arguments whatever the labels are. -/
theorem arity?_relabel (callee : Value) : (s.relabel f).arity? callee = s.arity? callee := by
  cases callee with
  | function id =>
    simp only [arity?, functions_relabel, Option.map_map]
    exact congrArg (s.functions[id]?.map ·) (funext (Closure.arity_relabel f))
  | «class» id =>
    simp only [arity?, initializer?_relabel]
    cases s.initializer? id with
    | none => rfl
    | some c => exact congrArg some (c.arity_relabel f)
  | _ => rfl

theorem className_relabel (classId : Nat) : (s.relabel f).className classId = s.className classId := by
  unfold className
  rw [classes_relabel]
  cases s.classes[classId]? <;> rfl

/-- A value has the same text whatever the labels are. -/
theorem pieces_relabel (value : Value) : (s.relabel f).pieces value = s.pieces value := by
  cases value with
  | function id =>
    simp only [pieces, functions_relabel]
    cases s.functions[id]? <;> rfl
  | «class» id => exact congrArg ([·]) (s.className_relabel f id)
  | «instance» id =>
    change [s.instances[id]?.elim "" _, " instance"] = [s.instances[id]?.elim "" _, " instance"]
    cases s.instances[id]? with
    | none => rfl
    | some i => exact congrArg ([·, " instance"]) (s.className_relabel f i.classId)
  | bool b => cases b <;> rfl
  | _ => rfl

theorem ancestors_relabel (parent : Option Nat) :
    Run.ancestors parent (s.relabel f) = Run.ancestors parent s := by
  cases parent with
  | none => rfl
  | some id =>
    simp only [Run.ancestors, classes_relabel]
    cases s.classes[id]? <;> rfl

/-- A frame that is made for code with other labels is the old one with other labels. -/
theorem newFrame_relabel (kind : FrameKind) (birth : Option Birth) :
    (s.relabel f).newFrame kind (birth.map (Birth.relabel f)) =
      ((s.newFrame kind birth).1, (s.newFrame kind birth).2.relabel f) := by
  simp [newFrame, relabel, Frame.relabel]

/-- Slots are set alike whatever the labels are. -/
theorem setSlot_relabel (frame : Nat) (name : String) (slot : Slot) :
    (s.relabel f).setSlot frame name slot = (s.setSlot frame name slot).relabel f := by
  have hframes : (s.frames.map (Frame.relabel f)).modify frame
      (fun frame => { frame with slots := frame.slots.insert name slot }) =
        (s.frames.modify frame fun frame => { frame with slots := frame.slots.insert name slot }).map
          (Frame.relabel f) := by
    apply Array.ext_getElem?
    intro i
    simp only [Array.getElem?_modify, Array.getElem?_map]
    by_cases hsame : frame = i
    · cases hi : s.frames[i]? <;> simp [hsame, Frame.relabel]
    · simp [hsame]
  unfold setSlot relabel
  rw [hframes]

/-- A definition is the same step on stores with other labels. -/
theorem define_relabel (chain : Chain) (name : String) (value : Value) :
    (s.relabel f).define chain name value = (s.define chain name value).relabel f := by
  cases chain with
  | nil => rfl
  | cons frame _ => exact s.setSlot_relabel f frame name _

/-- A declaration is the same step on stores with other labels. -/
theorem declare_relabel (chain : Chain) (name : String) :
    (s.relabel f).declare chain name = (s.declare chain name).relabel f := by
  cases chain with
  | nil => rfl
  | cons frame _ => exact s.setSlot_relabel f frame name _

/-- A function with other labels gets the number that it had. -/
theorem newFunction_relabel (c : Closure) :
    (s.relabel f).newFunction (c.relabel f) =
      ((s.newFunction c).1, (s.newFunction c).2.relabel f) := by
  simp [newFunction, relabel]

theorem newClass_relabel (c : ClassRecord) :
    (s.relabel f).newClass (c.relabel f) = ((s.newClass c).1, (s.newClass c).2.relabel f) := by
  simp [newClass, relabel]

/-- A method with other labels is bound in the same frame as before. -/
theorem bind_relabel (method : Closure) (instanceId : Nat) :
    (s.relabel f).bind (method.relabel f) instanceId =
      ((s.bind method instanceId).1.relabel f, (s.bind method instanceId).2.relabel f) := by
  let birth : Birth := ⟨.receiver method.code instanceId, method.chain⟩
  have hframe := s.newFrame_relabel f .this (some birth)
  have hdefine := (s.newFrame .this (some birth)).2.define_relabel f
    ((s.newFrame .this (some birth)).1 :: method.chain) "this" (.instance instanceId)
  exact Prod.ext (congrArg (fun made => ({ method.relabel f with
      chain := Prod.fst made :: method.chain } : Closure)) hframe)
    ((congrArg (fun made => Store.define (Prod.snd made) (Prod.fst made :: method.chain) "this"
      (.instance instanceId)) hframe).trans hdefine)

/-- A bound method with other labels gets the number that it had. -/
theorem boundMethod_relabel (method : Closure) (instanceId : Nat) :
    (s.relabel f).boundMethod (method.relabel f) instanceId =
      ((s.boundMethod method instanceId).1, (s.boundMethod method instanceId).2.relabel f) := by
  unfold boundMethod
  simp only [bind_relabel, newFunction_relabel]

end Store

section Twice

variable (g : Relabeling)

theorem Closure.relabel_relabel (c : Closure) : (c.relabel f).relabel g = c.relabel (f.andThen g) :=
  congrArg (fun code => { c with code }) (c.code.relabel_relabel f g)

theorem ClassRecord.relabel_relabel (c : ClassRecord) :
    (c.relabel f).relabel g = c.relabel (f.andThen g) := by
  have hmethods : (fun method => Closure.relabel g (Closure.relabel f method)) =
      Closure.relabel (f.andThen g) := funext (Closure.relabel_relabel f g)
  unfold relabel
  rw [Table.map_map, hmethods]

/-- Labels that change twice change once by both changes together. -/
theorem Purpose.relabel_relabel (p : Purpose) :
    (p.relabel f).relabel g = p.relabel (f.andThen g) := by
  cases p with
  | block body => exact congrArg block (Stmt.relabelAll_relabelAll f g body)
  | call code => exact congrArg call (code.relabel_relabel f g)
  | receiver code instanceId => exact congrArg (receiver · instanceId) (code.relabel_relabel f g)
  | superclass methods classId =>
    exact congrArg (superclass · classId) (Definition.relabelAll_relabelAll f g methods)

/-- A frame whose labels change twice. -/
theorem Frame.relabel_relabel (frame : Frame) :
    (frame.relabel f).relabel g = frame.relabel (f.andThen g) := by
  obtain ⟨kind, slots, _ | ⟨purpose, outer⟩⟩ := frame
  · rfl
  · exact congrArg (fun purpose => (⟨kind, slots, some ⟨purpose, outer⟩⟩ : Frame))
      (purpose.relabel_relabel f g)

/-- A store whose labels change twice changes once by both changes together. -/
theorem Store.relabel_relabel (s : Store) : (s.relabel f).relabel g = s.relabel (f.andThen g) := by
  have hframes : Frame.relabel g ∘ Frame.relabel f = Frame.relabel (f.andThen g) :=
    funext (Frame.relabel_relabel f g)
  have hfunctions : Closure.relabel g ∘ Closure.relabel f = Closure.relabel (f.andThen g) :=
    funext (Closure.relabel_relabel f g)
  have hclasses : ClassRecord.relabel g ∘ ClassRecord.relabel f = ClassRecord.relabel (f.andThen g) :=
    funext (ClassRecord.relabel_relabel f g)
  unfold relabel
  rw [Array.map_map, Array.map_map, Array.map_map, hframes, hfunctions, hclasses]

end Twice

section Stay

variable {f}

theorem Closure.relabel_eq_self (hline : ∀ line, f.line line = line) {c : Closure}
    (hids : ∀ id ∈ c.code.ids, f.id id = id) : c.relabel f = c := by
  rw [relabel, c.code.relabel_eq_self hline hids]

/-- A store of code whose labels all stay is the same. -/
theorem Store.relabel_eq_self {s : Store} (hframes : ∀ frame ∈ s.frames, frame.relabel f = frame)
    (hfunctions : ∀ c ∈ s.functions, c.relabel f = c)
    (hclasses : ∀ c ∈ s.classes, ∀ entry ∈ c.methods.entries, entry.2.relabel f = entry.2) :
    s.relabel f = s := by
  obtain ⟨frames, functions, classes, instances⟩ := s
  have hclass : ∀ c ∈ classes, c.relabel f = c := fun c hc => by
    rw [ClassRecord.relabel, Table.map_eq_self (hclasses c hc)]
  have hfront : frames.map (Frame.relabel f) = frames :=
    (Array.map_congr_left hframes).trans (Array.map_id frames)
  have hleft : functions.map (Closure.relabel f) = functions :=
    (Array.map_congr_left hfunctions).trans (Array.map_id functions)
  have hright : classes.map (ClassRecord.relabel f) = classes :=
    (Array.map_congr_left hclass).trans (Array.map_id classes)
  rw [Store.relabel, hfront, hleft, hright]

end Stay

/-- Labels that are left alone leave a frame alone. -/
theorem Frame.relabel_same (frame : Frame) : frame.relabel .same = frame := by
  have hcode (code : Lambda) : code.relabel .same = code :=
    code.relabel_eq_self (fun _ => rfl) fun _ _ => rfl
  obtain ⟨kind, slots, _ | ⟨purpose, outer⟩⟩ := frame
  · rfl
  have hstays : purpose.relabel .same = purpose := by
    cases purpose with
    | block body => exact congrArg Purpose.block (Stmt.relabelAll_same body)
    | call code => exact congrArg Purpose.call (hcode code)
    | receiver code instanceId => exact congrArg (Purpose.receiver · instanceId) (hcode code)
    | superclass methods classId =>
      exact congrArg (Purpose.superclass · classId)
        (Definition.relabelAll_eq_self (fun _ => rfl) methods fun _ _ => rfl)
  exact congrArg (fun purpose => (⟨kind, slots, some ⟨purpose, outer⟩⟩ : Frame)) hstays

/-- Labels that are left alone leave a store alone. -/
theorem Store.relabel_same (s : Store) : s.relabel .same = s :=
  have hstay (c : Closure) : c.relabel .same = c :=
    Closure.relabel_eq_self (fun _ => rfl) fun _ _ => rfl
  Store.relabel_eq_self (fun frame _ => frame.relabel_same) (fun c _ => hstay c)
    fun _ _ entry _ => hstay entry.2

end Lox
