import Lox.Proofs.Dispatch.Evaluation

namespace Lox

namespace Store

variable {s s' final : Store} {classId parent receiver : Nat} {name : String} {record above : ClassRecord}
  {c method : Closure} {ids : List Nat}

/-- The nearest definition of a method from a class upwards, if there is one: that of the class itself, or
    else the nearest one from its superclass upwards. -/
inductive Nearest (s : Store) (name : String) : Nat → Option Closure → Prop
  | own {classId : Nat} {record : ClassRecord} {method : Closure}
      (hrecord : s.classes[classId]? = some record) (hown : record.methods.find? name = some method) :
      Nearest s name classId (some method)
  | nowhere {classId : Nat} {record : ClassRecord} (hrecord : s.classes[classId]? = some record)
      (hown : record.methods.find? name = none) (hfirst : record.ancestors.head? = none) :
      Nearest s name classId none
  | above {classId parent : Nat} {record : ClassRecord} {found : Option Closure}
      (hrecord : s.classes[classId]? = some record) (hown : record.methods.find? name = none)
      (hparent : record.ancestors.head? = some parent) (hfound : Nearest s name parent found) :
      Nearest s name classId found

theorem findMethod?_of_own (hrecord : s.classes[classId]? = some record)
    (hown : record.methods.find? name = some method) : s.findMethod? classId name = some method := by
  simp [findMethod?, hrecord, hown]

/-- A class without a superclass has only its own methods. -/
theorem findMethod?_of_first (hrecord : s.classes[classId]? = some record)
    (hown : record.methods.find? name = none) (hfirst : record.ancestors = []) :
    s.findMethod? classId name = none := by
  simp [findMethod?, hrecord, hown, hfirst]

/-- What a class does not define itself is looked up from its superclass on. -/
theorem findMethod?_of_below (hrecord : s.classes[classId]? = some record)
    (hown : record.methods.find? name = none) (habove : s.classes[parent]? = some above)
    (hancestors : record.ancestors = parent :: above.ancestors) :
    s.findMethod? classId name = s.findMethod? parent name := by
  simp only [findMethod?, hrecord, hown, habove, hancestors, Option.orElse_eq_orElse,
    Option.orElse_eq_or, Option.none_or, List.findSome?_cons, Option.bind_some]
  cases above.methods.find? name <;> rfl

/-- The look-up climbs to the nearest definition. -/
theorem Rooted.nearest (h : s.Rooted) (hrecord : s.classes[classId]? = some record) (name : String) :
    s.Nearest name classId (s.findMethod? classId name) := by
  -- By induction on the classes above, of which there is one less for the superclass.
  induction hlist : record.ancestors generalizing classId record with
  | nil =>
    cases hown : record.methods.find? name with
    | some method => exact findMethod?_of_own hrecord hown ▸ .own hrecord hown
    | none =>
      exact findMethod?_of_first hrecord hown hlist ▸ .nowhere hrecord hown (by rw [hlist]; rfl)
  | cons parent further ih =>
    cases hown : record.methods.find? name with
    | some method => exact findMethod?_of_own hrecord hown ▸ .own hrecord hown
    | none =>
      cases h.classes hrecord with
      | first hancestors _ => cases hlist.symm.trans hancestors
      | @below parent' above habove hancestors _ =>
        obtain ⟨rfl, rfl⟩ := List.cons.inj (hlist.symm.trans hancestors)
        rw [findMethod?_of_below hrecord hown habove hancestors]
        exact .above hrecord hown (by rw [hlist]; rfl) (ih habove rfl)

/-- The function is the method with an instance as its `this`, in a frame in front of those that the method
    was made in. -/
def Binds (s : Store) (c method : Closure) (receiver : Nat) : Prop :=
  ∃ frame, c = { method with chain := frame :: method.chain } ∧ s.kind? frame = some .this ∧
    s.slot? frame "this" = some (.set (.instance receiver))

/-- A method that is bound has the instance as its `this`. -/
theorem binds_bind (s : Store) (method : Closure) (receiver : Nat) :
    (s.bind method receiver).2.Binds (s.bind method receiver).1 method receiver := by
  refine ⟨s.frames.size, rfl, ?_, ?_⟩
  · refine (kind?_define_newFrame s .this _ method.chain _ "this" (.instance receiver)).trans ?_
    exact if_pos rfl
  · refine (slot?_define_newFrame s .this _ method.chain _ "this" "this" (.instance receiver)).trans ?_
    exact if_pos ⟨rfl, rfl⟩

theorem not_isPlain_this : ¬IsPlain "this" :=
  fun hplain => hplain.1 rfl

/-- A method stays bound to its receiver, since no step changes what `this` is. -/
theorem Binds.mono (h : s.Binds c method receiver) (hsecures : s.Secures s') :
    s'.Binds c method receiver := by
  obtain ⟨frame, hc, hkind, hslot⟩ := h
  exact ⟨frame, hc, hsecures.kinds hkind, hsecures.implicit not_isPlain_this hslot⟩

/-- A function had the receiver that it has from when it was made. -/
theorem Binds.earlier {visits : Visit → Prop} (h : s'.Binds c method receiver)
    (hsecures : s.Secures s') (hsound : s.Sound visits) (hhouses : s.Houses ids c.chain) :
    s.Binds c method receiver := by
  obtain ⟨frame, rfl, hkind, hslot⟩ := h
  obtain ⟨kind, hbefore⟩ := hhouses.kind_head rfl
  obtain rfl : kind = .this := Option.some.inj ((hsecures.kinds hbefore).symm.trans hkind)
  obtain ⟨id, hfirst⟩ := hsound.this hbefore
  have hsame := (hsecures.implicit not_isPlain_this hfirst).symm.trans hslot
  exact ⟨frame, rfl, hbefore, hfirst.trans hsame⟩

/-- Classes and functions are for good: a class keeps its superclass and its methods, and a function is
    bound to the receiver, if any, to which it was bound when it was made. -/
structure Upholds (s final : Store) : Prop where
  classes : ∀ {id : Nat} {record}, s.classes[id]? = some record → final.classes[id]? = some record
  functions : ∀ {id : Nat} {c}, s.functions[id]? = some c → final.functions[id]? = some c ∧
    ∀ method receiver, s.Binds c method receiver ↔ final.Binds c method receiver

/-- A rooted store keeps up to any later store what binding a method has seen to. -/
theorem Rooted.upholds {visits : Visit → Prop} (h : s.Rooted) (hsound : s.Sound visits)
    (hsecures : s.Secures final) : s.Upholds final where
  classes := hsecures.classes
  functions hc := ⟨hsecures.functions hc, fun _ _ =>
    ⟨fun hbinds => hbinds.mono hsecures, fun hbinds => hbinds.earlier hsecures hsound (h.functions hc)⟩⟩

end Store

/-- What comes of looking up a method for a receiver: what is found comes back as a function that binds it
    to the receiver, and otherwise the property is undefined. -/
def Machine.Delivers (m : Machine) (receiver : Nat) (name : Mark) (found : Option Closure)
    (result : EStateM.Result Halt Machine Value) : Prop :=
  match found with
  | some method => ∃ id c m', result = .ok (.function id) m' ∧ m'.store.functions[id]? = some c ∧
      m'.store.Binds c method receiver
  | none => result = .error (.error ⟨.undefinedProperty name.lexeme, name.line⟩) m

namespace Run

variable {m : Machine} {receiver : Nat} {name : Mark}

/-- A method that is bound and made a function is delivered to its receiver. -/
theorem delivers_boundMethod (m : Machine) (name : Mark) (method : Closure) (receiver : Nat) :
    m.Delivers receiver name (some method) (allocate (·.boundMethod method receiver) m) := by
  refine ⟨_, (m.store.bind method receiver).1, _, rfl, Array.getElem?_push_size, ?_⟩
  exact (Store.binds_bind m.store method receiver).mono (Store.secures_newFunction _ _)

/-- The look-up for `super` starts at the class and binds what it finds to the instance. -/
theorem superMethod_delivers {ref : Ref} {parent : Nat}
    (htarget : m.superTarget ref = .ok (parent, receiver)) :
    m.Delivers receiver name (m.store.findMethod? parent name.lexeme) (superMethod ref name m) := by
  have hrun : superMethod ref name m =
      (match m.store.findMethod? parent name.lexeme with
        | some found => allocate (·.boundMethod found receiver)
        | none => fault (.undefinedProperty name.lexeme) name.line : Run Value) m := by
    have hfirst : superTarget ref m = .ok (parent, receiver) m := by
      unfold superTarget
      rw [htarget]
      rfl
    unfold superMethod
    rw [bind_apply, hfirst]
    rfl
  rw [hrun]
  cases m.store.findMethod? parent name.lexeme with
  | none => rfl
  | some found => exact delivers_boundMethod m name found receiver

/-- A property of an instance is a field, a method bound to it, or a fault. -/
theorem property_instance (m : Machine) (id : Nat) (name : Mark) :
    property (.instance id) name m =
      (match m.store.property? id name.lexeme with
        | some (.field value) => pure value
        | some (.method found) => allocate (·.boundMethod found id)
        | none => fault (.undefinedProperty name.lexeme) name.line : Run Value) m :=
  rfl

variable {i : InstanceRecord} (hi : m.store.instances[receiver]? = some i)
include hi

/-- A field comes before any method. -/
theorem property_of_field {value : Value} (hfield : i.fields.find? name.lexeme = some value) :
    property (.instance receiver) name m = .ok value m := by
  have hfind : m.store.property? receiver name.lexeme = some (.field value) := by
    simp [Store.property?, hi, hfield]
  rw [property_instance, hfind]
  rfl

/-- Without a field, the look-up starts at the class of the instance. -/
theorem property_delivers (hfield : i.fields.find? name.lexeme = none) :
    m.Delivers receiver name (m.store.findMethod? i.classId name.lexeme)
      (property (.instance receiver) name m) := by
  have hfind : m.store.property? receiver name.lexeme =
      (m.store.findMethod? i.classId name.lexeme).map .method := by
    simp [Store.property?, hi, hfield]
  rw [property_instance, hfind]
  cases m.store.findMethod? i.classId name.lexeme with
  | none => rfl
  | some found => exact delivers_boundMethod m name found receiver

end Run

end Lox
