import Lox.Proofs.Alignment.Store

namespace Lox

/-- What the value stands for is in the store. -/
def Value.Live (s : Store) : Value → Prop
  | .function id => ∃ c, s.functions[id]? = some c
  | .class id => ∃ record, s.classes[id]? = some record
  | .instance id => ∃ i, s.instances[id]? = some i
  | _ => True

/-- What is there is still there when the store has grown. -/
theorem Value.Live.mono {s s' : Store} {value : Value} (h : value.Live s) (hgrows : s.Grows s') :
    value.Live s' := by
  cases value with
  | function id => exact h.imp fun _ => hgrows.functions
  | «class» id => exact h.imp fun _ => hgrows.classes
  | «instance» id =>
    obtain ⟨i, hi⟩ := h
    obtain ⟨i', hi', _⟩ := hgrows.instances hi
    exact ⟨i', hi'⟩
  | _ => trivial

theorem Value.live_ofLiteral (s : Store) (literal : Literal) : (ofLiteral literal).Live s := by
  cases literal <;> trivial

namespace Store

variable {s s' : Store} {ids : List Nat} {chain : Chain} {c method : Closure}

/-- Growth that leaves what the names of the language stand for in every frame that has them. -/
structure Secures (s s' : Store) : Prop extends s.Grows s' where
  implicit : ∀ {frame name slot}, ¬IsPlain name → s.slot? frame name = some slot →
    s'.slot? frame name = some slot

theorem Secures.refl (s : Store) : s.Secures s :=
  ⟨.refl s, fun _ h => h⟩

theorem Secures.trans {s₁ s₂ s₃ : Store} (h : s₁.Secures s₂) (h' : s₂.Secures s₃) : s₁.Secures s₃ :=
  ⟨h.toGrows.trans h'.toGrows, fun hname hslot => h'.implicit hname (h.implicit hname hslot)⟩

/-- A new frame gives no name of the language to an old one. -/
theorem secures_newFrame (s : Store) (kind : FrameKind) (birth : Option Birth) :
    s.Secures (s.newFrame kind birth).2 where
  toGrows := grows_newFrame s kind birth
  implicit _ hslot := by rwa [slot?_newFrame]

/-- A slot of a name like others is none of the language's own. -/
theorem secures_setSlot (s : Store) (frame : Nat) {name : String} (slot : Slot) (hplain : IsPlain name) :
    s.Secures (s.setSlot frame name slot) where
  toGrows := grows_setSlot s frame name slot
  implicit hname hslot := by
    rw [slot?_setSlot, if_neg]
    · exact hslot
    · rintro ⟨_, rfl, _⟩
      exact hname hplain

/-- A definition of a name like others keeps what `this` and `super` stand for. -/
theorem secures_define (s : Store) (chain : Chain) {name : String} (value : Value)
    (hplain : IsPlain name) : s.Secures (s.define chain name value) := by
  cases chain with
  | nil => exact .refl s
  | cons frame _ => exact secures_setSlot s frame _ hplain

/-- A declaration of a name like others keeps what `this` and `super` stand for. -/
theorem secures_declare (s : Store) (chain : Chain) {name : String} (hplain : IsPlain name) :
    s.Secures (s.declare chain name) := by
  cases chain with
  | nil => exact .refl s
  | cons frame _ => exact secures_setSlot s frame _ hplain

/-- A frame that is made with a name, whatever the name is, is no frame that was there before. -/
theorem secures_define_newFrame (s : Store) (kind : FrameKind) (birth : Option Birth) (chain : Chain)
    (name : String) (value : Value) :
    s.Secures ((s.newFrame kind birth).2.define ((s.newFrame kind birth).1 :: chain) name value) where
  toGrows := (adds_define_newFrame s kind birth chain name value).toGrows
  implicit _ hslot := by
    rw [slot?_define_newFrame, if_neg]
    · exact hslot
    · rintro ⟨rfl, _⟩
      simp [slot?] at hslot

theorem secures_newFunction (s : Store) (c : Closure) : s.Secures (s.newFunction c).2 :=
  ⟨grows_newFunction s c, fun _ h => h⟩

theorem secures_newClass (s : Store) (record : ClassRecord) : s.Secures (s.newClass record).2 :=
  ⟨grows_newClass s record, fun _ h => h⟩

theorem secures_newInstance (s : Store) (classId : Nat) : s.Secures (s.newInstance classId).2 :=
  ⟨grows_newInstance s classId, fun _ h => h⟩

theorem secures_setField (s : Store) (instanceId : Nat) (name : String) (value : Value) :
    s.Secures (s.setField instanceId name value) :=
  ⟨grows_setField s instanceId name value, fun _ h => h⟩

theorem secures_bind (s : Store) (method : Closure) (instanceId : Nat) :
    s.Secures (s.bind method instanceId).2 :=
  secures_define_newFrame s .this _ method.chain "this" (.instance instanceId)

theorem secures_boundMethod (s : Store) (method : Closure) (instanceId : Nat) :
    s.Secures (s.boundMethod method instanceId).2 :=
  (secures_bind s method instanceId).trans (secures_newFunction _ _)

/-- A class that owns a method still does when the store has grown. -/
theorem Owns.mono {classId : Nat} {name : String} (h : s.Owns classId name method)
    (hgrows : s.Grows s') : s'.Owns classId name method := by
  obtain ⟨record, hrecord, hfind⟩ := h
  exact ⟨record, hgrows.classes hrecord, hfind⟩

/-- The frames belong to the method that the code with these numbers is in: further out than its `this`,
    the first one, they are the frames that the method was made in. Outside of methods there is no frame
    of `this`. -/
inductive Houses (s : Store) (ids : List Nat) : Chain → Prop
  | outside : Houses s ids []
  | method {frame classId : Nat} {name : String} {method : Closure}
      (hkind : s.kind? frame = some .this) (howns : s.Owns classId name method)
      (hids : ids ⊆ method.code.ids) : Houses s ids (frame :: method.chain)
  | further {frame : Nat} {rest : Chain} {kind : FrameKind} (hkind : s.kind? frame = some kind)
      (hother : kind ≠ .this) (hrest : Houses s ids rest) : Houses s ids (frame :: rest)

/-- Frames that belong to a method still do when the store has grown. -/
theorem Houses.mono (h : s.Houses ids chain) (hgrows : s.Grows s') : s'.Houses ids chain := by
  induction h with
  | outside => exact .outside
  | method hkind howns hids => exact .method (hgrows.kinds hkind) (howns.mono hgrows) hids
  | further hkind hother _ ih => exact .further (hgrows.kinds hkind) hother ih

/-- Frames that belong to some code belong to a part of it. -/
theorem Houses.part {part : List Nat} (h : s.Houses ids chain) (hpart : part ⊆ ids) :
    s.Houses part chain := by
  induction h with
  | outside => exact .outside
  | method hkind howns hids => exact .method hkind howns (List.Subset.trans hpart hids)
  | further hkind hother _ ih => exact .further hkind hother ih

/-- The innermost frame of some code is in the store. -/
theorem Houses.kind_head (h : s.Houses ids chain) {frame : Nat} (hhead : chain.head? = some frame) :
    ∃ kind, s.kind? frame = some kind := by
  cases h with
  | outside => cases hhead
  | method hkind _ _ => exact ⟨_, Option.some.inj hhead ▸ hkind⟩
  | further hkind _ _ => exact ⟨_, Option.some.inj hhead ▸ hkind⟩

/-- A frame of its own for a block or a call. -/
theorem Houses.newFrame (h : s.Houses ids chain) {kind : FrameKind} (hother : kind ≠ .this)
    (birth : Option Birth) :
    (s.newFrame kind birth).2.Houses ids ((s.newFrame kind birth).1 :: chain) := by
  refine .further ?_ hother (h.mono (grows_newFrame s kind birth))
  rw [kind?_newFrame]
  exact if_pos rfl

/-- The frame at this depth is the first one of a `this`. -/
structure FirstThis (s : Store) (chain : Chain) (depth frame : Nat) : Prop where
  here : chain[depth]? = some frame
  kind : s.kind? frame = some .this
  first : ∀ {inner other}, inner < depth → chain[inner]? = some other → s.kind? other ≠ some .this

/-- Where there is a `this`, the code is in a method that was made in the frames further out. -/
theorem Houses.of_firstThis (h : s.Houses ids chain) {depth frame : Nat}
    (hthis : s.FirstThis chain depth frame) :
    ∃ classId name method, s.Owns classId name method ∧ ids ⊆ method.code.ids ∧
      chain.drop (depth + 1) = method.chain := by
  induction h generalizing depth with
  | outside => cases hthis.here
  | @method first classId name method hkind howns hids =>
    cases depth with
    | zero => exact ⟨classId, name, method, howns, hids, rfl⟩
    | succ depth => exact absurd hkind (hthis.first (Nat.succ_pos depth) rfl)
  | @further first rest kind hkind hother _ ih =>
    cases depth with
    | zero =>
      obtain rfl : first = frame := Option.some.inj hthis.here
      exact absurd (Option.some.inj (hkind.symm.trans hthis.kind)) hother
    | succ depth =>
      refine ih ⟨hthis.here, hthis.kind, fun {inner _} hinner hat => ?_⟩
      have houtward : inner + 1 < depth + 1 := Nat.succ_lt_succ hinner
      exact hthis.first houtward hat

/-- The innermost frame is there, and is not one of a superclass. -/
def OffSuper (s : Store) (chain : Chain) : Prop :=
  ∃ frame kind, chain.head? = some frame ∧ s.kind? frame = some kind ∧ kind ≠ .super

theorem OffSuper.mono (h : s.OffSuper chain) (hgrows : s.Grows s') : s'.OffSuper chain := by
  obtain ⟨frame, kind, hhead, hkind, hother⟩ := h
  exact ⟨frame, kind, hhead, hgrows.kinds hkind, hother⟩

/-- A class without a superclass has methods that were not made in a frame of a superclass. Any other
    class has above it its superclass and what that has above itself, and its methods were made in a
    frame with this superclass. -/
inductive Descends (s : Store) (record : ClassRecord) : Prop
  | first (hancestors : record.ancestors = [])
      (hmethods : ∀ {name method}, record.methods.find? name = some method → s.OffSuper method.chain)
  | below {parent : Nat} {above : ClassRecord} (habove : s.classes[parent]? = some above)
      (hancestors : record.ancestors = parent :: above.ancestors)
      (hmethods : ∀ {name method}, record.methods.find? name = some method → ∃ frame,
        method.chain.head? = some frame ∧ s.slot? frame "super" = some (.set (.class parent)))

/-- A class stays right below its superclass, whose frame nothing changes. -/
theorem Descends.mono {record : ClassRecord} (h : s.Descends record) (hsecures : s.Secures s') :
    s'.Descends record := by
  cases h with
  | first hancestors hmethods =>
    exact .first hancestors fun hfind => (hmethods hfind).mono hsecures.toGrows
  | below habove hancestors hmethods =>
    refine .below (hsecures.classes habove) hancestors fun hfind => ?_
    obtain ⟨frame, hhead, hslot⟩ := hmethods hfind
    exact ⟨frame, hhead, hsecures.implicit (fun hplain => hplain.2 rfl) hslot⟩

/-- Everything that a store refers to is in it, every class stands right below its superclass, and every
    function was made in frames that belong to the method its code is in. -/
structure Rooted (s : Store) : Prop where
  slots : ∀ {frame name slot}, s.slot? frame name = some slot → slot.value.Live s
  fields : ∀ {id : Nat} {i name value}, s.instances[id]? = some i →
    i.fields.find? name = some value → value.Live s
  instances : ∀ {id : Nat} {i}, s.instances[id]? = some i →
    ∃ record, s.classes[i.classId]? = some record
  classes : ∀ {id : Nat} {record}, s.classes[id]? = some record → s.Descends record
  functions : ∀ {id : Nat} {c}, s.functions[id]? = some c → s.Houses c.code.ids c.chain

/-- What changes only frames needs values that are there. -/
private theorem Rooted.reframe (h : s.Rooted) {frames : Array Frame}
    (hsecures : s.Secures { s with frames })
    (hslots : ∀ {frame name slot}, ({ s with frames } : Store).slot? frame name = some slot →
      slot.value.Live s) : ({ s with frames } : Store).Rooted where
  slots hslot := (hslots hslot).mono hsecures.toGrows
  fields hi hfind := (h.fields hi hfind).mono hsecures.toGrows
  instances hi := h.instances hi
  classes hrecord := (h.classes hrecord).mono hsecures
  functions hc := (h.functions hc).mono hsecures.toGrows

/-- The store of a machine that starts is rooted: there is nothing in it to refer to anything. -/
theorem rooted_globals : (empty.newFrame .global).2.Rooted where
  slots hslot := by
    rw [slot?_newFrame] at hslot
    simp [slot?, empty] at hslot
  fields hi := by simp [newFrame, empty] at hi
  instances hi := by simp [newFrame, empty] at hi
  classes hrecord := by simp [newFrame, empty] at hrecord
  functions hc := by simp [newFrame, empty] at hc

/-- A new frame refers to nothing. -/
theorem Rooted.newFrame (h : s.Rooted) (kind : FrameKind) (birth : Option Birth) :
    (s.newFrame kind birth).2.Rooted := by
  refine h.reframe (secures_newFrame s kind birth) fun {frame name slot} hslot => ?_
  have hbefore : (s.newFrame kind birth).2.slot? frame name = some slot := hslot
  rw [slot?_newFrame] at hbefore
  exact h.slots hbefore

/-- A slot of a name like others may get any value that is there. -/
theorem Rooted.setSlot (h : s.Rooted) (frame : Nat) {name : String} {slot : Slot}
    (hplain : IsPlain name) (hlive : slot.value.Live s) : (s.setSlot frame name slot).Rooted := by
  refine h.reframe (secures_setSlot s frame slot hplain) fun {other key slot'} hslot => ?_
  have hnow : (s.setSlot frame name slot).slot? other key = some slot' := hslot
  rw [slot?_setSlot] at hnow
  split at hnow
  · obtain rfl := Option.some.inj hnow
    exact hlive
  · exact h.slots hnow

/-- A name like others may be defined with any value that is there. -/
theorem Rooted.define (h : s.Rooted) (chain : Chain) {name : String} {value : Value}
    (hplain : IsPlain name) (hlive : value.Live s) : (s.define chain name value).Rooted := by
  cases chain with
  | nil => exact h
  | cons frame _ => exact h.setSlot frame hplain hlive

/-- A declaration refers to nothing. -/
theorem Rooted.declare (h : s.Rooted) (chain : Chain) {name : String} (hplain : IsPlain name) :
    (s.declare chain name).Rooted := by
  cases chain with
  | nil => exact h
  | cons frame _ => exact h.setSlot frame hplain trivial

/-- A frame of the language's own may hold any value that is there. -/
theorem Rooted.implicitFrame (h : s.Rooted) (kind : FrameKind) (birth : Option Birth) (chain : Chain)
    (name : String) {value : Value} (hlive : value.Live s) :
    ((s.newFrame kind birth).2.define ((s.newFrame kind birth).1 :: chain) name value).Rooted := by
  refine h.reframe (secures_define_newFrame s kind birth chain name value) fun {frame key slot} hslot => ?_
  have hnow :
      ((s.newFrame kind birth).2.define ((s.newFrame kind birth).1 :: chain) name value).slot? frame key =
        some slot := hslot
  rw [slot?_define_newFrame] at hnow
  split at hnow
  · obtain rfl := Option.some.inj hnow
    exact hlive
  · exact h.slots hnow

theorem Rooted.bind (h : s.Rooted) (method : Closure) {instanceId : Nat}
    (hlive : (Value.instance instanceId).Live s) : (s.bind method instanceId).2.Rooted :=
  h.implicitFrame .this _ method.chain "this" hlive

/-- A method that is bound has the frame of its `this` in front. -/
theorem Owns.houses_bind {classId : Nat} {name : String} (h : s.Owns classId name method)
    (instanceId : Nat) :
    (s.bind method instanceId).2.Houses (s.bind method instanceId).1.code.ids
      (s.bind method instanceId).1.chain := by
  refine .method ?_ (h.mono (secures_bind s method instanceId).toGrows) (List.Subset.refl _)
  refine (kind?_define_newFrame s .this _ method.chain _ "this" (.instance instanceId)).trans ?_
  exact if_pos rfl

/-- A function that belongs to its method may be added. -/
theorem Rooted.newFunction (h : s.Rooted) (hc : s.Houses c.code.ids c.chain) :
    (s.newFunction c).2.Rooted := by
  have hgrows := grows_newFunction s c
  refine ⟨fun hslot => (h.slots hslot).mono hgrows, fun hi hfind => (h.fields hi hfind).mono hgrows,
    h.instances, fun hrecord => (h.classes hrecord).mono (secures_newFunction s c),
    fun {id made} hmade => ?_⟩
  simp only [Store.newFunction, Array.getElem?_push] at hmade
  split at hmade
  · obtain rfl := Option.some.inj hmade
    exact hc.mono hgrows
  · exact (h.functions hmade).mono hgrows

/-- A class right below its superclass may be added. -/
theorem Rooted.newClass (h : s.Rooted) {record : ClassRecord} (hrecord : s.Descends record) :
    (s.newClass record).2.Rooted := by
  have hsecures := secures_newClass s record
  have hgrows := hsecures.toGrows
  refine ⟨fun hslot => (h.slots hslot).mono hgrows, fun hi hfind => (h.fields hi hfind).mono hgrows,
    fun hi => (h.instances hi).imp fun _ => hgrows.classes, fun {id made} hmade => ?_,
    fun hc => (h.functions hc).mono hgrows⟩
  simp only [Store.newClass, Array.getElem?_push] at hmade
  split at hmade
  · obtain rfl := Option.some.inj hmade
    exact hrecord.mono hsecures
  · exact (h.classes hmade).mono hsecures

/-- An instance of a class that is there may be added. -/
theorem Rooted.newInstance (h : s.Rooted) {classId : Nat} (hlive : (Value.class classId).Live s) :
    (s.newInstance classId).2.Rooted := by
  have hsecures := secures_newInstance s classId
  have hgrows := hsecures.toGrows
  refine ⟨fun hslot => (h.slots hslot).mono hgrows, fun {id i name value} hi hfind => ?_,
    fun {id i} hi => ?_, fun hrecord => (h.classes hrecord).mono hsecures,
    fun hc => (h.functions hc).mono hgrows⟩
  · simp only [Store.newInstance, Array.getElem?_push] at hi
    split at hi
    · obtain rfl := Option.some.inj hi
      cases hfind
    · exact (h.fields hi hfind).mono hgrows
  · simp only [Store.newInstance, Array.getElem?_push] at hi
    split at hi
    · obtain rfl := Option.some.inj hi
      exact hlive
    · exact h.instances hi

/-- A field may get any value that is there. -/
theorem Rooted.setField (h : s.Rooted) (instanceId : Nat) (name : String) {value : Value}
    (hlive : value.Live s) : (s.setField instanceId name value).Rooted := by
  have hsecures := secures_setField s instanceId name value
  have hgrows := hsecures.toGrows
  -- The instances are those of before, perhaps with one field more.
  have hbefore {id : Nat} {i : InstanceRecord}
      (hi : (s.setField instanceId name value).instances[id]? = some i) :
      ∃ old, s.instances[id]? = some old ∧ i.classId = old.classId ∧
        ∀ key, i.fields.find? key = old.fields.find? key ∨ i.fields.find? key = some value := by
    simp only [Store.setField, Array.getElem?_modify] at hi
    split at hi
    · obtain ⟨old, hold, rfl⟩ := Option.map_eq_some_iff.mp hi
      refine ⟨old, hold, rfl, fun key => ?_⟩
      rw [Table.find?_insert]
      split
      · exact .inr rfl
      · exact .inl rfl
    · exact ⟨i, hi, rfl, fun _ => .inl rfl⟩
  refine ⟨fun hslot => (h.slots hslot).mono hgrows, fun {id i key value'} hi hfind => ?_,
    fun {id i} hi => ?_, fun hrecord => (h.classes hrecord).mono hsecures,
    fun hc => (h.functions hc).mono hgrows⟩
  · obtain ⟨old, hold, _, hfields⟩ := hbefore hi
    rcases hfields key with hsame | hnew
    · exact (h.fields hold (hsame ▸ hfind)).mono hgrows
    · obtain rfl := Option.some.inj (hnew.symm.trans hfind)
      exact hlive.mono hgrows
  · obtain ⟨old, hold, hclass, _⟩ := hbefore hi
    rw [hclass]
    exact h.instances hold

/-- A method of a class that is there may be bound and made a function. -/
theorem Rooted.boundMethod (h : s.Rooted) {classId : Nat} {name : String}
    (howns : s.Owns classId name method) {instanceId : Nat}
    (hlive : (Value.instance instanceId).Live s) : (s.boundMethod method instanceId).2.Rooted :=
  (h.bind method hlive).newFunction (howns.houses_bind instanceId)

/-- What is found at a depth is there. -/
theorem Rooted.getAt? (h : s.Rooted) {depth : Nat} {name : String} {value : Value}
    (hget : s.getAt? chain depth name = some value) : value.Live s := by
  obtain ⟨slot, hslot, rfl⟩ := Option.map_eq_some_iff.mp hget
  obtain ⟨frame, _, hfind⟩ := Option.bind_eq_some_iff.mp hslot
  exact h.slots hfind

/-- What is found by search is there. -/
theorem Rooted.get (h : s.Rooted) {name : String} {value : Value}
    (hget : s.get chain name = .ok value) : value.Live s := by
  unfold Store.get at hget
  split at hget
  · cases hget
  · cases hget
  · rename_i value' hslot
    cases hget
    obtain ⟨frame, _, hfind⟩ := Option.bind_eq_some_iff.mp hslot
    exact h.slots hfind

end Store

end Lox
