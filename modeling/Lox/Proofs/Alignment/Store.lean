import Lox.Proofs.Alignment.Frames
import Lox.Proofs.Binding.Sound

namespace Lox

/-- A closure whose code a walk visits with scopes that its frames are in line with. An initializer
    has the frame of its `this` innermost. -/
def ClosureSound (visits : Visit → Prop) (s : Store) (c : Closure) : Prop :=
  ∃ role r, visits ⟨.code role c.code, r⟩ ∧ s.Aligned r.shapes c.chain ∧
    (c.initializer = true → (r.shapes.map Shape.kind).head? = some .this)

/-- A method that is not bound yet: its code is that of a method of the class around it, and the frame
    of its `this` is still to come. -/
def MethodSound (visits : Visit → Prop) (s : Store) (c : Closure) : Prop :=
  ∃ role r methods shapes, visits ⟨.code role c.code, r⟩ ∧
    (∃ method ∈ methods, method.code = c.code) ∧
    r.shapes = .implicit (.this methods) "this" :: shapes ∧ s.Aligned shapes c.chain

variable {visits : Visit → Prop} {s s' : Store} {c : Closure}

/-- Growth of the store keeps a closure in line with the place of its code. -/
theorem ClosureSound.mono (h : ClosureSound visits s c) (hgrows : s.Grows s') :
    ClosureSound visits s' c := by
  obtain ⟨role, r, hvisit, haligned, hinit⟩ := h
  exact ⟨role, r, hvisit, haligned.mono hgrows, hinit⟩

/-- Growth of the store keeps a method in line with the place of its code. -/
theorem MethodSound.mono (h : MethodSound visits s c) (hgrows : s.Grows s') :
    MethodSound visits s' c := by
  obtain ⟨role, r, methods, shapes, hvisit, hmethod, hshapes, haligned⟩ := h
  exact ⟨role, r, methods, shapes, hvisit, hmethod, hshapes, haligned.mono hgrows⟩

namespace Store

/-- The closures of a store are in line with the program, the first frame is the global one, every
    frame of `this` holds an instance, and every frame of `super` a class, which is the one that it was
    made with. -/
structure Sound (visits : Visit → Prop) (s : Store) : Prop where
  global : s.kind? globalFrame = some .global
  functions : ∀ {id : Nat} {c}, s.functions[id]? = some c → ClosureSound visits s c
  methods : ∀ {id : Nat} {record name c}, s.classes[id]? = some record →
    record.methods.find? name = some c → MethodSound visits s c
  this : ∀ {frame}, s.kind? frame = some .this →
    ∃ id, s.slot? frame "this" = some (.set (.instance id))
  super : ∀ {frame}, s.kind? frame = some .super →
    ∃ id, s.slot? frame "super" = some (.set (.class id))
  own : ∀ frame, s.HoldsOwn frame

/-- What is sound for some places is sound for more. -/
theorem Sound.visitsMono {more : Visit → Prop} (h : s.Sound visits)
    (hsub : ∀ v, visits v → more v) : s.Sound more where
  global := h.global
  functions hc := by
    obtain ⟨role, r, hvisit, hrest⟩ := h.functions hc
    exact ⟨role, r, hsub _ hvisit, hrest⟩
  methods hrecord hc := by
    obtain ⟨role, r, methods, shapes, hvisit, hrest⟩ := h.methods hrecord hc
    exact ⟨role, r, methods, shapes, hsub _ hvisit, hrest⟩
  this := h.this
  super := h.super
  own := h.own

/-- A store with nothing but the global frame is sound. -/
theorem sound_globals : (empty.newFrame .global).2.Sound visits where
  global := rfl
  functions hc := by simp [newFrame, empty] at hc
  methods hrecord := by simp [newFrame, empty] at hrecord
  this hthis := by
    rw [kind?_newFrame] at hthis
    split at hthis
    · cases hthis
    · simp [kind?, empty] at hthis
  super hsuper := by
    rw [kind?_newFrame] at hsuper
    split at hsuper
    · cases hsuper
    · simp [kind?, empty] at hsuper
  own frame birth name value hbirth _ := by
    rw [birth?_newFrame] at hbirth
    split at hbirth
    · cases hbirth
    · simp [birth?, empty] at hbirth

/-- A frame of a block or a call holds nothing that has to be sound. -/
theorem Sound.newFrame (h : s.Sound visits) {kind : ScopeKind}
    (hkind : kind = .block ∨ kind = .function) {birth : Birth} (hnone : birth.purpose.held? = none) :
    (s.newFrame kind.frame (some birth)).2.Sound visits := by
  have hgrows := grows_newFrame s kind.frame (some birth)
  refine ⟨hgrows.kinds h.global, fun hc => (h.functions hc).mono hgrows,
    fun hrecord hc => (h.methods hrecord hc).mono hgrows, fun hthis => ?_, fun hsuper => ?_,
    fun frame birth' name value hbirth hheld => ?_⟩
  · rw [kind?_newFrame] at hthis
    rw [slot?_newFrame]
    split at hthis
    · rcases hkind with rfl | rfl <;> cases hthis
    · exact h.this hthis
  · rw [kind?_newFrame] at hsuper
    rw [slot?_newFrame]
    split at hsuper
    · rcases hkind with rfl | rfl <;> cases hsuper
    · exact h.super hsuper
  · rw [birth?_newFrame] at hbirth
    rw [slot?_newFrame]
    split at hbirth
    · obtain rfl := Option.some.inj hbirth
      rw [hnone] at hheld
      cases hheld
    · exact h.own frame birth' name value hbirth hheld

/-- What a frame is made with has a name that the language introduces itself. -/
theorem not_plain_of_held {purpose : Purpose} {name : String} {value : Value}
    (h : purpose.held? = some (name, value)) : ¬IsPlain name := by
  cases purpose with
  | receiver code instanceId =>
    cases h
    exact fun hplain => hplain.1 rfl
  | superclass methods classId =>
    cases h
    exact fun hplain => hplain.2 rfl
  | _ => cases h

/-- A slot of a name like others holds nothing that has to be sound. -/
theorem Sound.setSlot (h : s.Sound visits) (frame : Nat) {name : String} (slot : Slot)
    (hplain : IsPlain name) : (s.setSlot frame name slot).Sound visits := by
  have hgrows := grows_setSlot s frame name slot
  have hsame (other : Nat) {key : String} (hkey : name ≠ key) :
      (s.setSlot frame name slot).slot? other key = s.slot? other key := by
    rw [slot?_setSlot, if_neg fun hall => hkey hall.2.1.symm]
  refine ⟨hgrows.kinds h.global, fun hc => (h.functions hc).mono hgrows,
    fun hrecord hc => (h.methods hrecord hc).mono hgrows, fun hthis => ?_, fun hsuper => ?_,
    fun other birth key value hbirth hheld => ?_⟩
  · rw [kind?_setSlot] at hthis
    rw [hsame _ hplain.1]
    exact h.this hthis
  · rw [kind?_setSlot] at hsuper
    rw [hsame _ hplain.2]
    exact h.super hsuper
  · rw [birth?_setSlot] at hbirth
    have hkey : name ≠ key := fun hkey => not_plain_of_held hheld (hkey ▸ hplain)
    rw [hsame _ hkey]
    exact h.own other birth key value hbirth hheld

/-- A definition of a name like others keeps the store sound. -/
theorem Sound.define (h : s.Sound visits) (chain : Chain) {name : String} (value : Value)
    (hplain : IsPlain name) : (s.define chain name value).Sound visits := by
  cases chain with
  | nil => exact h
  | cons frame _ => exact h.setSlot frame _ hplain

/-- A declaration of a name like others keeps the store sound. -/
theorem Sound.declare (h : s.Sound visits) (chain : Chain) {name : String}
    (hplain : IsPlain name) : (s.declare chain name).Sound visits := by
  cases chain with
  | nil => exact h
  | cons frame _ => exact h.setSlot frame _ hplain

/-- The slot of a frame that is made and given its one name. -/
theorem slot?_define_newFrame (s : Store) (kind : FrameKind) (birth : Option Birth) (chain : Chain)
    (frame : Nat) (name key : String) (value : Value) :
    ((s.newFrame kind birth).2.define ((s.newFrame kind birth).1 :: chain) name value).slot? frame key =
      if frame = s.frames.size ∧ key = name then some (.set value) else s.slot? frame key := by
  show ((s.newFrame kind birth).2.setSlot s.frames.size name (.set value)).slot? frame key = _
  rw [slot?_setSlot, slot?_newFrame, kind?_newFrame]
  by_cases hframe : frame = s.frames.size
  · simp [hframe]
  · simp [hframe, Ne.symm hframe]

/-- What the frames are for when a frame is made and gets a name. -/
theorem kind?_define_newFrame (s : Store) (kind : FrameKind) (birth : Option Birth) (chain : Chain)
    (frame : Nat) (name : String) (value : Value) :
    ((s.newFrame kind birth).2.define ((s.newFrame kind birth).1 :: chain) name value).kind? frame =
      if frame = s.frames.size then some kind else s.kind? frame := by
  show ((s.newFrame kind birth).2.setSlot s.frames.size name (.set value)).kind? frame = _
  rw [kind?_setSlot, kind?_newFrame]

/-- How the frames came to be when a frame is made and gets a name. -/
theorem birth?_define_newFrame (s : Store) (kind : FrameKind) (birth : Option Birth) (chain : Chain)
    (frame : Nat) (name : String) (value : Value) :
    ((s.newFrame kind birth).2.define ((s.newFrame kind birth).1 :: chain) name value).birth? frame =
      if frame = s.frames.size then birth else s.birth? frame := by
  show ((s.newFrame kind birth).2.setSlot s.frames.size name (.set value)).birth? frame = _
  rw [birth?_setSlot, birth?_newFrame]

/-- A frame of `this` is made together with its instance, and one of `super` with its class. -/
theorem Sound.implicitFrame (h : s.Sound visits) (kind : FrameKind) {birth : Birth} {name : String}
    {value : Value} (hheld : birth.purpose.held? = some (name, value))
    (hthis : kind = .this → name = "this" ∧ ∃ id, value = .instance id)
    (hsuper : kind = .super → name = "super" ∧ ∃ id, value = .class id) (chain : Chain) :
    ((s.newFrame kind (some birth)).2.define ((s.newFrame kind (some birth)).1 :: chain) name
      value).Sound visits := by
  have hgrows := (adds_define_newFrame s kind (some birth) chain name value).toGrows
  refine ⟨hgrows.kinds h.global, fun hc => (h.functions hc).mono hgrows,
    fun hrecord hc => (h.methods hrecord hc).mono hgrows, fun {frame} hkind => ?_,
    fun {frame} hkind => ?_, fun frame birth' key value' hbirth hheld' => ?_⟩
  · rw [kind?_define_newFrame] at hkind
    rw [slot?_define_newFrame]
    by_cases hframe : frame = s.frames.size
    · obtain ⟨rfl, id, rfl⟩ := hthis (by simpa [hframe] using hkind)
      exact ⟨id, by simp [hframe]⟩
    · rw [if_neg hframe] at hkind
      simpa [hframe] using h.this hkind
  · rw [kind?_define_newFrame] at hkind
    rw [slot?_define_newFrame]
    by_cases hframe : frame = s.frames.size
    · obtain ⟨rfl, id, rfl⟩ := hsuper (by simpa [hframe] using hkind)
      exact ⟨id, by simp [hframe]⟩
    · rw [if_neg hframe] at hkind
      simpa [hframe] using h.super hkind
  · rw [birth?_define_newFrame] at hbirth
    rw [slot?_define_newFrame]
    by_cases hframe : frame = s.frames.size
    · rw [if_pos hframe] at hbirth
      obtain rfl := Option.some.inj hbirth
      obtain ⟨rfl, rfl⟩ := Prod.mk.inj (Option.some.inj (hheld.symm.trans hheld'))
      exact if_pos ⟨hframe, rfl⟩
    · rw [if_neg hframe] at hbirth
      rw [if_neg fun hnew => hframe hnew.1]
      exact h.own frame birth' key value' hbirth hheld'

/-- A bound method comes with a frame that holds its instance, which makes the frame sound. -/
theorem Sound.bind (h : s.Sound visits) (method : Closure) (instanceId : Nat) :
    (s.bind method instanceId).2.Sound visits :=
  h.implicitFrame .this rfl (fun _ => ⟨rfl, instanceId, rfl⟩) (fun hkind => nomatch hkind)
    method.chain

/-- A frame that holds its one name is in line with the scope of that name. -/
theorem Aligned.implicitFrame (hglobal : s.kind? globalFrame = some .global) {shapes : List Shape}
    {chain : Chain} (h : s.Aligned shapes chain) {opening : Opening} {purpose : Purpose}
    (hsuits : purpose.Suits opening) (name : String) (value : Value) :
    let made := s.newFrame opening.kind.frame (some ⟨purpose, chain⟩)
    (made.2.define (made.1 :: chain) name value).Aligned (.implicit opening name :: shapes)
      (made.1 :: chain) := by
  intro made
  have hgrows := (adds_define_newFrame s opening.kind.frame (some ⟨purpose, chain⟩) chain name value).toGrows
  refine ⟨?_, fun key hkey => ?_, h.mono hgrows⟩
  · exact (instance_newFrame s hsuits (h.lt_size hglobal)).mono (grows_define made.2 _ name value)
  · have hname : key = name := by
      simpa [Shape.implicit, Shape.settle, Shape.opened] using hkey
    unfold Has
    rw [slot?_define_newFrame]
    simp [made, Store.newFrame, hname]

/-- A method becomes a sound closure when it is bound. -/
theorem bind_closureSound (hglobal : s.kind? globalFrame = some .global) {method : Closure}
    (h : MethodSound visits s method) (instanceId : Nat) :
    ClosureSound visits (s.bind method instanceId).2 (s.bind method instanceId).1 := by
  obtain ⟨role, r, methods, shapes, hvisit, hmethod, hshapes, haligned⟩ := h
  have hsuits : (Purpose.receiver method.code instanceId).Suits (.this methods) := hmethod
  have hinside := haligned.implicitFrame hglobal hsuits "this" (.instance instanceId)
  refine ⟨role, r, hvisit, hshapes ▸ hinside, fun _ => ?_⟩
  rw [hshapes]
  rfl

/-- A function in line with the place of its code keeps the store sound. -/
theorem Sound.newFunction (h : s.Sound visits) (hc : ClosureSound visits s c) :
    (s.newFunction c).2.Sound visits := by
  have hgrows := grows_newFunction s c
  refine ⟨h.global, fun {id made} hmade => ?_,
    fun hrecord hm => (h.methods hrecord hm).mono hgrows, h.this, h.super, h.own⟩
  simp only [Store.newFunction, Array.getElem?_push] at hmade
  split at hmade
  · obtain rfl := Option.some.inj hmade
    exact hc.mono hgrows
  · exact (h.functions hmade).mono hgrows

/-- A class whose methods are in line with the places of their code keeps the store sound. -/
theorem Sound.newClass (h : s.Sound visits) (record : ClassRecord)
    (hmethods : ∀ {name c}, record.methods.find? name = some c → MethodSound visits s c) :
    (s.newClass record).2.Sound visits := by
  have hgrows := grows_newClass s record
  refine ⟨h.global, fun hc => (h.functions hc).mono hgrows, fun {id made name c} hmade hc => ?_,
    h.this, h.super, h.own⟩
  simp only [Store.newClass, Array.getElem?_push] at hmade
  split at hmade
  · obtain rfl := Option.some.inj hmade
    exact (hmethods hc).mono hgrows
  · exact (h.methods hmade hc).mono hgrows

/-- Instances hold nothing that has to be sound. -/
theorem Sound.newInstance (h : s.Sound visits) (classId : Nat) :
    (s.newInstance classId).2.Sound visits :=
  have hgrows := grows_newInstance s classId
  ⟨h.global, fun hc => (h.functions hc).mono hgrows,
    fun hrecord hc => (h.methods hrecord hc).mono hgrows, h.this, h.super, h.own⟩

theorem Sound.setField (h : s.Sound visits) (instanceId : Nat) (name : String) (value : Value) :
    (s.setField instanceId name value).Sound visits :=
  have hgrows := grows_setField s instanceId name value
  ⟨h.global, fun hc => (h.functions hc).mono hgrows,
    fun hrecord hc => (h.methods hrecord hc).mono hgrows, h.this, h.super, h.own⟩

/-- A method that is bound and made a function keeps the store sound. -/
theorem Sound.boundMethod (h : s.Sound visits) {method : Closure}
    (hmethod : MethodSound visits s method) (instanceId : Nat) :
    (s.boundMethod method instanceId).2.Sound visits :=
  (h.bind method instanceId).newFunction (bind_closureSound h.global hmethod instanceId)

/-- The class itself has the method under the name. -/
def Owns (s : Store) (classId : Nat) (name : String) (method : Closure) : Prop :=
  ∃ record, s.classes[classId]? = some record ∧ record.methods.find? name = some method

/-- What is found is a method of some class. -/
theorem owns_of_findMethod? {classId : Nat} {name : String} (h : s.findMethod? classId name = some c) :
    ∃ owner, s.Owns owner name c := by
  unfold Store.findMethod? at h
  split at h
  · cases h
  · rename_i record hrecord
    simp only [Option.orElse_eq_orElse, Option.orElse_eq_or, Option.or_eq_some_iff] at h
    rcases h with hown | ⟨_, habove⟩
    · exact ⟨classId, record, hrecord, hown⟩
    · obtain ⟨ancestor, _, hancestor⟩ := List.exists_of_findSome?_eq_some habove
      obtain ⟨above, habove, hfind⟩ := Option.bind_eq_some_iff.mp hancestor
      exact ⟨ancestor, above, habove, hfind⟩

/-- A method that is found on an instance is owned by a class. -/
theorem owns_of_property? {instanceId : Nat} {name : String}
    (h : s.property? instanceId name = some (.method c)) : ∃ owner, s.Owns owner name c := by
  obtain ⟨record, _, hproperty⟩ := Option.bind_eq_some_iff.mp h
  simp only [Option.orElse_eq_orElse, Option.orElse_eq_or, Option.or_eq_some_iff] at hproperty
  rcases hproperty with hfield | ⟨_, hmethod⟩
  · obtain ⟨value, _, hvalue⟩ := Option.map_eq_some_iff.mp hfield
    cases hvalue
  · obtain ⟨found, hfound, hsame⟩ := Option.map_eq_some_iff.mp hmethod
    cases hsame
    exact owns_of_findMethod? hfound

/-- A method that is found in a class is sound, since some class owns it. -/
theorem Sound.findMethod? (h : s.Sound visits) {classId : Nat} {name : String}
    (hfind : s.findMethod? classId name = some c) : MethodSound visits s c := by
  obtain ⟨_, record, hrecord, hown⟩ := owns_of_findMethod? hfind
  exact h.methods hrecord hown

/-- A method that is found on an instance is sound, since some class owns it. -/
theorem Sound.property? (h : s.Sound visits) {instanceId : Nat} {name : String}
    (hfind : s.property? instanceId name = some (.method c)) : MethodSound visits s c := by
  obtain ⟨_, record, hrecord, hown⟩ := owns_of_property? hfind
  exact h.methods hrecord hown

/-- The frame in view of an aligned chain is the one of the innermost scope. -/
theorem Aligned.head_kind {shapes : List Shape} {chain : Chain} (h : s.Aligned shapes chain)
    {kind : ScopeKind} (hkind : (shapes.map Shape.kind).head? = some kind) :
    ∃ frame, chain[0]? = some frame ∧ s.kind? frame = some kind.frame := by
  cases shapes with
  | nil => cases hkind
  | cons shape shapes =>
    obtain rfl : shape.kind = kind := Option.some.inj hkind
    have hinnermost : (shape :: shapes)[0]? = some shape := rfl
    obtain ⟨frame, hframe, hinstance, _⟩ := h.at hinnermost
    exact ⟨frame, hframe, hinstance.kind⟩

end Store

/-- An initializer has its instance at hand. -/
theorem ClosureSound.this (h : ClosureSound visits s c) (hsound : s.Sound visits)
    (hinit : c.initializer = true) : ∃ id, s.getAt? c.chain 0 "this" = some (.instance id) := by
  obtain ⟨_, r, _, haligned, hhead⟩ := h
  obtain ⟨frame, hframe, hkind⟩ := haligned.head_kind (hhead hinit)
  obtain ⟨id, hslot⟩ := hsound.this hkind
  exact ⟨id, Store.getAt?_of_slot hframe hslot⟩

end Lox
