import Lox.Store.Object

namespace Lox

/-- The frame whatever it was made for. -/
def Frame.withoutBirth (frame : Frame) : Frame :=
  { frame with birth := none }

namespace Store

/-- What the frame was made for. -/
def kind? (s : Store) (frame : Nat) : Option FrameKind :=
  s.frames[frame]?.map Frame.kind

/-- How the frame came to be. -/
def birth? (s : Store) (frame : Nat) : Option Birth :=
  s.frames[frame]?.bind Frame.birth

/-- The frame has the name, with or without a value. -/
def Has (s : Store) (frame : Nat) (name : String) : Prop :=
  (s.slot? frame name).isSome

/-- The frames once there is one more: the new one has the next number, and no old one has changed.
    -/
theorem frames_newFrame (s : Store) (kind : FrameKind) (birth : Option Birth) (frame : Nat) :
    (s.newFrame kind birth).2.frames[frame]? =
      if frame = s.frames.size then some ⟨kind, .empty, birth⟩ else s.frames[frame]? := by
  simp only [newFrame, Array.getElem?_push]

/-- What the frames are for once there is one more. -/
theorem kind?_newFrame (s : Store) (kind : FrameKind) (birth : Option Birth) (frame : Nat) :
    (s.newFrame kind birth).2.kind? frame =
      if frame = s.frames.size then some kind else s.kind? frame := by
  unfold kind?
  rw [frames_newFrame]
  split <;> rfl

/-- How the frames came to be once there is one more. -/
theorem birth?_newFrame (s : Store) (kind : FrameKind) (birth : Option Birth) (frame : Nat) :
    (s.newFrame kind birth).2.birth? frame = if frame = s.frames.size then birth else s.birth? frame := by
  unfold birth?
  rw [frames_newFrame]
  split <;> rfl

theorem kind?_size (s : Store) : s.kind? s.frames.size = none := by
  simp [kind?]

theorem lt_size_of_kind? {s : Store} {frame : Nat} (h : (s.kind? frame).isSome) :
    frame < s.frames.size := by
  simpa [kind?] using h

/-- A new frame has no name, so no slot is found that was not there before. -/
theorem slot?_newFrame (s : Store) (kind : FrameKind) (birth : Option Birth) (frame : Nat) (name : String) :
    (s.newFrame kind birth).2.slot? frame name = s.slot? frame name := by
  unfold slot?
  rw [frames_newFrame]
  by_cases h : frame = s.frames.size
  · simp [h]
  · simp [h]

/-- Slots that are set do not change what a frame is for. -/
theorem kind?_setSlot (s : Store) (frame other : Nat) (name : String) (slot : Slot) :
    (s.setSlot frame name slot).kind? other = s.kind? other := by
  simp only [kind?, setSlot, Array.getElem?_modify]
  cases hframe : s.frames[other]? with
  | none => simp
  | some f => by_cases h : frame = other <;> simp [h]

/-- Slots that are set do not change how a frame came to be. -/
theorem birth?_setSlot (s : Store) (frame other : Nat) (name : String) (slot : Slot) :
    (s.setSlot frame name slot).birth? other = s.birth? other := by
  simp only [birth?, setSlot, Array.getElem?_modify]
  cases hframe : s.frames[other]? with
  | none => simp
  | some f => by_cases h : frame = other <;> simp [h]

/-- A slot that is set is found under its name in its frame, and every other look-up finds what it
    found before. -/
theorem slot?_setSlot (s : Store) (frame other : Nat) (name key : String) (slot : Slot) :
    (s.setSlot frame name slot).slot? other key =
      if frame = other ∧ key = name ∧ (s.kind? frame).isSome then some slot
      else s.slot? other key := by
  by_cases hsame : frame = other
  · subst hsame
    simp only [slot?, setSlot, Array.getElem?_modify, if_true, kind?]
    cases hframe : s.frames[frame]? with
    | none => simp
    | some f => simp [Table.find?_insert]
  · simp [slot?, setSlot, Array.getElem?_modify, hsame]

/-- A slot that is set brings its name into its frame, and no other name into any. -/
theorem has_setSlot {s : Store} {frame other : Nat} {name key : String} {slot : Slot} :
    (s.setSlot frame name slot).Has other key ↔
      s.Has other key ∨ (frame = other ∧ key = name ∧ (s.kind? frame).isSome) := by
  unfold Has
  rw [slot?_setSlot]
  split
  · rename_i h
    exact iff_of_true rfl (.inr h)
  · rename_i h
    simp [h]

/-- One store is reached from another: frames keep what they are for, how they came to be and every
    name they have, functions and classes stay as they are, and instances stay of their class. -/
structure Grows (s s' : Store) : Prop where
  kinds : ∀ {frame kind}, s.kind? frame = some kind → s'.kind? frame = some kind
  births : ∀ {frame birth}, s.birth? frame = some birth → s'.birth? frame = some birth
  names : ∀ {frame name}, s.Has frame name → s'.Has frame name
  functions : ∀ {id : Nat} {c}, s.functions[id]? = some c → s'.functions[id]? = some c
  classes : ∀ {id : Nat} {c}, s.classes[id]? = some c → s'.classes[id]? = some c
  instances : ∀ {id : Nat} {i}, s.instances[id]? = some i →
    ∃ i', s'.instances[id]? = some i' ∧ i'.classId = i.classId

theorem Grows.refl (s : Store) : s.Grows s :=
  ⟨id, id, id, id, id, fun h => ⟨_, h, rfl⟩⟩

/-- What is reached from what is reached is reached. -/
theorem Grows.trans {s₁ s₂ s₃ : Store} (h : s₁.Grows s₂) (h' : s₂.Grows s₃) : s₁.Grows s₃ where
  kinds hk := h'.kinds (h.kinds hk)
  births hb := h'.births (h.births hb)
  names hn := h'.names (h.names hn)
  functions hf := h'.functions (h.functions hf)
  classes hc := h'.classes (h.classes hc)
  instances hi := by
    obtain ⟨i₂, h₂, hclass₂⟩ := h.instances hi
    obtain ⟨i₃, h₃, hclass₃⟩ := h'.instances h₂
    exact ⟨i₃, h₃, hclass₃.trans hclass₂⟩

/-- What an array holds it still holds when something is pushed. -/
private theorem getElem?_push_of_some {α : Type} {xs : Array α} {i : Nat} {x : α} (y : α)
    (h : xs[i]? = some x) : (xs.push y)[i]? = some x := by
  obtain ⟨hlt, _⟩ := Array.getElem?_eq_some_iff.mp h
  rw [Array.getElem?_push_lt hlt, ← h, Array.getElem?_eq_getElem hlt]

/-- A new frame takes nothing from a store. -/
theorem grows_newFrame (s : Store) (kind : FrameKind) (birth : Option Birth) :
    s.Grows (s.newFrame kind birth).2 where
  kinds {frame k} hk := by
    have hold : frame ≠ s.frames.size := by
      rintro rfl
      simp [kind?_size] at hk
    rw [kind?_newFrame, if_neg hold, hk]
  births {frame b} hb := by
    have hold : frame ≠ s.frames.size := by
      rintro rfl
      simp [birth?] at hb
    rw [birth?_newFrame, if_neg hold, hb]
  names h := by
    unfold Has
    rw [slot?_newFrame]
    exact h
  functions := id
  classes := id
  instances h := ⟨_, h, rfl⟩

/-- A slot that is set takes no name from its frame, and the value of no other name. -/
theorem grows_setSlot (s : Store) (frame : Nat) (name : String) (slot : Slot) :
    s.Grows (s.setSlot frame name slot) where
  kinds hk := by rw [kind?_setSlot, hk]
  births hb := by rw [birth?_setSlot, hb]
  names h := has_setSlot.mpr (.inl h)
  functions := id
  classes := id
  instances h := ⟨_, h, rfl⟩

/-- A new function leaves the old ones as they are. -/
theorem grows_newFunction (s : Store) (c : Closure) : s.Grows (s.newFunction c).2 where
  kinds := id
  births := id
  names := id
  functions h := getElem?_push_of_some c h
  classes := id
  instances h := ⟨_, h, rfl⟩

/-- A new class leaves the old ones as they are. -/
theorem grows_newClass (s : Store) (c : ClassRecord) : s.Grows (s.newClass c).2 where
  kinds := id
  births := id
  names := id
  functions := id
  classes h := getElem?_push_of_some c h
  instances h := ⟨_, h, rfl⟩

theorem grows_newInstance (s : Store) (classId : Nat) : s.Grows (s.newInstance classId).2 where
  kinds := id
  births := id
  names := id
  functions := id
  classes := id
  instances h := ⟨_, getElem?_push_of_some _ h, rfl⟩

theorem grows_setField (s : Store) (instanceId : Nat) (name : String) (value : Value) :
    s.Grows (s.setField instanceId name value) where
  kinds := id
  births := id
  names := id
  functions := id
  classes := id
  instances {id i} h := by
    simp only [setField, Array.getElem?_modify, h]
    by_cases hsame : instanceId = id <;> simp [hsame]

/-- Growth that leaves the names of every frame as they are, except those of new frames. -/
structure Adds (s s' : Store) : Prop extends s.Grows s' where
  noNames : ∀ {frame name}, (s.kind? frame).isSome → s'.Has frame name → s.Has frame name

/-- Growth that names nothing in old frames, in two parts. -/
theorem Adds.trans {s₁ s₂ s₃ : Store} (h : s₁.Adds s₂) (h' : s₂.Adds s₃) : s₁.Adds s₃ where
  toGrows := h.toGrows.trans h'.toGrows
  noNames hold hnow := by
    obtain ⟨kind, hkind⟩ := Option.isSome_iff_exists.mp hold
    have hmiddle := h.kinds hkind
    exact h.noNames hold (h'.noNames (by simp [hmiddle]) hnow)

/-- A new frame brings no name into an old one. -/
theorem adds_newFrame (s : Store) (kind : FrameKind) (birth : Option Birth) :
    s.Adds (s.newFrame kind birth).2 where
  toGrows := grows_newFrame s kind birth
  noNames _ h := by
    unfold Has at h ⊢
    rwa [slot?_newFrame] at h

theorem adds_newFunction (s : Store) (c : Closure) : s.Adds (s.newFunction c).2 :=
  ⟨grows_newFunction s c, fun _ h => h⟩

theorem adds_newClass (s : Store) (c : ClassRecord) : s.Adds (s.newClass c).2 :=
  ⟨grows_newClass s c, fun _ h => h⟩

theorem adds_newInstance (s : Store) (classId : Nat) : s.Adds (s.newInstance classId).2 :=
  ⟨grows_newInstance s classId, fun _ h => h⟩

theorem adds_setField (s : Store) (instanceId : Nat) (name : String) (value : Value) :
    s.Adds (s.setField instanceId name value) :=
  ⟨grows_setField s instanceId name value, fun _ h => h⟩

/-- A slot that is there already can be set again. -/
theorem adds_setSlot {s : Store} {frame : Nat} {name : String} (slot : Slot)
    (h : s.Has frame name) : s.Adds (s.setSlot frame name slot) where
  toGrows := grows_setSlot s frame name slot
  noNames _ hnow := by
    rcases has_setSlot.mp hnow with hbefore | ⟨rfl, rfl, _⟩
    · exact hbefore
    · exact h

/-- Names that come into a frame from outside the store are new to no frame of the store. -/
theorem adds_define_newFrame (s : Store) (kind : FrameKind) (birth : Option Birth) (chain : Chain)
    (name : String) (value : Value) :
    s.Adds ((s.newFrame kind birth).2.define ((s.newFrame kind birth).1 :: chain) name value) where
  toGrows := (grows_newFrame s kind birth).trans (grows_setSlot _ _ name _)
  noNames {frame key} hold hnow := by
    rcases has_setSlot.mp hnow with hbefore | ⟨rfl, _, _⟩
    · exact (adds_newFrame s kind birth).noNames hold hbefore
    · simp [newFrame, kind?_size] at hold

theorem adds_bind (s : Store) (method : Closure) (instanceId : Nat) :
    s.Adds (s.bind method instanceId).2 :=
  adds_define_newFrame s .this _ method.chain "this" (.instance instanceId)

theorem adds_boundMethod (s : Store) (method : Closure) (instanceId : Nat) :
    s.Adds (s.boundMethod method instanceId).2 :=
  (adds_bind s method instanceId).trans (adds_newFunction _ _)

/-- A definition takes nothing away, in whatever chain it happens. -/
theorem grows_define (s : Store) (chain : Chain) (name : String) (value : Value) :
    s.Grows (s.define chain name value) := by
  cases chain with
  | nil => exact .refl s
  | cons frame _ => exact grows_setSlot s frame name _

/-- A declaration takes nothing away, also where the name was there before. -/
theorem grows_declare (s : Store) (chain : Chain) (name : String) :
    s.Grows (s.declare chain name) := by
  cases chain with
  | nil => exact .refl s
  | cons frame _ => exact grows_setSlot s frame name _

/-- A declaration gives its name to the innermost frame and to no other. -/
theorem has_of_has_define {s : Store} {chain : Chain} {frame : Nat} {name key : String}
    {value : Value} (h : (s.define chain name value).Has frame key) :
    s.Has frame key ∨ (chain.head? = some frame ∧ key = name) := by
  cases chain with
  | nil => exact .inl h
  | cons first _ =>
    rcases has_setSlot.mp h with hbefore | ⟨rfl, hkey, _⟩
    · exact .inl hbefore
    · exact .inr ⟨rfl, hkey⟩

/-- The innermost frame has the name once it is defined. -/
theorem has_define {s : Store} {chain : Chain} {frame : Nat} (name : String) (value : Value)
    (hframe : chain.head? = some frame) (hkind : (s.kind? frame).isSome) :
    (s.define chain name value).Has frame name := by
  cases chain with
  | nil => cases hframe
  | cons first _ =>
    obtain rfl := Option.some.inj hframe
    exact has_setSlot.mpr (.inr ⟨rfl, rfl, hkind⟩)

/-- The innermost frame has the name once it is declared. -/
theorem has_declare {s : Store} {chain : Chain} {frame : Nat} (name : String)
    (hframe : chain.head? = some frame) (hkind : (s.kind? frame).isSome) :
    (s.declare chain name).Has frame name := by
  cases chain with
  | nil => cases hframe
  | cons first _ =>
    obtain rfl := Option.some.inj hframe
    exact has_setSlot.mpr (.inr ⟨rfl, rfl, hkind⟩)

/-- A name that is there after a declaration was there before, or is the declared one in the
    innermost frame. -/
theorem has_of_has_declare {s : Store} {chain : Chain} {frame : Nat} {name key : String}
    (h : (s.declare chain name).Has frame key) :
    s.Has frame key ∨ (chain.head? = some frame ∧ key = name) := by
  cases chain with
  | nil => exact .inl h
  | cons first _ =>
    rcases has_setSlot.mp h with hbefore | ⟨rfl, hkey, _⟩
    · exact .inl hbefore
    · exact .inr ⟨rfl, hkey⟩

theorem has_of_owner? {s : Store} {chain : Chain} {name : String} {frame : Nat}
    (h : s.owner? chain name = some frame) : s.Has frame name :=
  List.find?_some (p := fun frame => (s.slot? frame name).isSome) h

theorem ownerAt?_eq_some_iff {s : Store} {chain : Chain} {depth frame : Nat} {name : String} :
    s.ownerAt? chain depth name = some frame ↔ chain[depth]? = some frame ∧ s.Has frame name := by
  simp [ownerAt?, Option.filter_eq_some_iff, Has]

theorem has_of_ownerAt? {s : Store} {chain : Chain} {depth : Nat} {name : String} {frame : Nat}
    (h : s.ownerAt? chain depth name = some frame) : s.Has frame name :=
  (ownerAt?_eq_some_iff.mp h).2

/-- A value is found at a depth just where an owner is. -/
theorem getAt?_isSome {s : Store} {chain : Chain} {depth : Nat} {name : String} :
    (s.getAt? chain depth name).isSome ↔ (s.ownerAt? chain depth name).isSome := by
  unfold getAt?
  cases howner : s.ownerAt? chain depth name with
  | none => simp
  | some frame => simpa [Has] using has_of_ownerAt? howner

/-- The value at a depth is that of the slot there. -/
theorem getAt?_of_slot {s : Store} {chain : Chain} {depth frame : Nat} {name : String}
    {slot : Slot} (hframe : chain[depth]? = some frame) (hslot : s.slot? frame name = some slot) :
    s.getAt? chain depth name = some slot.value := by
  have howner : s.ownerAt? chain depth name = some frame :=
    ownerAt?_eq_some_iff.mpr ⟨hframe, by simp [Has, hslot]⟩
  simp [getAt?, howner, hslot]

end Store

end Lox
