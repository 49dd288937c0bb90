import Lox.Proofs.Binding.Shape
import Lox.Proofs.Store.Growth

namespace Lox

/-- What the frame of a scope is made for. -/
def ScopeKind.frame : ScopeKind → FrameKind
  | block => .block
  | function => .function
  | this => .this
  | super => .super

/-- A frame for this purpose is one of a scope that was opened like that. A class has one scope for the
    `this` of all its methods, and a frame for each time that one of them gets its instance. -/
def Purpose.Suits : Purpose → Opening → Prop
  | block made, .block body => made = body
  | call made, .function code => made = code
  | receiver made _, .this methods => ∃ method ∈ methods, method.code = made
  | superclass made _, .super methods => made = methods
  | _, _ => False

/-- What a frame has been made with, and under which name: the instance that is `this`, or the class
    that is `super`. -/
def Purpose.held? : Purpose → Option (String × Value)
  | receiver _ instanceId => some ("this", .instance instanceId)
  | superclass _ classId => some ("super", .class classId)
  | _ => none

/-- The frame of a block or a call is made with nothing. -/
theorem Purpose.held?_eq_none {purpose : Purpose} {opening : Opening} (hsuits : purpose.Suits opening)
    (hkind : opening.kind = .block ∨ opening.kind = .function) : purpose.held? = none := by
  cases purpose with
  | block | call => rfl
  | receiver | superclass =>
    cases opening with
    | this | super => rcases hkind with h | h <;> cases h
    | _ => cases hsuits

namespace Store

/-- The frame is one of a scope that was opened like this: it was made for that very piece of program,
    inside of the frames behind it, and later than all of them. -/
structure Instance (s : Store) (opening : Opening) (behind : Chain) (frame : Nat) : Prop where
  kind : s.kind? frame = some opening.kind.frame
  born : ∃ purpose, purpose.Suits opening ∧ s.birth? frame = some ⟨purpose, behind⟩
  newer : ∀ outer ∈ behind, outer < frame

/-- The frame still holds what it was made with, if it was made with something. -/
def HoldsOwn (s : Store) (frame : Nat) : Prop :=
  ∀ birth name value, s.birth? frame = some birth → birth.purpose.held? = some (name, value) →
    s.slot? frame name = some (.set value)

/-- There is one frame for every scope, an instance of it with all the names that have their value in
    the scope, and then the global frame. -/
def Aligned (s : Store) : List Shape → Chain → Prop
  | [], chain => chain = .global
  | _ :: _, [] => False
  | shape :: shapes, frame :: chain =>
    s.Instance shape.opening chain frame ∧
      (∀ name, shape.status name = some true → s.Has frame name) ∧ s.Aligned shapes chain

variable {s s' : Store} {opening : Opening} {shape : Shape} {shapes : List Shape} {chain : Chain}
  {frame : Nat}

/-- Growth of the store keeps a frame what it was made to be. -/
theorem Instance.mono (h : s.Instance opening chain frame) (hgrows : s.Grows s') :
    s'.Instance opening chain frame where
  kind := hgrows.kinds h.kind
  born := by
    obtain ⟨purpose, hsuits, hborn⟩ := h.born
    exact ⟨purpose, hsuits, hgrows.births hborn⟩
  newer := h.newer

/-- A frame that has just been made, inside of frames of the store, is an instance of the scope that it
    was made for. -/
theorem instance_newFrame (s : Store) {purpose : Purpose} (hsuits : purpose.Suits opening)
    (hbefore : ∀ outer ∈ chain, outer < s.frames.size) :
    (s.newFrame opening.kind.frame (some ⟨purpose, chain⟩)).2.Instance opening chain
      (s.newFrame opening.kind.frame (some ⟨purpose, chain⟩)).1 where
  kind := (kind?_newFrame ..).trans (if_pos rfl)
  born := ⟨purpose, hsuits, (birth?_newFrame ..).trans (if_pos rfl)⟩
  newer := hbefore

/-- Growth of the store keeps frames in line with scopes. -/
theorem Aligned.mono (h : s.Aligned shapes chain) (hgrows : s.Grows s') :
    s'.Aligned shapes chain := by
  induction shapes generalizing chain with
  | nil => exact h
  | cons shape shapes ih =>
    cases chain with
    | nil => exact h
    | cons frame chain =>
      obtain ⟨hinstance, hnames, hrest⟩ := h
      exact ⟨hinstance.mono hgrows, fun name hname => hgrows.names (hnames name hname), ih hrest⟩

/-- There is a frame for every scope, and the global one. -/
theorem Aligned.length (h : s.Aligned shapes chain) : chain.length = shapes.length + 1 := by
  induction shapes generalizing chain with
  | nil => rw [h]; rfl
  | cons shape shapes ih =>
    cases chain with
    | nil => exact h.elim
    | cons frame chain => simp [ih h.2.2]

/-- All frames of an aligned chain are in the store. -/
theorem Aligned.lt_size (h : s.Aligned shapes chain) (hglobal : s.kind? globalFrame = some .global) :
    ∀ frame ∈ chain, frame < s.frames.size := by
  induction shapes generalizing chain with
  | nil =>
    intro frame hframe
    rw [show chain = [globalFrame] from h, List.mem_singleton] at hframe
    rw [hframe]
    exact lt_size_of_kind? (by simp [hglobal])
  | cons shape shapes ih =>
    cases chain with
    | nil => exact h.elim
    | cons frame chain =>
      obtain ⟨hinstance, _, hrest⟩ := h
      exact List.forall_mem_cons.mpr ⟨lt_size_of_kind? (by simp [hinstance.kind]), ih hrest⟩

/-- The frame at the depth of a scope is the frame of the scope. -/
theorem Aligned.at (h : s.Aligned shapes chain) {depth : Nat} (hshape : shapes[depth]? = some shape) :
    ∃ frame, chain[depth]? = some frame ∧
      s.Instance shape.opening (chain.drop (depth + 1)) frame ∧
      ∀ name, shape.status name = some true → s.Has frame name := by
  induction shapes generalizing chain depth with
  | nil => simp at hshape
  | cons first rest ih =>
    cases chain with
    | nil => exact h.elim
    | cons frame chain =>
      obtain ⟨hinstance, hnames, hrest⟩ := h
      cases depth with
      | zero =>
        obtain rfl := Option.some.inj hshape
        exact ⟨frame, rfl, hinstance, hnames⟩
      | succ depth => exact ih hrest hshape

/-- Each frame records the frames behind it as those that it was made in, and is newer than all of them,
    down to the global frame. -/
inductive Linked (s : Store) : Chain → Prop
  | global : s.Linked .global
  | frame {frame : Nat} {chain : Chain} {purpose : Purpose}
      (hborn : s.birth? frame = some ⟨purpose, chain⟩) (hnewer : ∀ outer ∈ chain, outer < frame)
      (hlinked : s.Linked chain) : s.Linked (frame :: chain)

/-- No frame stands in a chain twice. -/
theorem Linked.nodup (h : s.Linked chain) : chain.Nodup := by
  induction h with
  | global => exact List.pairwise_singleton _ _
  | frame _ hnewer _ ih =>
    exact List.nodup_cons.mpr ⟨fun hmem => Nat.lt_irrefl _ (hnewer _ hmem), ih⟩

/-- A chain in line with scopes goes outwards from frame to frame, each made inside the rest. -/
theorem Aligned.linked (h : s.Aligned shapes chain) : s.Linked chain := by
  induction shapes generalizing chain with
  | nil => exact (show chain = .global from h) ▸ .global
  | cons shape shapes ih =>
    cases chain with
    | nil => exact h.elim
    | cons frame chain =>
      obtain ⟨⟨-, ⟨purpose, -, hborn⟩, hnewer⟩, -, hrest⟩ := h
      exact .frame hborn hnewer (ih hrest)

/-- What is in line with scopes is a list of their frames in front of the global one. -/
theorem Aligned.frames (h : s.Aligned shapes chain) :
    ∃ frames, chain = frames ++ .global ∧
      frames.map s.kind? = shapes.map fun shape => some shape.kind.frame := by
  induction shapes generalizing chain with
  | nil => exact ⟨[], h, rfl⟩
  | cons shape shapes ih =>
    cases chain with
    | nil => exact h.elim
    | cons frame chain =>
      obtain ⟨frames, rfl, hkinds⟩ := ih h.2.2
      exact ⟨frame :: frames, rfl, by simp [h.1.kind, hkinds, Shape.kind]⟩

/-- Settling a name in the innermost scope needs the name in its frame. -/
theorem Aligned.settle (h : s.Aligned shapes chain) {names : List String}
    (hnames : ∀ name ∈ names, ∀ frame, chain.head? = some frame → s.Has frame name) :
    s.Aligned (shapes.modifyHead (·.settle names)) chain := by
  cases shapes with
  | nil => exact h
  | cons shape shapes =>
    cases chain with
    | nil => exact h
    | cons frame chain =>
      obtain ⟨hinstance, hhas, hrest⟩ := h
      refine ⟨hinstance, fun name hname => ?_, hrest⟩
      by_cases hmem : name ∈ names
      · exact hnames name hmem frame rfl
      · simp only [Shape.settle, hmem, if_false] at hname
        exact hhas name hname

theorem Aligned.cons_opened (h : s.Aligned shapes chain) (hframe : s.Instance opening chain frame) :
    s.Aligned (.opened opening :: shapes) (frame :: chain) :=
  ⟨hframe, fun _ hname => absurd hname (by simp [Shape.opened]), h⟩

/-- The frame in view has no names but those that have their value in the innermost scope. -/
def Exact (s : Store) (shapes : List Shape) (chain : Chain) : Prop :=
  ∀ shape frame, shapes.head? = some shape → chain.head? = some frame →
    ∀ name, s.Has frame name → shape.status name = some true

end Store

end Lox
