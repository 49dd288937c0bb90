import Lox.Proofs.Rounds.Frames
import Lox.Proofs.Store.Related

namespace Lox

variable {fits fits' : Lambda → Bool → List Bool → Prop} {F F' : Folding} {marks inner : List Bool}

/-- Functions made of the same code, of which the second is in frames without those of rounds. The scopes
    `inner` and those of the frames fit the code, whatever is asked of them. -/
structure Closure.Folds (fits : Lambda → Bool → List Bool → Prop) (F : Folding) (inner : List Bool)
    (c c' : Closure) : Prop where
  name : c'.name = c.name
  code : c'.code = c.code
  initializer : c'.initializer = c.initializer
  line : ∃ marks, F.InLine marks c.chain c'.chain ∧ fits c.code c.initializer (inner ++ marks)

namespace Closure.Folds

variable {c c' : Closure} (h : c.Folds fits F inner c')
include h

theorem mono (hF : F <+: F') : c.Folds fits F' inner c' := by
  obtain ⟨marks, hline, hfits⟩ := h.line
  exact { h with line := ⟨marks, hline.mono hF, hfits⟩ }

/-- Closures that fold do so where more code fits. -/
theorem weaken (hfits : ∀ {code initializer marks}, fits code initializer marks →
    fits' code initializer marks) : c.Folds fits' F inner c' := by
  obtain ⟨marks, hline, hfit⟩ := h.line
  exact { h with line := ⟨marks, hline, hfits hfit⟩ }

theorem arity : c'.arity = c.arity :=
  congrArg (·.params.length) h.code

end Closure.Folds

namespace Store

/-- A store, and that store without the frames of rounds. Methods are made without the frame of their
    `this`, which is not that of a round. -/
structure Folds (fits : Lambda → Bool → List Bool → Prop) (F : Folding) (s s' : Store) : Prop extends
    s.FoldsFrames F s', s.Corresponds (Closure.Folds fits F []) (Closure.Folds fits F [false]) s'

namespace Folds

variable {s s' : Store} {chain chain' : Chain} {frame frame' : Nat} {name : String}
  (h : s.Folds fits F s')
include h

/-- Stores that fold do so where more code fits. -/
theorem weaken (hfits : ∀ {code initializer marks}, fits code initializer marks →
    fits' code initializer marks) : s.Folds fits' F s' where
  toFoldsFrames := h.toFoldsFrames
  toCorresponds := h.toCorresponds.mono (.weaken · hfits) (.weaken · hfits)

theorem arity? (callee : Value) : s'.arity? callee = s.arity? callee :=
  h.toCorresponds.arity? Closure.Folds.arity Closure.Folds.arity callee

theorem pieces (value : Value) : s'.pieces value = s.pieces value :=
  h.toCorresponds.pieces Closure.Folds.name value

/-- A slot may be set in a frame that is on both sides. -/
theorem setSlot (hkept : F.Keeps frame frame') (name : String) (slot : Slot) :
    (s.setSlot frame name slot).Folds fits F (s'.setSlot frame' name slot) where
  toFoldsFrames := h.toFoldsFrames.setSlot hkept name slot
  toCorresponds := { h.toCorresponds with }

/-- A definition keeps stores folding where the innermost frame is none of a round. -/
theorem define (hline : F.InLine marks chain chain') (hmark : marks.headD false = false) (name : String)
    (value : Value) : (s.define chain name value).Folds fits F (s'.define chain' name value) := by
  obtain ⟨frame, rest, frame', rest', rfl, rfl, hkept⟩ := hline.head
  exact h.setSlot (hkept hmark) name _

/-- A declaration keeps stores folding where the innermost frame is none of a round. -/
theorem declare (hline : F.InLine marks chain chain') (hmark : marks.headD false = false)
    (name : String) : (s.declare chain name).Folds fits F (s'.declare chain' name) := by
  obtain ⟨frame, rest, frame', rest', rfl, rfl, hkept⟩ := hline.head
  exact h.setSlot (hkept hmark) name _

/-- A frame that is made on both sides keeps stores folding. -/
theorem newFrame (kind : FrameKind) (birth birth' : Option Birth) :
    (s.newFrame kind birth).2.Folds fits (F ++ [some s'.frames.size]) (s'.newFrame kind birth').2 where
  toFoldsFrames := h.toFoldsFrames.newFrame kind birth birth'
  toCorresponds := { h.toCorresponds.mono (.mono · (List.prefix_append _ _))
    (.mono · (List.prefix_append _ _)) with }

/-- A frame of a round is made on one side only, and keeps stores folding. -/
theorem newRound (birth : Option Birth) :
    (s.newFrame .block birth).2.Folds fits (F ++ [none]) s' where
  toFoldsFrames := h.toFoldsFrames.newRound birth
  toCorresponds := { h.toCorresponds.mono (.mono · (List.prefix_append _ _))
    (.mono · (List.prefix_append _ _)) with }

/-- Functions that fold get the same number and keep stores folding. -/
theorem newFunction {c c' : Closure} (hc : c.Folds fits F [] c') :
    (s'.newFunction c').1 = (s.newFunction c).1 ∧
      (s.newFunction c).2.Folds fits F (s'.newFunction c').2 :=
  ⟨h.newFunction_fst c c',
    { toFoldsFrames := { h.toFoldsFrames with }, toCorresponds := h.toCorresponds.newFunction hc }⟩

/-- Classes that fold get the same number and keep stores folding. -/
theorem newClass {c c' : ClassRecord} (hc : c.Corresponds (Closure.Folds fits F [false]) c') :
    (s'.newClass c').1 = (s.newClass c).1 ∧ (s.newClass c).2.Folds fits F (s'.newClass c').2 :=
  ⟨h.newClass_fst c c',
    { toFoldsFrames := { h.toFoldsFrames with }, toCorresponds := h.toCorresponds.newClass hc }⟩

/-- Instances get the same number on both sides. -/
theorem newInstance (classId : Nat) :
    (s'.newInstance classId).1 = (s.newInstance classId).1 ∧
      (s.newInstance classId).2.Folds fits F (s'.newInstance classId).2 :=
  ⟨h.newInstance_fst classId,
    { toFoldsFrames := { h.toFoldsFrames with }, toCorresponds := h.toCorresponds.newInstance classId }⟩

theorem setField (instanceId : Nat) (name : String) (value : Value) :
    (s.setField instanceId name value).Folds fits F (s'.setField instanceId name value) where
  toFoldsFrames := { h.toFoldsFrames with }
  toCorresponds := h.toCorresponds.setField instanceId name value

/-- A frame of the language itself, with the one name in it. -/
theorem implicitFrame (kind : FrameKind) (birth birth' : Option Birth) (chain chain' : Chain)
    (name : String) (value : Value) :
    ((s.newFrame kind birth).2.define ((s.newFrame kind birth).1 :: chain) name value).Folds fits
      (F ++ [some s'.frames.size])
      ((s'.newFrame kind birth').2.define ((s'.newFrame kind birth').1 :: chain') name value) :=
  (h.newFrame kind birth birth').setSlot (h.keeps_newFrame kind birth birth') name _

/-- Methods that fold are bound in frames that are on both sides. -/
theorem bind {c c' : Closure} (hc : c.Folds fits F [false] c') (instanceId : Nat) :
    (s.bind c instanceId).1.Folds fits (F ++ [some s'.frames.size]) [] (s'.bind c' instanceId).1 ∧
      (s.bind c instanceId).2.Folds fits (F ++ [some s'.frames.size]) (s'.bind c' instanceId).2 := by
  refine ⟨?_, h.implicitFrame .this _ _ c.chain c'.chain "this" (.instance instanceId)⟩
  obtain ⟨marks, hline, hfits⟩ := hc.line
  exact ⟨hc.name, hc.code, hc.initializer, false :: marks,
    .frame (h.keeps_newFrame .this none none) (hline.mono (List.prefix_append _ _)), hfits⟩

/-- Methods that fold are bound and made functions of the same number. -/
theorem boundMethod {c c' : Closure} (hc : c.Folds fits F [false] c') (instanceId : Nat) :
    (s'.boundMethod c' instanceId).1 = (s.boundMethod c instanceId).1 ∧
      (s.boundMethod c instanceId).2.Folds fits (F ++ [some s'.frames.size])
        (s'.boundMethod c' instanceId).2 := by
  obtain ⟨hclosure, hstore⟩ := h.bind hc instanceId
  obtain ⟨hid, hmade⟩ := hstore.newFunction hclosure
  exact ⟨congrArg Value.function hid, hmade⟩

end Folds

end Store

end Lox
