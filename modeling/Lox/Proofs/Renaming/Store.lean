import Lox.Evaluation.Basic
import Lox.Proofs.Renaming.Scope
import Lox.Proofs.Alignment.Store
import Lox.Proofs.Store.Related

namespace Lox

/-- Which of the frames of a store are those of scopes that are renamed. -/
abbrev World := List Bool

namespace World

variable {F F' : World} {marks : List Bool} {chain : Chain} {frame depth : Nat} {renamed : Bool}

/-- Whether a frame has the variable renamed is settled when it is made. -/
theorem getElem?_mono (h : F <+: F') (hframe : F[frame]? = some renamed) : F'[frame]? = some renamed := by
  obtain ⟨new, rfl⟩ := h
  obtain ⟨hlt, -⟩ := List.getElem?_eq_some_iff.mp hframe
  rwa [List.getElem?_append_left hlt]

/-- The frames of a chain are those of scopes of which these are renamed, and then comes a frame that is
    not, the global one. -/
def InLine (F : World) (marks : List Bool) (chain : Chain) : Prop :=
  chain.map (F[·]?) = (marks ++ [false]).map some

/-- Chains stay in line when frames are added. -/
theorem InLine.mono (h : F <+: F') (hline : F.InLine marks chain) : F'.InLine marks chain := by
  refine Eq.trans (List.map_congr_left fun frame hframe => ?_) hline
  have hmem : F[frame]? ∈ (marks ++ [false]).map some := hline ▸ List.mem_map_of_mem hframe
  obtain ⟨renamed, -, hrenamed⟩ := List.mem_map.mp hmem
  rw [← hrenamed, getElem?_mono h hrenamed.symm]

/-- A frame may be put in front of a chain. -/
theorem InLine.cons (hline : F.InLine marks chain) (hframe : F[frame]? = some renamed) :
    F.InLine (renamed :: marks) (frame :: chain) := by
  unfold InLine at hline ⊢
  rw [List.map_cons, hline, hframe]
  rfl

/-- A frame of a chain has the variable renamed if the scope at its depth does. -/
theorem InLine.at (hline : F.InLine marks chain) (hframe : chain[depth]? = some frame) :
    F[frame]? = some (marks.getD depth false) := by
  have hsame := congrArg (·[depth]?) hline
  simp only [List.getElem?_map, hframe, Option.map_some] at hsame
  cases hdepth : (marks ++ [false])[depth]? with
  | none => simp [hdepth] at hsame
  | some renamed =>
    rw [hdepth] at hsame
    rw [Option.some.inj hsame, List.getD_eq_getElem?_getD]
    rcases Nat.lt_or_ge depth marks.length with hlt | hge
    · rw [List.getElem?_append_left hlt] at hdepth
      rw [hdepth]
      rfl
    · rw [List.getElem?_append_right hge] at hdepth
      rw [List.getElem?_eq_none hge, List.mem_singleton.mp (List.mem_of_getElem? hdepth)]
      rfl

/-- A chain in line has an innermost frame. -/
theorem InLine.head (hline : F.InLine marks chain) :
    ∃ frame rest, chain = frame :: rest ∧ F[frame]? = some (marks.headD false) := by
  cases chain with
  | nil => cases marks <;> cases hline
  | cons frame rest =>
    refine ⟨frame, rest, rfl, ?_⟩
    have hframe : (frame :: rest)[0]? = some frame := rfl
    rw [hline.at hframe]
    cases marks <;> rfl

end World

/-- Functions made of code and of a renaming of it, in frames of which those around the scopes `inner` are
    in line with the scopes around the code. -/
structure Closure.Alike (ρ : Renaming) (F : World) (inner : List Bool) (c c' : Closure) : Prop where
  name : c'.name = c.name
  chain : c'.chain = c.chain
  initializer : c'.initializer = c.initializer
  code : ∃ marks, F.InLine marks c.chain ∧ c.code.Renames ρ (inner ++ marks) c'.code

/-- Methods are made without the frame of their `this`, whose scope is not renamed. -/
structure ClassRecord.Alike (ρ : Renaming) (F : World) (c c' : ClassRecord) : Prop where
  name : c'.name = c.name
  ancestors : c'.ancestors = c.ancestors
  methods : ∀ name, Option.Rel (Closure.Alike ρ F [false]) (c.methods.find? name) (c'.methods.find? name)

variable {ρ : Renaming} {F F' : World} {marks : List Bool}

theorem Closure.Alike.mono (h : F <+: F') {inner : List Bool} {c c' : Closure}
    (hc : c.Alike ρ F inner c') : c.Alike ρ F' inner c' := by
  obtain ⟨marks, hline, hcode⟩ := hc.code
  exact { hc with code := ⟨marks, hline.mono h, hcode⟩ }

theorem ClassRecord.Alike.mono (h : F <+: F') {c c' : ClassRecord} (hc : c.Alike ρ F c') :
    c.Alike ρ F' c' :=
  { hc with methods := fun name => Option.Rel.mono (.mono h) (hc.methods name) }

/-- A renaming changes no number of parameters. -/
theorem Lambda.Renames.length_params {code code' : Lambda} (h : code.Renames ρ marks code') :
    code'.params.length = code.params.length := by
  cases h
  exact List.length_map _

/-- Functions that are alike take the same number of arguments. -/
theorem Closure.Alike.arity {inner : List Bool} {c c' : Closure} (h : c.Alike ρ F inner c') :
    c'.arity = c.arity := by
  obtain ⟨marks, -, hcode⟩ := h.code
  exact hcode.length_params

namespace Store

/-- A store, and that store where the variable of the old name has the new one in the frames of scopes that
    are renamed. -/
structure Alike (ρ : Renaming) (F : World) (s s' : Store) : Prop where
  size : F.length = s.frames.size
  size' : s'.frames.size = s.frames.size
  global : F[globalFrame]? = some false
  slots : ∀ {frame renamed name}, F[frame]? = some renamed → ρ.Free renamed name →
    s'.slot? frame (ρ.name renamed name) = s.slot? frame name
  functions : ∀ id : Nat, Option.Rel (Closure.Alike ρ F []) s.functions[id]? s'.functions[id]?
  classes : ∀ id : Nat, Option.Rel (ClassRecord.Alike ρ F) s.classes[id]? s'.classes[id]?
  instances : s'.instances = s.instances

variable {s s' : Store} {chain : Chain} {frame depth : Nat} {name : String} {renamed : Bool}

/-- A variable has its slot under the name that it has in the frame. -/
theorem Alike.isSome_slot? (h : s.Alike ρ F s') (hframe : F[frame]? = some renamed)
    (hfree : ρ.Free renamed name) :
    (s'.slot? frame (ρ.name renamed name)).isSome = (s.slot? frame name).isSome := by
  rw [h.slots hframe hfree]

/-- A variable is owned by the same frame under the name that it has there. -/
theorem Alike.ownerAt? (h : s.Alike ρ F s') (hline : F.InLine marks chain)
    (hfree : ρ.Free (marks.getD depth false) name) :
    s'.ownerAt? chain depth (ρ.name (marks.getD depth false) name) = s.ownerAt? chain depth name := by
  unfold Store.ownerAt?
  cases hframe : chain[depth]? with
  | none => rfl
  | some frame =>
    rw [Option.filter_some, Option.filter_some, h.isSome_slot? (hline.at hframe) hfree]

/-- A variable has the same value under the name that it has there. -/
theorem Alike.getAt? (h : s.Alike ρ F s') (hline : F.InLine marks chain)
    (hfree : ρ.Free (marks.getD depth false) name) :
    s'.getAt? chain depth (ρ.name (marks.getD depth false) name) = s.getAt? chain depth name := by
  unfold Store.getAt?
  rw [h.ownerAt? hline hfree]
  cases howner : s.ownerAt? chain depth name with
  | none => rfl
  | some frame =>
    have hframe := hline.at (ownerAt?_eq_some_iff.mp howner).1
    rw [Option.bind_some, Option.bind_some, h.slots hframe hfree]

/-- What the language itself brings in has no other name. -/
theorem Alike.getAt?_own (h : s.Alike ρ F s') (hline : F.InLine marks chain) (hown : ¬IsPlain name) :
    s'.getAt? chain depth name = s.getAt? chain depth name := by
  have hapart : ρ.Apart (marks.getD depth false) name := Renaming.apart_own hown
  have hget := h.getAt? hline (Renaming.free_of_apart hapart)
  rwa [Renaming.name_of_apart hapart] at hget

/-- Global names stay. -/
theorem Alike.slot?_global (h : s.Alike ρ F s') (name : String) :
    s'.slot? globalFrame name = s.slot? globalFrame name := by
  have hslot := h.slots h.global (ρ.free_false name)
  rwa [ρ.name_false] at hslot

theorem Alike.owner?_global (h : s.Alike ρ F s') (name : String) :
    s'.owner? .global name = s.owner? .global name := by
  simp [Store.owner?, Chain.global, List.find?_cons, h.slot?_global]

theorem Alike.get_global (h : s.Alike ρ F s') (name : String) : s'.get .global name = s.get .global name := by
  unfold Store.get
  rw [h.owner?_global]
  cases howner : s.owner? .global name with
  | none => rfl
  | some frame =>
    obtain rfl : frame = globalFrame := by
      simpa [Chain.global] using List.mem_of_find?_eq_some howner
    rw [Option.bind_some, Option.bind_some, h.slot?_global]

/-- A frame that is on both sides is in the store. -/
theorem Alike.isSome_kind? (h : s.Alike ρ F s') (hframe : F[frame]? = some renamed) :
    (s.kind? frame).isSome := by
  obtain ⟨hlt, -⟩ := List.getElem?_eq_some_iff.mp hframe
  rw [h.size] at hlt
  simp [kind?, Array.getElem?_eq_getElem hlt]

/-- A frame is on both sides or on neither. -/
theorem Alike.kind?_isSome (h : s.Alike ρ F s') (frame : Nat) :
    (s'.kind? frame).isSome = (s.kind? frame).isSome := by
  unfold kind?
  rcases Nat.lt_or_ge frame s.frames.size with hlt | hge
  · rw [Array.getElem?_eq_getElem hlt, Array.getElem?_eq_getElem (h.size'.symm ▸ hlt)]
    rfl
  · rw [Array.getElem?_eq_none hge, Array.getElem?_eq_none (h.size'.symm ▸ hge)]

/-- A slot may be set on both sides under the name of its frame. -/
theorem Alike.setSlot (h : s.Alike ρ F s') (hframe : F[frame]? = some renamed) (hfree : ρ.Free renamed name)
    (slot : Slot) : (s.setSlot frame name slot).Alike ρ F (s'.setSlot frame (ρ.name renamed name) slot) := by
  refine
    { h with
      size := by rw [h.size]; simp [Store.setSlot]
      size' := by simpa [Store.setSlot] using h.size'
      slots := fun {other b key} hother hkey => ?_ }
  rw [slot?_setSlot, slot?_setSlot, h.kind?_isSome, h.slots hother hkey]
  by_cases hsame : frame = other
  · subst hsame
    obtain rfl : renamed = b := Option.some.inj (hframe.symm.trans hother)
    have hnames : ρ.name renamed key = ρ.name renamed name ↔ key = name := by
      cases renamed with
      | false => rw [ρ.name_false, ρ.name_false]
      | true => exact Renaming.name_inj (hkey rfl) (hfree rfl)
    simp only [hnames]
  · rw [if_neg fun hall => hsame hall.1, if_neg fun hall => hsame hall.1]

/-- A definition may be made on both sides under the name of the innermost frame. -/
theorem Alike.define (h : s.Alike ρ F s') (hline : F.InLine marks chain)
    (hfree : ρ.Free (marks.headD false) name) (value : Value) :
    (s.define chain name value).Alike ρ F (s'.define chain (ρ.name (marks.headD false) name) value) := by
  obtain ⟨frame, rest, rfl, hframe⟩ := hline.head
  exact h.setSlot hframe hfree _

/-- A declaration may be made on both sides under the name of the innermost frame. -/
theorem Alike.declare (h : s.Alike ρ F s') (hline : F.InLine marks chain)
    (hfree : ρ.Free (marks.headD false) name) :
    (s.declare chain name).Alike ρ F (s'.declare chain (ρ.name (marks.headD false) name)) := by
  obtain ⟨frame, rest, rfl, hframe⟩ := hline.head
  exact h.setSlot hframe hfree _

/-- Functions and classes correspond on both sides. -/
theorem Alike.corresponds (h : s.Alike ρ F s') :
    s.Corresponds (Closure.Alike ρ F []) (Closure.Alike ρ F [false]) s' where
  functions := h.functions
  classes id := Option.Rel.mono (fun hc => ⟨hc.name, hc.ancestors, hc.methods⟩) (h.classes id)
  instances := h.instances

theorem Alike.findMethod? (h : s.Alike ρ F s') (classId : Nat) (name : String) :
    Option.Rel (Closure.Alike ρ F [false]) (s.findMethod? classId name) (s'.findMethod? classId name) :=
  h.corresponds.findMethod? classId name

/-- Properties of instances: the same field, or methods that are alike. -/
inductive Property.Alike (ρ : Renaming) (F : World) : Property → Property → Prop
  | field (value : Value) : Property.Alike ρ F (.field value) (.field value)
  | method {c c' : Closure} (hc : c.Alike ρ F [false] c') : Property.Alike ρ F (.method c) (.method c')

/-- Properties are found on the same instances. -/
theorem Alike.property? (h : s.Alike ρ F s') (instanceId : Nat) (name : String) :
    Option.Rel (Property.Alike ρ F) (s.property? instanceId name) (s'.property? instanceId name) := by
  refine Option.Rel.mono (fun {x y} hxy => ?_) (h.corresponds.property? instanceId name)
  cases hxy with
  | field value => exact .field value
  | method hc => exact .method hc

theorem Alike.initializer? (h : s.Alike ρ F s') (classId : Nat) :
    Option.Rel (Closure.Alike ρ F [false]) (s.initializer? classId) (s'.initializer? classId) :=
  h.findMethod? classId initializerName

theorem Alike.arity? (h : s.Alike ρ F s') (callee : Value) : s'.arity? callee = s.arity? callee :=
  h.corresponds.arity? Closure.Alike.arity Closure.Alike.arity callee

theorem Alike.pieces (h : s.Alike ρ F s') (value : Value) : s'.pieces value = s.pieces value :=
  h.corresponds.pieces Closure.Alike.name value

theorem Alike.ancestors (h : s.Alike ρ F s') (parent : Option Nat) :
    Run.ancestors parent s' = Run.ancestors parent s :=
  h.corresponds.ancestors parent

/-- A frame may be made on both sides, with the variable renamed in it or not. -/
theorem Alike.newFrame (h : s.Alike ρ F s') (renamed : Bool) (kind : FrameKind)
    (birth birth' : Option Birth) :
    (s.newFrame kind birth).2.Alike ρ (F ++ [renamed]) (s'.newFrame kind birth').2 := by
  have hold : F <+: F ++ [renamed] := List.prefix_append _ _
  refine
    { size := by simp [Store.newFrame, h.size]
      size' := by simp [Store.newFrame, h.size']
      global := World.getElem?_mono hold h.global
      slots := fun {frame b name} hframe hfree => ?_
      functions := fun id => Option.Rel.mono (.mono hold) (h.functions id)
      classes := fun id => Option.Rel.mono (.mono hold) (h.classes id)
      instances := h.instances }
  rw [slot?_newFrame, slot?_newFrame]
  rcases Nat.lt_or_ge frame F.length with hlt | hge
  · rw [List.getElem?_append_left hlt] at hframe
    exact h.slots hframe hfree
  · -- No store has the new frame yet.
    have hnone (s : Store) (hsize : s.frames.size ≤ frame) (key : String) : s.slot? frame key = none := by
      simp [slot?, Array.getElem?_eq_none hsize]
    rw [hnone s (h.size ▸ hge), hnone s' (by rw [h.size', ← h.size]; exact hge)]

theorem Alike.newFrame_fst (h : s.Alike ρ F s') (kind : FrameKind) (birth birth' : Option Birth) :
    (s'.newFrame kind birth').1 = (s.newFrame kind birth).1 :=
  h.size'

/-- The new frame is that of a scope that is renamed, if it has been taken for one. -/
theorem Alike.getElem?_newFrame (h : s.Alike ρ F s') (renamed : Bool) (kind : FrameKind)
    (birth : Option Birth) :
    (F ++ [renamed])[(s.newFrame kind birth).1]? = some renamed := by
  show (F ++ [renamed])[s.frames.size]? = _
  rw [← h.size, List.getElem?_concat_length]

theorem Alike.newFunction (h : s.Alike ρ F s') {c c' : Closure} (hc : c.Alike ρ F [] c') :
    (s'.newFunction c').1 = (s.newFunction c).1 ∧ (s.newFunction c).2.Alike ρ F (s'.newFunction c').2 :=
  ⟨size_eq_of_rel h.functions, { h with functions := rel_push h.functions hc }⟩

theorem Alike.newClass (h : s.Alike ρ F s') {c c' : ClassRecord} (hc : c.Alike ρ F c') :
    (s'.newClass c').1 = (s.newClass c).1 ∧ (s.newClass c).2.Alike ρ F (s'.newClass c').2 :=
  ⟨size_eq_of_rel h.classes, { h with classes := rel_push h.classes hc }⟩

/-- Instances get the same number. -/
theorem Alike.newInstance (h : s.Alike ρ F s') (classId : Nat) :
    (s'.newInstance classId).1 = (s.newInstance classId).1 ∧
      (s.newInstance classId).2.Alike ρ F (s'.newInstance classId).2 := by
  have hsame := h.instances
  refine ⟨congrArg Array.size hsame, { h with instances := ?_ }⟩
  simp [Store.newInstance, hsame]

theorem Alike.setField (h : s.Alike ρ F s') (instanceId : Nat) (name : String) (value : Value) :
    (s.setField instanceId name value).Alike ρ F (s'.setField instanceId name value) := by
  have hsame := h.instances
  refine { h with instances := ?_ }
  simp [Store.setField, hsame]

/-- A name of the language's own, in a new frame that is not renamed. -/
theorem Alike.implicitFrame (h : s.Alike ρ F s') (kind : FrameKind) (birth birth' : Option Birth)
    (chain chain' : Chain) (name : String) (value : Value) :
    ((s.newFrame kind birth).2.define ((s.newFrame kind birth).1 :: chain) name value).Alike ρ (F ++ [false])
      ((s'.newFrame kind birth').2.define ((s'.newFrame kind birth').1 :: chain') name value) := by
  have hset := (h.newFrame false kind birth birth').setSlot (h.getElem?_newFrame false kind birth)
    (ρ.free_false name) (.set value)
  rw [ρ.name_false] at hset
  show ((s.newFrame kind birth).2.setSlot (s.newFrame kind birth).1 name (.set value)).Alike ρ _
    ((s'.newFrame kind birth').2.setSlot (s'.newFrame kind birth').1 name (.set value))
  rwa [h.newFrame_fst kind birth birth']

/-- Methods that are alike are bound in frames where nothing is renamed. -/
theorem Alike.bind (h : s.Alike ρ F s') {c c' : Closure} (hc : c.Alike ρ F [false] c') (instanceId : Nat) :
    (s.bind c instanceId).1.Alike ρ (F ++ [false]) [] (s'.bind c' instanceId).1 ∧
      (s.bind c instanceId).2.Alike ρ (F ++ [false]) (s'.bind c' instanceId).2 := by
  refine ⟨?_, h.implicitFrame .this _ _ c.chain c'.chain "this" (.instance instanceId)⟩
  obtain ⟨marks, hline, hcode⟩ := hc.code
  refine ⟨hc.name, ?_, hc.initializer, false :: marks, ?_, hcode⟩
  · show s'.frames.size :: c'.chain = s.frames.size :: c.chain
    rw [h.size', hc.chain]
  · exact (hline.mono (List.prefix_append _ _)).cons (h.getElem?_newFrame false .this none)

/-- Methods that are alike are bound and made functions of the same number. -/
theorem Alike.boundMethod (h : s.Alike ρ F s') {c c' : Closure} (hc : c.Alike ρ F [false] c')
    (instanceId : Nat) :
    (s'.boundMethod c' instanceId).1 = (s.boundMethod c instanceId).1 ∧
      (s.boundMethod c instanceId).2.Alike ρ (F ++ [false]) (s'.boundMethod c' instanceId).2 := by
  obtain ⟨hclosure, hstore⟩ := h.bind hc instanceId
  obtain ⟨hid, hmade⟩ := hstore.newFunction hclosure
  exact ⟨congrArg Value.function hid, hmade⟩

end Store

end Lox
