import Mathlib.Data.Option.Defs
import Lox.Evaluation.Basic

namespace Lox

section Options

variable {α β γ δ : Type} {R : α → β → Prop} {Q : γ → δ → Prop} {a : Option α} {b : Option β}

/-- Options that are related in one way are related in a wider one. -/
theorem Option.Rel.mono {R' : α → β → Prop} (h : ∀ {x y}, R x y → R' x y) (hab : Option.Rel R a b) :
    Option.Rel R' a b := by
  cases hab with
  | some hab => exact .some (h hab)
  | none => exact .none

/-- What is made of related options is related if the parts are. -/
theorem Option.Rel.bind (h : Option.Rel R a b) {f : α → Option γ} {g : β → Option δ}
    (hfg : ∀ {x y}, R x y → Option.Rel Q (f x) (g y)) : Option.Rel Q (a.bind f) (b.bind g) := by
  cases h with
  | some h => exact hfg h
  | none => exact .none

/-- The images of related options are related if the parts are. -/
theorem Option.Rel.map (h : Option.Rel R a b) {f : α → γ} {g : β → δ}
    (hfg : ∀ {x y}, R x y → Q (f x) (g y)) : Option.Rel Q (a.map f) (b.map g) := by
  cases h with
  | some h => exact .some (hfg h)
  | none => exact .none

/-- The first of two related options decides on both sides alike. -/
theorem Option.Rel.orElse (h : Option.Rel R a b) {a' : Option α} {b' : Option β}
    (h' : Option.Rel R a' b') : Option.Rel R (a <|> a') (b <|> b') := by
  cases h with
  | some h => exact .some h
  | none => exact h'

/-- The same comes of related values. -/
theorem Option.Rel.elim_eq (h : Option.Rel R a b) (other : γ) {f : α → γ} {g : β → γ}
    (hfg : ∀ {x y}, R x y → g y = f x) : b.elim other g = a.elim other f := by
  cases h with
  | some h => exact hfg h
  | none => rfl

/-- What comes of related values is the same where it does not tell them apart. -/
theorem Option.Rel.bind_eq (h : Option.Rel R a b) {f : α → Option γ} {g : β → Option γ}
    (hfg : ∀ {x y}, R x y → g y = f x) : b.bind g = a.bind f := by
  cases h with
  | some h => exact hfg h
  | none => rfl

/-- The images of related options are the same where they do not tell them apart. -/
theorem Option.Rel.map_eq (h : Option.Rel R a b) {f : α → γ} {g : β → γ}
    (hfg : ∀ {x y}, R x y → g y = f x) : b.map g = a.map f := by
  cases h with
  | some h => exact congrArg some (hfg h)
  | none => rfl

theorem Option.Rel.isSome_eq (h : Option.Rel R a b) : b.isSome = a.isSome := by
  cases h <;> rfl

end Options

namespace Store

/-- Arrays that are related place by place are of one size. -/
theorem size_eq_of_rel {α β : Type} {R : α → β → Prop} {xs : Array α} {ys : Array β}
    (h : ∀ i : Nat, Option.Rel R xs[i]? ys[i]?) : ys.size = xs.size := by
  have hnone (i : Nat) : xs[i]? = none ↔ ys[i]? = none := by
    rw [← Option.not_isSome_iff_eq_none, ← Option.not_isSome_iff_eq_none, Option.Rel.isSome_eq (h i)]
  apply Nat.le_antisymm
  · exact Array.getElem?_eq_none_iff.mp ((hnone xs.size).mp (Array.getElem?_eq_none (Nat.le_refl _)))
  · exact Array.getElem?_eq_none_iff.mp ((hnone ys.size).mpr (Array.getElem?_eq_none (Nat.le_refl _)))

/-- Arrays that are related place by place stay so when related values are pushed. -/
theorem rel_push {α β : Type} {R : α → β → Prop} {xs : Array α} {ys : Array β} {x : α} {y : β}
    (h : ∀ i : Nat, Option.Rel R xs[i]? ys[i]?) (hxy : R x y) (i : Nat) :
    Option.Rel R (xs.push x)[i]? (ys.push y)[i]? := by
  rw [Array.getElem?_push, Array.getElem?_push, size_eq_of_rel h]
  split
  · exact .some hxy
  · exact h i

end Store

variable {R M : Closure → Closure → Prop}

/-- Classes of the same name below the same classes, with methods that are related name by name. -/
structure ClassRecord.Corresponds (M : Closure → Closure → Prop) (c c' : ClassRecord) : Prop where
  name : c'.name = c.name
  ancestors : c'.ancestors = c.ancestors
  methods : ∀ name, Option.Rel M (c.methods.find? name) (c'.methods.find? name)

theorem ClassRecord.Corresponds.mono {M' : Closure → Closure → Prop} (hM : ∀ {c c'}, M c c' → M' c c')
    {c c' : ClassRecord} (h : c.Corresponds M c') : c.Corresponds M' c' :=
  { h with methods := fun name => Option.Rel.mono hM (h.methods name) }

namespace Store

/-- Stores with the same instances, and with functions and methods that are related. -/
structure Corresponds (R M : Closure → Closure → Prop) (s s' : Store) : Prop where
  functions : ∀ id : Nat, Option.Rel R s.functions[id]? s'.functions[id]?
  classes : ∀ id : Nat, Option.Rel (ClassRecord.Corresponds M) s.classes[id]? s'.classes[id]?
  instances : s'.instances = s.instances

/-- Properties of instances: the same field, or methods that are related. -/
inductive Property.Corresponds (M : Closure → Closure → Prop) : Property → Property → Prop
  | field (value : Value) : Property.Corresponds M (.field value) (.field value)
  | method {c c' : Closure} (hc : M c c') : Property.Corresponds M (.method c) (.method c')

namespace Corresponds

variable {s s' : Store} (h : s.Corresponds R M s')
include h

/-- Stores that correspond do so also with wider relations. -/
theorem mono {R' M' : Closure → Closure → Prop} (hR : ∀ {c c'}, R c c' → R' c c')
    (hM : ∀ {c c'}, M c c' → M' c c') : s.Corresponds R' M' s' where
  functions id := Option.Rel.mono hR (h.functions id)
  classes id := Option.Rel.mono (.mono hM) (h.classes id)
  instances := h.instances

/-- A method is found on both sides or on neither, in the class or above it. -/
theorem findMethod? (classId : Nat) (name : String) :
    Option.Rel M (s.findMethod? classId name) (s'.findMethod? classId name) := by
  have habove (ancestors : List Nat) : Option.Rel M
      (ancestors.findSome? fun id => s.classes[id]?.bind fun a => a.methods.find? name)
      (ancestors.findSome? fun id => s'.classes[id]?.bind fun a => a.methods.find? name) := by
    induction ancestors with
    | nil => exact .none
    | cons id rest ih =>
      have hfirst := Option.Rel.bind (h.classes id) fun hc => hc.methods name
      rw [List.findSome?_cons, List.findSome?_cons]
      generalize s.classes[id]?.bind _ = m at hfirst
      generalize s'.classes[id]?.bind _ = m' at hfirst
      cases hfirst with
      | none => exact ih
      | some hm => exact .some hm
  have hclass := h.classes classId
  unfold Store.findMethod?
  generalize s.classes[classId]? = c at hclass
  generalize s'.classes[classId]? = c' at hclass
  cases hclass with
  | none => exact .none
  | some hc =>
    dsimp only
    rw [hc.ancestors]
    exact Option.Rel.orElse (hc.methods name) (habove _)

theorem initializer? (classId : Nat) :
    Option.Rel M (s.initializer? classId) (s'.initializer? classId) :=
  h.findMethod? classId initializerName

/-- Properties correspond: a field before a method, on both sides alike. -/
theorem property? (instanceId : Nat) (name : String) :
    Option.Rel (Property.Corresponds M) (s.property? instanceId name)
      (s'.property? instanceId name) := by
  unfold Store.property?
  rw [h.instances]
  cases s.instances[instanceId]? with
  | none => exact .none
  | some i =>
    have hfield (value : Option Value) :
        Option.Rel (Property.Corresponds M) (value.map .field) (value.map .field) := by
      cases value with
      | none => exact .none
      | some value => exact .some (.field value)
    exact Option.Rel.orElse (hfield _) (Option.Rel.map (h.findMethod? i.classId name) .method)

/-- A value takes the same number of arguments on both sides where the relations keep it. -/
theorem arity? (hR : ∀ {c c'}, R c c' → c'.arity = c.arity) (hM : ∀ {c c'}, M c c' → c'.arity = c.arity)
    (callee : Value) : s'.arity? callee = s.arity? callee := by
  cases callee with
  | function id => exact Option.Rel.map_eq (h.functions id) hR
  | «class» id => exact congrArg some (Option.Rel.elim_eq (h.initializer? id) 0 hM)
  | _ => rfl

theorem className (classId : Nat) : s'.className classId = s.className classId :=
  Option.Rel.elim_eq (h.classes classId) "" ClassRecord.Corresponds.name

/-- A value has the same text on both sides where the relations keep names. -/
theorem pieces (hR : ∀ {c c'}, R c c' → c'.name = c.name) (value : Value) :
    s'.pieces value = s.pieces value := by
  cases value with
  | function id =>
    unfold Store.pieces
    dsimp only
    rw [Option.Rel.bind_eq (h.functions id) hR]
  | «class» id => exact congrArg ([·]) (h.className id)
  | «instance» id =>
    unfold Store.pieces
    dsimp only
    rw [h.instances]
    cases s.instances[id]? with
    | none => rfl
    | some i => exact congrArg ([·, " instance"]) (h.className i.classId)
  | bool b => cases b <;> rfl
  | _ => rfl

/-- The classes above a class are the same on both sides. -/
theorem ancestors (parent : Option Nat) : Run.ancestors parent s' = Run.ancestors parent s := by
  cases parent with
  | none => rfl
  | some id =>
    exact congrArg (id :: ·)
      (Option.Rel.elim_eq (h.classes id) [] ClassRecord.Corresponds.ancestors)

theorem newFunction_fst (c c' : Closure) : (s'.newFunction c').1 = (s.newFunction c).1 :=
  size_eq_of_rel h.functions

theorem newFunction {c c' : Closure} (hc : R c c') :
    (s.newFunction c).2.Corresponds R M (s'.newFunction c').2 :=
  { h with functions := rel_push h.functions hc }

theorem newClass_fst (c c' : ClassRecord) : (s'.newClass c').1 = (s.newClass c).1 :=
  size_eq_of_rel h.classes

theorem newClass {c c' : ClassRecord} (hc : c.Corresponds M c') :
    (s.newClass c).2.Corresponds R M (s'.newClass c').2 :=
  { h with classes := rel_push h.classes hc }

theorem newInstance_fst (classId : Nat) : (s'.newInstance classId).1 = (s.newInstance classId).1 :=
  congrArg Array.size h.instances

/-- A new instance leaves the functions and the classes alone. -/
theorem newInstance (classId : Nat) :
    (s.newInstance classId).2.Corresponds R M (s'.newInstance classId).2 := by
  have hsame := h.instances
  refine { h with instances := ?_ }
  simp [Store.newInstance, hsame]

/-- A field that is set leaves the functions and the classes alone. -/
theorem setField (instanceId : Nat) (name : String) (value : Value) :
    (s.setField instanceId name value).Corresponds R M (s'.setField instanceId name value) := by
  have hsame := h.instances
  refine { h with instances := ?_ }
  simp [Store.setField, hsame]

end Corresponds

end Store

end Lox
