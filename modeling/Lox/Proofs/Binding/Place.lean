import Lox.Proofs.Binding.Visit

namespace Lox

open Resolver

/-- A scope has the names `this` and `super` just if it was made for them. -/
def Shape.Regular (shape : Shape) : Prop :=
  ((shape.status "this").isSome ↔ shape.kind = .this) ∧
    ((shape.status "super").isSome ↔ shape.kind = .super)

/-- Names like others may settle in any scope. -/
theorem Shape.Regular.settle {shape : Shape} (h : shape.Regular) {names : List String}
    (hplain : ∀ name ∈ names, IsPlain name) : (shape.settle names).Regular := by
  have hthis : "this" ∉ names := fun hmem => (hplain _ hmem).1 rfl
  have hsuper : "super" ∉ names := fun hmem => (hplain _ hmem).2 rfl
  simpa [Shape.Regular, Shape.settle, Shape.kind, hthis, hsuper] using h

theorem Shape.Regular.declare {shape : Shape} (h : shape.Regular) {name : String}
    (hplain : IsPlain name) : (shape.declare name).Regular := by
  simpa [Shape.Regular, Shape.declare, Shape.kind, hplain.1.symm, hplain.2.symm] using h

/-- The class around a point, from what the scopes there are for: the scope of `this` in a class
    with a superclass lies right inside that of `super`. -/
def ClassRole.within : List ScopeKind → ClassRole
  | [] => .none
  | .this :: .super :: _ => .derived
  | .this :: _ => .base
  | .super :: _ => .none
  | _ :: kinds => within kinds

namespace Resolver

/-- The scopes are what they have to be for the class around, and no program text stands right in
    the scope of `super`. -/
structure Placed (r : Resolver) : Prop where
  regular : ∀ shape ∈ r.shapes, shape.Regular
  role : r.classRole = .within (r.shapes.map Shape.kind)
  innermost : (r.shapes.map Shape.kind).head? ≠ some .super

variable {new : List String} {ids : List Nat} {r r₁ : Resolver}

/-- The walk starts in place: there is no scope at the top level. -/
theorem placed_start : start.Placed where
  regular shape hshape := by cases hshape
  role := rfl
  innermost := by simp [shapes, start]

theorem kinds_modifyHead (change : Shape → Shape)
    (hkind : ∀ shape, (change shape).kind = shape.kind) (shapes : List Shape) :
    (shapes.modifyHead change).map Shape.kind = shapes.map Shape.kind := by
  cases shapes <;> simp [hkind]

/-- A change that leaves scopes in order leaves them in order in the innermost one. -/
theorem regular_modifyHead {change : Shape → Shape}
    (hregular : ∀ shape : Shape, shape.Regular → (change shape).Regular) {shapes : List Shape}
    (h : ∀ shape ∈ shapes, shape.Regular) : ∀ shape ∈ shapes.modifyHead change, shape.Regular := by
  cases shapes with
  | nil => simp
  | cons first rest =>
    intro shape hshape
    rcases List.mem_cons.mp hshape with rfl | hrest
    · exact hregular first (h first List.mem_cons_self)
    · exact h shape (List.mem_cons_of_mem _ hrest)

/-- What changes names in the innermost scope, but no name of the language, and no class around. -/
private theorem Placed.modifyHead (h : r.Placed) (change : Shape → Shape)
    (hkind : ∀ shape, (change shape).kind = shape.kind)
    (hregular : ∀ shape : Shape, shape.Regular → (change shape).Regular)
    (hshapes : r₁.shapes = r.shapes.modifyHead change) (hrole : r₁.classRole = r.classRole) :
    r₁.Placed := by
  have hkinds : r₁.shapes.map Shape.kind = r.shapes.map Shape.kind := by
    rw [hshapes, kinds_modifyHead change hkind]
  refine ⟨?_, by rw [hrole, h.role, hkinds], hkinds ▸ h.innermost⟩
  rw [hshapes]
  exact regular_modifyHead hregular h.regular

/-- Names like others that the walk brings in keep it in place. -/
theorem Placed.onward (h : r.Placed) (honward : r.Onward new ids r₁)
    (hplain : ∀ name ∈ new, IsPlain name) : r₁.Placed :=
  h.modifyHead (·.settle new) (fun _ => rfl) (fun _ hregular => hregular.settle hplain)
    honward.shapes honward.classRole

/-- A declaration of a name like others keeps the walk in place. -/
theorem Placed.declare (h : r.Placed) {name : Mark} (hplain : name.Plain)
    (origin : Origin) : (r.declare name origin).Placed :=
  h.modifyHead (·.declare name.lexeme) (fun _ => rfl) (fun _ hregular => hregular.declare hplain)
    (shapes_declare r name origin) (passes_declare r name origin).classRole

/-- A scope that a program opens itself has nothing to do with classes. -/
theorem Placed.enter (h : r.Placed) {opening : Opening}
    (hkind : opening.kind = .block ∨ opening.kind = .function) : (r.enter opening).Placed := by
  have hregular : (Shape.opened opening).Regular := by
    rcases hkind with hkind | hkind <;> simp [Shape.Regular, Shape.opened, Shape.kind, hkind]
  refine ⟨fun shape hshape => ?_, ?_, ?_⟩
  · rcases List.mem_cons.mp hshape with rfl | hrest
    · exact hregular
    · exact h.regular shape hrest
  · have hrole : (r.enter opening).classRole = r.classRole := rfl
    rw [hrole, h.role, shapes_enter]
    rcases hkind with hkind | hkind <;> simp [ClassRole.within, Shape.opened, Shape.kind, hkind]
  · rw [shapes_enter]
    rcases hkind with hkind | hkind <;> simp [Shape.opened, Shape.kind, hkind]

/-- The code of a function is in place if its parameters are names like others. -/
theorem Placed.enterFunction (h : r.Placed) (role : FunctionRole) {code : Lambda}
    (hplain : ∀ param ∈ code.params, param.Plain) : (r.enterFunction role code).Placed := by
  have hinside :
      (({ r with functionRole := role, loops := 0 } : Resolver).enter (.function code)).Placed :=
    Placed.enter (r := { r with functionRole := role, loops := 0 })
      ⟨h.regular, h.role, h.innermost⟩ (.inr rfl)
  apply hinside.onward (onward_params code.params _)
  intro name hname
  obtain ⟨param, hparam, rfl⟩ := List.mem_map.mp hname
  exact hplain param hparam

end Resolver

/-- The scope of a name that the language introduces itself. -/
def Shape.implicit (opening : Opening) (name : String) : Shape :=
  (Shape.opened opening).settle [name]

@[simp]
theorem Shape.kind_implicit (opening : Opening) (name : String) :
    (Shape.implicit opening name).kind = opening.kind := rfl

namespace Resolver

/-- A scope of the language's own comes with its name in it. -/
theorem shapes_enterImplicit (r : Resolver) (opening : Opening) (name : String) (line : Nat) :
    (r.enterImplicit opening name line).shapes = .implicit opening name :: r.shapes := by
  unfold enterImplicit
  rw [shapes_defineImplicit, shapes_enter]
  rfl

theorem classRole_enterImplicit (r : Resolver) (opening : Opening) (name : String) (line : Nat) :
    (r.enterImplicit opening name line).classRole = r.classRole :=
  (passes_defineImplicit (r.enter opening) name line).classRole

/-- The scopes in which the methods of a class are walked through. -/
def methodShapes (r : Resolver) (name : Mark) (superclass : Option Ref) (methods : List Definition) :
    List Shape :=
  .implicit (.this methods) "this" ::
    ((superclass.map fun _ => .implicit (.super methods) "super").toList ++
      r.shapes.modifyHead (·.settle [name.lexeme]))

theorem shapes_enterClass (r : Resolver) (name : Mark) :
    (r.enterClass name).shapes = r.shapes.modifyHead (·.settle [name.lexeme]) :=
  shapes_declareAndDefine _ name .declared

theorem shapes_readSuperclass (r : Resolver) (name : Mark) (parent : Ref) :
    (r.readSuperclass name parent).shapes = r.shapes :=
  (onward_readSuperclass r name parent).shapes_eq

/-- Around the methods of a class stand the scopes of `this` and, below a superclass, of `super`. -/
theorem shapes_enterMethods (r : Resolver) (name : Mark) (superclass : Option Ref)
    (methods : List Definition) :
    (r.enterMethods name superclass methods).shapes = r.methodShapes name superclass methods := by
  unfold enterMethods methodShapes
  cases superclass with
  | none => simp [shapes_enterImplicit, shapes_enterClass]
  | some parent => simp [shapes_enterImplicit, shapes_readSuperclass, shapes_enterClass]

/-- The role inside a class tells whether it has a superclass. -/
theorem classRole_enterMethods (r : Resolver) (name : Mark) (superclass : Option Ref)
    (methods : List Definition) : (r.enterMethods name superclass methods).classRole =
      match superclass with
      | none => .base
      | some _ => .derived := by
  unfold enterMethods
  rw [classRole_enterImplicit]
  cases superclass with
  | none => exact (onward_declareAndDefine _ name .declared).classRole
  | some parent =>
    dsimp only
    rw [classRole_enterImplicit]
    exact (onward_readSuperclass _ name parent).classRole

/-- The methods of a class are in place, since its own scopes lie where the class is. -/
theorem Placed.enterMethods {r : Resolver} (h : r.Placed) {name : Mark} (hplain : name.Plain)
    (superclass : Option Ref) (methods : List Definition) :
    (r.enterMethods name superclass methods).Placed := by
  have hthis : (Shape.implicit (.this methods) "this").Regular := by
    simp [Shape.Regular, Shape.implicit, Shape.settle, Shape.opened, Shape.kind, Opening.kind]
  have hsuper : (Shape.implicit (.super methods) "super").Regular := by
    simp [Shape.Regular, Shape.implicit, Shape.settle, Shape.opened, Shape.kind, Opening.kind]
  have houter : ∀ shape ∈ r.shapes.modifyHead (·.settle [name.lexeme]), shape.Regular :=
    regular_modifyHead
      (fun _ hregular => hregular.settle fun _ hmem => List.mem_singleton.mp hmem ▸ hplain)
      h.regular
  have hkinds := kinds_modifyHead (·.settle [name.lexeme]) (fun _ => rfl) r.shapes
  refine ⟨?_, ?_, ?_⟩
  · rw [shapes_enterMethods]
    cases superclass with
    | none => simpa [methodShapes, hthis] using houter
    | some parent => simpa [methodShapes, hthis, hsuper] using houter
  · rw [shapes_enterMethods, classRole_enterMethods]
    have hinnermost := h.innermost
    cases superclass with
    | none =>
      simp only [methodShapes, Option.map_none, Option.toList_none, List.nil_append, List.map_cons,
        hkinds]
      cases hlist : r.shapes.map Shape.kind with
      | nil => rfl
      | cons kind kinds =>
        rw [hlist] at hinnermost
        cases kind with
        | super => exact absurd rfl hinnermost
        | _ => rfl
    | some parent => rfl
  · simp [shapes_enterMethods, methodShapes, Opening.kind]

end Resolver

namespace ClassRole

/-- Inside a class there is a scope of `this`. -/
theorem exists_this {kinds : List ScopeKind} (h : within kinds ≠ .none) :
    ∃ depth, kinds.findIdx? (· = .this) = some depth := by
  induction kinds with
  | nil => exact absurd rfl h
  | cons kind rest ih =>
    rw [List.findIdx?_cons]
    have hfurther (h : within rest ≠ .none) :
        ∃ depth, (rest.findIdx? (· = .this)).map (· + 1) = some depth := by
      obtain ⟨depth, hdepth⟩ := ih h
      exact ⟨depth + 1, by rw [hdepth]; rfl⟩
    cases kind with
    | this => exact ⟨0, rfl⟩
    | super => exact absurd rfl h
    | block => exact hfurther (by simpa [within] using h)
    | function => exact hfurther (by simpa [within] using h)

/-- Inside a class with a superclass the first scope of `super` lies right around that of `this`. -/
theorem exists_super {kinds : List ScopeKind} (h : within kinds = .derived) :
    ∃ depth, kinds.findIdx? (· = .this) = some depth ∧
      kinds.findIdx? (· = .super) = some (depth + 1) := by
  induction kinds with
  | nil => cases h
  | cons kind rest ih =>
    rw [List.findIdx?_cons, List.findIdx?_cons]
    have hfurther (h : within rest = .derived) :
        ∃ depth, (rest.findIdx? (· = .this)).map (· + 1) = some depth ∧
          (rest.findIdx? (· = .super)).map (· + 1) = some (depth + 1) := by
      obtain ⟨depth, hthis, hsuper⟩ := ih h
      exact ⟨depth + 1, by rw [hthis]; rfl, by rw [hsuper]; rfl⟩
    cases kind with
    | block => exact hfurther (by simpa [within] using h)
    | function => exact hfurther (by simpa [within] using h)
    | super => simp [within] at h
    | this =>
      cases rest with
      | nil => simp [within] at h
      | cons second others =>
        have hsecond : second = .super := by
          cases second <;> simp [within] at h ⊢
        subst hsecond
        exact ⟨0, rfl, rfl⟩

end ClassRole

/-- The kind at the first place where it is. -/
theorem getElem?_of_findIdx? {kinds : List ScopeKind} {kind : ScopeKind} {depth : Nat}
    (h : kinds.findIdx? (· = kind) = some depth) : kinds[depth]? = some kind := by
  obtain ⟨hlt, hkind, _⟩ := List.findIdx?_eq_some_iff_getElem.mp h
  rw [List.getElem?_eq_getElem hlt, of_decide_eq_true hkind]

/-- A name that just the scopes of one kind have is in the first of them. -/
private theorem depth?_of_kind {shapes : List Shape} {name : String} {kind : ScopeKind}
    (h : ∀ shape ∈ shapes, (shape.status name).isSome ↔ shape.kind = kind) :
    Shape.depth? shapes name = (shapes.map Shape.kind).findIdx? (· = kind) := by
  unfold Shape.depth?
  induction shapes with
  | nil => rfl
  | cons shape rest ih =>
    obtain ⟨hshape, hrest⟩ := List.forall_mem_cons.mp h
    rw [List.map_cons, List.findIdx?_cons, List.findIdx?_cons, ih hrest]
    simp only [hshape, decide_eq_true_eq]

section Regular

variable {shapes : List Shape} (hregular : ∀ shape ∈ shapes, shape.Regular)
include hregular

theorem depth?_this_eq :
    Shape.depth? shapes "this" = (shapes.map Shape.kind).findIdx? (· = .this) :=
  depth?_of_kind fun shape hshape => (hregular shape hshape).1

theorem depth?_super_eq :
    Shape.depth? shapes "super" = (shapes.map Shape.kind).findIdx? (· = .super) :=
  depth?_of_kind fun shape hshape => (hregular shape hshape).2

/-- Inside a class there is a scope of `this`. -/
theorem depth?_this (hrole : ClassRole.within (shapes.map Shape.kind) ≠ .none) :
    ∃ depth, Shape.depth? shapes "this" = some depth ∧
      (shapes.map Shape.kind)[depth]? = some .this := by
  obtain ⟨depth, hthis⟩ := ClassRole.exists_this hrole
  exact ⟨depth, (depth?_this_eq hregular).trans hthis, getElem?_of_findIdx? hthis⟩

/-- Inside a class with a superclass the scope of `super` lies right around that of `this`. -/
theorem depth?_super (hrole : ClassRole.within (shapes.map Shape.kind) = .derived) :
    ∃ depth, Shape.depth? shapes "super" = some (depth + 1) ∧
      (shapes.map Shape.kind)[depth]? = some .this ∧
      (shapes.map Shape.kind)[depth + 1]? = some .super := by
  obtain ⟨depth, hthis, hsuper⟩ := ClassRole.exists_super hrole
  exact ⟨depth, (depth?_super_eq hregular).trans hsuper, getElem?_of_findIdx? hthis,
    getElem?_of_findIdx? hsuper⟩

end Regular

end Lox
