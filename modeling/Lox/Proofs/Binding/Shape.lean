import Lox.Binding.Resolution

namespace Lox

/-- What has opened a scope, and its names: true for a name that is initialized, false for one whose
    initializer is still to be read. -/
@[ext]
structure Shape where
  opening : Opening
  status : String → Option Bool

namespace Shape

/-- What the scope is for. -/
def kind (shape : Shape) : ScopeKind :=
  shape.opening.kind

/-- A scope that nothing is declared in yet. -/
def opened (opening : Opening) : Shape :=
  ⟨opening, fun _ => none⟩

/-- Gives names their value. -/
def settle (shape : Shape) (names : List String) : Shape :=
  { shape with status := fun name => if name ∈ names then some true else shape.status name }

/-- Brings in a name without a value, unless the name is there. -/
def declare (shape : Shape) (name : String) : Shape :=
  { shape with
    status := fun other => if other = name then shape.status name <|> some false
                           else shape.status other }

/-- Gives a name its value, if the name is there. -/
def define (shape : Shape) (name : String) : Shape :=
  { shape with
    status := fun other => if other = name then (shape.status name).map fun _ => true
                           else shape.status other }

theorem settle_nil (shape : Shape) : shape.settle [] = shape := by
  simp [settle]

/-- Names that settle in two steps. -/
theorem settle_settle (shape : Shape) (names more : List String) :
    (shape.settle names).settle more = shape.settle (names ++ more) := by
  refine Shape.ext rfl (funext fun name => ?_)
  simp only [settle, List.mem_append]
  by_cases hmore : name ∈ more <;> by_cases hnames : name ∈ names <;> simp [hmore, hnames]

/-- A name that is declared and then defined has settled. -/
theorem define_declare (shape : Shape) (name : String) :
    (shape.declare name).define name = shape.settle [name] := by
  refine Shape.ext rfl (funext fun other => ?_)
  by_cases h : other = name
  · cases hstatus : shape.status name <;> simp [define, declare, settle, h, hstatus]
  · simp [define, declare, settle, h]

/-- How far out the first scope with the name is. -/
def depth? (shapes : List Shape) (name : String) : Option Nat :=
  shapes.findIdx? fun shape => (shape.status name).isSome

end Shape

namespace Scope

/-- The scope as far as a run can tell: which names have their value. -/
def shape (s : Scope) : Shape :=
  ⟨s.opening, fun name => (s.locals.find? name).map Local.initialized⟩

/-- An insertion tells a run whether the name has its value. -/
theorem shape_insert (s : Scope) (name : String) (l : Local) :
    ({ s with locals := s.locals.insert name l } : Scope).shape =
      { s.shape with
        status := fun other => if other = name then some l.initialized
                               else s.shape.status other } := by
  refine Shape.ext rfl (funext fun other => ?_)
  simp only [shape, Table.find?_insert]
  by_cases h : other = name <;> simp [h]

/-- A change that leaves alone whether names are initialized does not show. -/
theorem shape_update_of_same (s : Scope) (name : String) {change : Local → Local}
    (h : ∀ l, (change l).initialized = l.initialized) : (s.update name change).shape = s.shape := by
  unfold update
  split
  · rfl
  · rename_i l hfind
    rw [shape_insert]
    refine Shape.ext rfl (funext fun other => ?_)
    by_cases hname : other = name
    · simp [shape, hname, h, hfind]
    · simp [hname]

/-- A name that gets its value tells a run so. -/
theorem shape_update_initialized (s : Scope) (name : String) :
    (s.update name fun l => { l with initialized := true }).shape = s.shape.define name := by
  unfold update
  split
  · rename_i hfind
    refine Shape.ext rfl (funext fun other => ?_)
    by_cases hname : other = name <;> simp [Shape.define, shape, hname, hfind]
  · rename_i l hfind
    rw [shape_insert]
    refine Shape.ext rfl (funext fun other => ?_)
    by_cases hname : other = name <;> simp [Shape.define, shape, hname, hfind]

theorem status_isSome (s : Scope) (name : String) :
    (s.shape.status name).isSome = s.locals.contains name := by
  simp [shape, Table.contains]

end Scope

namespace Resolver

/-- The open scopes as far as a run can tell. -/
def shapes (r : Resolver) : List Shape :=
  r.scopes.map Scope.shape

theorem shapes_error (r : Resolver) (cause : ScopeCause) (mark : Mark) :
    (r.error cause mark).shapes = r.shapes := rfl

theorem shapes_enter (r : Resolver) (opening : Opening) :
    (r.enter opening).shapes = .opened opening :: r.shapes := rfl

theorem shapes_leave (r : Resolver) : r.leave.shapes = r.shapes.tail := by
  unfold leave shapes
  cases hscopes : r.scopes with
  | nil => simp [hscopes]
  | cons scope scopes => rfl

/-- A change of the innermost scope is one of its shape. -/
private theorem shapes_updateInnermost (r : Resolver) {change : Scope → Scope}
    {change' : Shape → Shape} (h : ∀ s, (change s).shape = change' s.shape) :
    (r.updateInnermost change).shapes = r.shapes.modifyHead change' := by
  unfold updateInnermost shapes
  cases hscopes : r.scopes with
  | nil => simp [hscopes]
  | cons scope scopes => simp [h]

theorem shapes_define (r : Resolver) (name : Mark) :
    (r.define name).shapes = r.shapes.modifyHead (·.define name.lexeme) :=
  shapes_updateInnermost r fun s => s.shape_update_initialized name.lexeme

/-- A name of the language's own has its value at once. -/
theorem shapes_defineImplicit (r : Resolver) (name : String) (line : Nat) :
    (r.defineImplicit name line).shapes = r.shapes.modifyHead (·.settle [name]) := by
  apply shapes_updateInnermost r
  intro s
  rw [Scope.shape_insert]
  simp [Shape.settle]

/-- A declaration tells that the name is there. -/
theorem shapes_declare (r : Resolver) (name : Mark) (origin : Origin) :
    (r.declare name origin).shapes = r.shapes.modifyHead (·.declare name.lexeme) := by
  unfold declare
  cases hscopes : r.scopes with
  | nil => simp [shapes, hscopes]
  | cons scope scopes =>
    dsimp only
    split
    · rename_i hcontains
      rw [shapes_error]
      rw [← Scope.status_isSome, Option.isSome_iff_exists] at hcontains
      obtain ⟨initialized, hstatus⟩ := hcontains
      have hsame : scope.shape.declare name.lexeme = scope.shape := by
        refine Shape.ext rfl (funext fun other => ?_)
        by_cases hname : other = name.lexeme
        · simp [Shape.declare, hname, hstatus]
        · simp [Shape.declare, hname]
      simp [shapes, hscopes, hsame]
    · rename_i hnew
      rw [← Scope.status_isSome, Option.not_isSome_iff_eq_none] at hnew
      have hadded : ({ scope with
          locals := scope.locals.insert name.lexeme ⟨name.line, origin, false, false⟩ } :
            Scope).shape = scope.shape.declare name.lexeme := by
        rw [Scope.shape_insert]
        simp [Shape.declare, hnew]
      simp [shapes, hscopes, hadded]

/-- A name that needs no initializer settles at once. -/
theorem shapes_declareAndDefine (r : Resolver) (name : Mark) (origin : Origin) :
    (r.declareAndDefine name origin).shapes = r.shapes.modifyHead (·.settle [name.lexeme]) := by
  unfold declareAndDefine
  rw [shapes_define, shapes_declare, List.modifyHead_modifyHead]
  congr
  funext shape
  exact shape.define_declare name.lexeme

/-- Reads are not for a run to tell. -/
theorem shapes_use (r : Resolver) (name : String) : (r.use name).shapes = r.shapes := by
  unfold use
  split
  · rfl
  · rename_i depth _
    have hsame (s : Scope) : (s.update name fun l => { l with used := true }).shape = s.shape :=
      s.shape_update_of_same name fun _ => rfl
    apply List.ext_getElem?
    intro i
    simp only [shapes, List.getElem?_map, List.getElem?_modify]
    cases r.scopes[i]? with
    | none => rfl
    | some scope => by_cases h : depth = i <;> simp [h, hsame]

/-- The depth of a name does not hang on what a run cannot tell. -/
theorem depth?_scopes (r : Resolver) (name : String) :
    depth? r.scopes name = Shape.depth? r.shapes name := by
  unfold depth? Shape.depth? shapes
  rw [List.findIdx?_map]
  congr
  funext scope
  exact (scope.status_isSome name).symm

theorem opening_shapes (r : Resolver) : r.shapes.map Shape.opening = r.scopes.map Scope.opening := by
  simp [shapes, Scope.shape]

end Resolver

end Lox
