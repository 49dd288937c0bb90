import Lox.Proofs.Binding.Noting
import Lox.Proofs.Binding.Place

namespace Lox

/-- A scope around a point of a program, with the names declared in it before that point. -/
structure Around where
  kind : ScopeKind
  names : List String
deriving DecidableEq, Repr

/-- An occurrence of a name, with the scopes around it, innermost first. -/
structure Occurrence where
  ref : Ref
  around : List Around
deriving DecidableEq, Repr

namespace Around

/-- Behind declarations: their names are in the innermost scope. At the top level there is none. -/
def declare (names : List String) : List Around → List Around :=
  List.modifyHead fun a => { a with names := names ++ a.names }

/-- The scopes around the methods of a class. -/
def ofMethods (name : Mark) (superclass : Option Ref) (around : List Around) : List Around :=
  ⟨.this, ["this"]⟩ :: ((superclass.map fun _ => ⟨.super, ["super"]⟩).toList ++ declare [name.lexeme] around)

/-- Whether there is a class around. -/
def inClass (around : List Around) : Bool :=
  around.any (·.kind = .this)

/-- How far out the first scope is in which the name has been declared. -/
def depth? (around : List Around) (name : String) : Option Nat :=
  around.findIdx? fun a => name ∈ a.names

end Around

/-- What static scoping says about an occurrence. -/
def Occurrence.resolution (o : Occurrence) : Resolution :=
  ⟨o.ref.mark.lexeme, o.ref.id, Around.depth? o.around o.ref.mark.lexeme⟩

mutual

/-- The occurrences in an expression, in the order in which they are bound. Outside of classes `this` is
    not an occurrence of anything. -/
def Expr.occurrences (around : List Around) : Expr → List Occurrence
  | .literal _ _ => []
  | .grouping inner => inner.occurrences around
  | .unary _ _ right => right.occurrences around
  | .binary _ _ left right => left.occurrences around ++ right.occurrences around
  | .unpaired _ _ right => right.occurrences around
  | .logical _ _ left right => left.occurrences around ++ right.occurrences around
  | .conditional condition yes no =>
    condition.occurrences around ++ yes.occurrences around ++ no.occurrences around
  | .comma left right => left.occurrences around ++ right.occurrences around
  | .name ref => [⟨ref, around⟩]
  | .assign ref value => value.occurrences around ++ [⟨ref, around⟩]
  | .call callee _ arguments => callee.occurrences around ++ Expr.occurrencesAll around arguments
  | .get object _ => object.occurrences around
  | .set object _ value => value.occurrences around ++ object.occurrences around
  | .this ref => if Around.inClass around then [⟨ref, around⟩] else []
  | .super ref _ => [⟨ref, around⟩]
  | .lambda _ code => code.occurrences around

/-- The occurrences in expressions in order, which all stand in the same surroundings. -/
def Expr.occurrencesAll (around : List Around) : List Expr → List Occurrence
  | [] => []
  | e :: rest => e.occurrences around ++ Expr.occurrencesAll around rest

/-- The parameters of a function and its body share one scope. -/
def Lambda.occurrences (around : List Around) : Lambda → List Occurrence
  | ⟨params, body⟩ => Stmt.occurrencesAll (⟨.function, params.map Mark.lexeme⟩ :: around) body

/-- The occurrences in the methods of a class in order. -/
def Definition.occurrencesAll (around : List Around) : List Definition → List Occurrence
  | [] => []
  | ⟨_, code⟩ :: rest => code.occurrences around ++ Definition.occurrencesAll around rest

/-- A declaration comes before its own initializer, body, superclass and methods. -/
def Stmt.occurrences (around : List Around) : Stmt → List Occurrence
  | .expression value => value.occurrences around
  | .print _ value => value.occurrences around
  | .var _ none => []
  | .var name (some initial) => initial.occurrences (Around.declare [name.lexeme] around)
  | .function ⟨name, code⟩ => code.occurrences (Around.declare [name.lexeme] around)
  | .class name none methods => Definition.occurrencesAll (Around.ofMethods name none around) methods
  | .class name (some parent) methods =>
    ⟨parent, Around.declare [name.lexeme] around⟩ ::
      Definition.occurrencesAll (Around.ofMethods name (some parent) around) methods
  | .block body => Stmt.occurrencesAll (⟨.block, []⟩ :: around) body
  | .if condition yes none => condition.occurrences around ++ yes.occurrences around
  | .if condition yes (some no) =>
    condition.occurrences around ++ yes.occurrences around ++
      no.occurrences (Around.declare yes.declares around)
  | .while condition body => condition.occurrences around ++ body.occurrences around
  | .return _ none => []
  | .return _ (some value) => value.occurrences around
  | .break _ => []

/-- A statement comes before those that follow it, with whatever it declares. -/
def Stmt.occurrencesAll (around : List Around) : List Stmt → List Occurrence
  | [] => []
  | s :: rest => s.occurrences around ++ Stmt.occurrencesAll (Around.declare s.declares around) rest

end

/-- What counts of a scope where names are looked for: what it is for, and which names are in it. -/
def Around.view (a : Around) : ScopeKind × (String → Bool) :=
  ⟨a.kind, fun name => name ∈ a.names⟩

/-- What a text shows of a scope: what it is for, and which names it has. -/
def Shape.view (shape : Shape) : ScopeKind × (String → Bool) :=
  ⟨shape.kind, fun name => (shape.status name).isSome⟩

/-- Names that settle in a scope are shown in it. -/
theorem Shape.view_settle {shape : Shape} {a : Around} (h : shape.view = a.view) (names : List String) :
    (shape.settle names).view = ({ a with names := names ++ a.names } : Around).view := by
  obtain ⟨hkind, hnames⟩ := Prod.mk.inj h
  refine Prod.ext hkind (funext fun name => ?_)
  have hname := congrFun hnames name
  by_cases hmem : name ∈ names <;> simp_all [Shape.settle, Shape.view, Around.view]

/-- A name that is declared in a scope is shown in it. -/
theorem Shape.view_declare {shape : Shape} {a : Around} (h : shape.view = a.view) (name : String) :
    (shape.declare name).view = ({ a with names := [name] ++ a.names } : Around).view := by
  obtain ⟨hkind, hnames⟩ := Prod.mk.inj h
  refine Prod.ext hkind (funext fun other => ?_)
  have hother := congrFun hnames other
  by_cases hsame : other = name
  · cases hstatus : shape.status name <;> simp [Shape.declare, Shape.view, Around.view, hsame, hstatus]
  · simpa [Shape.declare, Shape.view, Around.view, hsame] using hother

namespace Resolver

/-- The scopes of the walk are those around, and have the names declared in these. -/
def Within (around : List Around) (r : Resolver) : Prop :=
  r.shapes.map Shape.view = around.map Around.view

/-- The walk is at a point with these scopes around, in a class if there is one. -/
structure Stands (around : List Around) (r : Resolver) : Prop where
  within : r.Within around
  inClass : r.classRole = .none ↔ Around.inClass around = false

variable {around : List Around} {r r₁ : Resolver} {new : List String} {ids : List Nat}

/-- A change of the innermost scope is one of the text around if both show the same. -/
theorem Within.modifyHead (h : r.Within around) {change : Shape → Shape} {change' : Around → Around}
    (hchange : ∀ {shape : Shape} {a : Around}, shape.view = a.view → (change shape).view = (change' a).view)
    (hshapes : r₁.shapes = r.shapes.modifyHead change) : r₁.Within (around.modifyHead change') := by
  unfold Within at h ⊢
  rw [hshapes]
  cases hlist : r.shapes with
  | nil =>
    rw [hlist] at h
    rw [List.map_eq_nil_iff.mp h.symm]
    rfl
  | cons shape shapes =>
    rw [hlist] at h
    obtain ⟨a, rest, rfl, hview, hrest⟩ := List.map_eq_cons_iff.mp h.symm
    rw [List.modifyHead_cons, List.modifyHead_cons, List.map_cons, List.map_cons, hrest,
      hchange hview.symm]

theorem Within.onward (h : r.Within around) (honward : r.Onward new ids r₁) :
    r₁.Within (Around.declare new around) :=
  h.modifyHead (fun hview => Shape.view_settle hview new) honward.shapes

theorem Within.declare (h : r.Within around) (name : Mark) (origin : Origin) :
    (r.declare name origin).Within (Around.declare [name.lexeme] around) :=
  h.modifyHead (fun hview => Shape.view_declare hview name.lexeme) (shapes_declare r name origin)

/-- A name is found at the depth that the text around tells. -/
theorem Within.depth? (h : r.Within around) (name : String) :
    depth? r.scopes name = Around.depth? around name := by
  have hview := congrArg (List.findIdx? fun view : ScopeKind × (String → Bool) => view.2 name) h
  rw [List.findIdx?_map, List.findIdx?_map] at hview
  rw [depth?_scopes]
  exact hview

theorem inClass_declare (names : List String) (around : List Around) :
    Around.inClass (Around.declare names around) = Around.inClass around := by
  cases around <;> rfl

theorem declare_nil (around : List Around) : Around.declare [] around = around := by
  cases around <;> rfl

theorem Stands.onward (h : r.Stands around) (honward : r.Onward new ids r₁) :
    r₁.Stands (Around.declare new around) :=
  ⟨h.within.onward honward, by rw [honward.classRole, inClass_declare]; exact h.inClass⟩

/-- A walk that declares nothing comes back to where it began. -/
theorem Stands.past (h : r.Stands around) (honward : r.Onward [] ids r₁) : r₁.Stands around :=
  declare_nil around ▸ h.onward honward

theorem Stands.declare (h : r.Stands around) (name : Mark) (origin : Origin) :
    (r.declare name origin).Stands (Around.declare [name.lexeme] around) :=
  ⟨h.within.declare name origin, by
    rw [(passes_declare r name origin).classRole, inClass_declare]
    exact h.inClass⟩

/-- A scope that a program opens itself is no class. -/
theorem Stands.enter (h : r.Stands around) (opening : Opening)
    (hkind : opening.kind = .block ∨ opening.kind = .function) :
    (r.enter opening).Stands (⟨opening.kind, []⟩ :: around) := by
  refine ⟨?_, ?_⟩
  · unfold Within
    rw [shapes_enter, List.map_cons, h.within, List.map_cons]
    refine congrArg (· :: _) (Prod.ext rfl (funext fun name => ?_))
    simp [Shape.view, Shape.opened, Around.view]
  · have hrole : (r.enter opening).classRole = r.classRole := rfl
    rw [hrole, h.inClass]
    rcases hkind with hkind | hkind <;> simp [Around.inClass, hkind]

/-- Inside a function its parameters are around, and nothing more of the function. -/
theorem Stands.enterFunction (h : r.Stands around) (role : FunctionRole) (code : Lambda) :
    (r.enterFunction role code).Stands (⟨.function, code.params.map Mark.lexeme⟩ :: around) := by
  have hinside : (({ r with functionRole := role, loops := 0 } : Resolver).enter (.function code)).Stands
      (⟨.function, []⟩ :: around) :=
    @Stands.enter around { r with functionRole := role, loops := 0 } ⟨h.within, h.inClass⟩ (.function code)
      (.inr rfl)
  have hparams := hinside.onward (onward_params code.params _)
  rwa [Around.declare, List.modifyHead_cons, List.append_nil] at hparams

theorem Within.enterClass (h : r.Within around) (name : Mark) :
    (r.enterClass name).Within (Around.declare [name.lexeme] around) :=
  h.modifyHead (fun hview => Shape.view_settle hview _) (shapes_enterClass r name)

theorem view_implicit (opening : Opening) (name : String) :
    (Shape.implicit opening name).view = (⟨opening.kind, [name]⟩ : Around).view := by
  refine Prod.ext rfl (funext fun other => ?_)
  by_cases hother : other = name <;>
    simp [Shape.implicit, Shape.settle, Shape.opened, Shape.view, Around.view, hother]

/-- Inside the methods of a class there is the scope of `this`, and around it that of `super` if the
    class has a superclass. -/
theorem Stands.enterMethods (h : r.Stands around) (name : Mark) (superclass : Option Ref)
    (methods : List Definition) :
    (r.enterMethods name superclass methods).Stands (Around.ofMethods name superclass around) := by
  have hclass := h.within.enterClass name
  refine ⟨?_, ?_⟩
  · unfold Within at hclass ⊢
    rw [shapes_enterMethods]
    rw [shapes_enterClass] at hclass
    cases superclass <;> simp [methodShapes, Around.ofMethods, view_implicit, Opening.kind, hclass]
  · rw [classRole_enterMethods]
    cases superclass <;> simp [Around.ofMethods, Around.inClass]

/-- Such a part of the walk decides these occurrences one after the other, as static scoping says. -/
def Records (os : List Occurrence) (r r' : Resolver) : Prop :=
  r'.resolutions = (os.map Occurrence.resolution).reverse ++ r.resolutions

variable {os others : List Occurrence} {r₂ : Resolver}

theorem Records.trans (h : Records os r r₁) (h' : Records others r₁ r₂) : Records (os ++ others) r r₂ := by
  unfold Records at h h' ⊢
  rw [h', h, List.map_append, List.reverse_append, List.append_assoc]

/-- Where there is no occurrence nothing is decided. -/
theorem Passes.records (h : r.Passes [] r₁) : Records [] r r₁ := by
  obtain ⟨added, hadded, hids⟩ := h.resolutions
  rw [List.map_eq_nil_iff.mp (List.sublist_nil.mp hids)] at hadded
  exact hadded

/-- An occurrence is recorded with the depth that the text around it tells. -/
theorem Within.records_resolve (h : r.Within around) (ref : Ref) :
    Records [⟨ref, around⟩] r (r.resolve ref) := by
  unfold Records Resolver.resolve
  dsimp only
  rw [h.depth?]
  rfl

theorem Within.records_read (h : r.Within around) (ref : Ref) : Records [⟨ref, around⟩] r (r.read ref) :=
  (h.records_resolve ref).trans (onward_use _ _).toPasses.records

theorem Within.records_readName (h : r.Within around) (ref : Ref) :
    Records [⟨ref, around⟩] r (r.readName ref) := by
  have hchecked := onward_errorIf r (r.inInitializer ref.mark.lexeme) .readInInitializer ref.mark
  have hwithin := h.onward hchecked
  rw [declare_nil] at hwithin
  exact hchecked.toPasses.records.trans (hwithin.records_read ref)

/-- An occurrence of `this` is recorded if a class is around it. -/
theorem Stands.records_readThis (h : r.Stands around) (ref : Ref) :
    Records (if Around.inClass around then [⟨ref, around⟩] else []) r (r.readThis ref) := by
  unfold readThis
  cases hclass : Around.inClass around with
  | false =>
    rw [if_pos (h.inClass.mpr hclass)]
    exact (passes_error r _ _).records
  | true =>
    have hrole : r.classRole ≠ .none := fun hnone => by
      rw [h.inClass.mp hnone] at hclass
      cases hclass
    rw [if_neg hrole]
    exact h.within.records_read ref

theorem Within.records_readSuper (h : r.Within around) (ref : Ref) :
    Records [⟨ref, around⟩] r (r.readSuper ref) := by
  unfold readSuper
  dsimp only
  split
  · exact Within.records_read (r := r.error _ _) h ref
  · exact Within.records_read (r := r.error _ _) h ref
  · exact h.records_read ref

/-- A superclass is recorded in front of the scopes of its class, also if it is the class itself. -/
theorem Within.records_readSuperclass (h : r.Within around) (name : Mark) (parent : Ref) :
    Records [⟨parent, around⟩] r (r.readSuperclass name parent) := by
  unfold readSuperclass
  dsimp only
  split
  · exact Within.records_readName (r := { r.error _ _ with classRole := .derived }) h parent
  · exact Within.records_readName (r := { r with classRole := .derived }) h parent

theorem resolutions_leave (r : Resolver) : r.leave.resolutions = r.resolutions := by
  unfold leave
  split <;> rfl

/-- Nothing is decided where a scope ends. -/
theorem Records.leave (h : Records os r r₁) : Records os r r₁.leave :=
  (resolutions_leave r₁).trans h

/-- A function records what is recorded in its code. -/
theorem Records.inFunction {walk : Resolver → Resolver} (role : FunctionRole) (code : Lambda)
    (h : Records os (r.enterFunction role code) (walk (r.enterFunction role code))) :
    Records os r (inFunction role code walk r) := by
  have hparams := (onward_params code.params
    (({ r with functionRole := role, loops := 0 } : Resolver).enter (.function code))).toPasses.records
  exact (hparams.trans h).leave

/-- A class records its superclass before its methods. -/
theorem Within.records_enterMethods (h : r.Within around) (name : Mark) (superclass : Option Ref)
    (methods : List Definition) :
    Records ((superclass.map fun parent => ⟨parent, Around.declare [name.lexeme] around⟩).toList) r
      (r.enterMethods name superclass methods) := by
  have hclass : Records [] r (r.enterClass name) :=
    (onward_declareAndDefine { r with classRole := .base } name .declared).toPasses.records
  have himplicit (r : Resolver) (opening : Opening) (name : String) (line : Nat) :
      Records [] r (r.enterImplicit opening name line) :=
    (passes_defineImplicit (r.enter opening) name line).records
  unfold enterMethods
  cases superclass with
  | none => exact hclass.trans (himplicit _ _ _ _)
  | some parent =>
    exact hclass.trans (((h.enterClass name).records_readSuperclass name parent).trans
      ((himplicit _ _ _ _).trans (himplicit _ _ _ _)))

/-- A class records its superclass and what is recorded in its methods. -/
theorem Within.records_inClass (h : r.Within around) {walk : Resolver → Resolver} (name : Mark)
    (superclass : Option Ref) (methods : List Definition)
    (hwalk : Records os (r.enterMethods name superclass methods)
      (walk (r.enterMethods name superclass methods))) :
    Records ((superclass.map fun parent => ⟨parent, Around.declare [name.lexeme] around⟩).toList ++ os) r
      (inClass name superclass methods walk r) := by
  have hinside := (h.records_enterMethods name superclass methods).trans hwalk
  cases superclass with
  | none => exact hinside.leave
  | some parent => exact hinside.leave.leave

end Resolver

open Resolver

mutual

/-- The walk records the occurrences of a tree, each in the surroundings that the text tells. The
    induction is on the tree, and the surroundings are carried through it. -/
theorem Expr.resolve_records (e : Expr) {around : List Around} {r : Resolver} (h : r.Stands around) :
    Records (e.occurrences around) r (e.resolve r) := by
  cases e with
  | literal value line => exact (Passes.refl r).records
  | grouping inner => exact inner.resolve_records h
  | unary op mark right | unpaired op mark right => exact right.resolve_records h
  | binary op mark left right | logical op mark left right | comma left right =>
    exact (left.resolve_records h).trans (right.resolve_records (h.past (left.resolve_onward r)))
  | conditional condition yes no =>
    have hyes := h.past (condition.resolve_onward r)
    have hno := hyes.past (yes.resolve_onward _)
    exact ((condition.resolve_records h).trans (yes.resolve_records hyes)).trans (no.resolve_records hno)
  | name ref => exact h.within.records_readName ref
  | assign ref value =>
    have hafter := h.past (value.resolve_onward r)
    exact (value.resolve_records h).trans (hafter.within.records_resolve ref)
  | call callee paren arguments =>
    exact (callee.resolve_records h).trans
      (Expr.resolveAll_records arguments (h.past (callee.resolve_onward r)))
  | get object property => exact object.resolve_records h
  | set object property value =>
    exact (value.resolve_records h).trans (object.resolve_records (h.past (value.resolve_onward r)))
  | this ref => exact h.records_readThis ref
  | super ref method => exact h.within.records_readSuper ref
  | lambda keyword code => exact code.resolve_records .lambda h

theorem Expr.resolveAll_records (es : List Expr) {around : List Around} {r : Resolver}
    (h : r.Stands around) : Records (Expr.occurrencesAll around es) r (Expr.resolveAll es r) := by
  cases es with
  | nil => exact (Passes.refl r).records
  | cons e rest =>
    exact (e.resolve_records h).trans (Expr.resolveAll_records rest (h.past (e.resolve_onward r)))

theorem Lambda.resolve_records (code : Lambda) (role : FunctionRole) {around : List Around} {r : Resolver}
    (h : r.Stands around) : Records (code.occurrences around) r (code.resolve role r) := by
  obtain ⟨params, body⟩ := code
  exact Records.inFunction role ⟨params, body⟩
    (Stmt.resolveAll_records body (h.enterFunction role ⟨params, body⟩))

theorem Definition.resolveAll_records (definitions : List Definition) {around : List Around} {r : Resolver}
    (h : r.Stands around) :
    Records (Definition.occurrencesAll around definitions) r (Definition.resolveAll definitions r) := by
  cases definitions with
  | nil => exact (Passes.refl r).records
  | cons definition rest =>
    obtain ⟨name, code⟩ := definition
    exact (code.resolve_records _ h).trans
      (Definition.resolveAll_records rest (h.past (code.resolve_onward _ r)))

/-- A statement's occurrences are recorded in their order, each with what is declared before it. -/
theorem Stmt.resolve_records (s : Stmt) {around : List Around} {r : Resolver} (h : r.Stands around) :
    Records (s.occurrences around) r (s.resolve r) := by
  cases s with
  | expression value => exact value.resolve_records h
  | print keyword value => exact value.resolve_records h
  | var name initial =>
    cases initial with
    | none => exact (onward_declareAndDefine r name .declared).toPasses.records
    | some initial =>
      have hinitial := initial.resolve_records (h.declare name .declared)
      have hbefore := (passes_declare r name .declared).records.trans hinitial
      have hall := hbefore.trans (passes_define (initial.resolve (r.declare name .declared)) name).records
      rwa [List.nil_append, List.append_nil] at hall
  | function definition =>
    obtain ⟨name, code⟩ := definition
    have hname := onward_declareAndDefine r name .declared
    exact hname.toPasses.records.trans (code.resolve_records .function (h.onward hname))
  | «class» name superclass methods =>
    have hall := h.within.records_inClass name superclass methods
      (Definition.resolveAll_records methods (h.enterMethods name superclass methods))
    cases superclass <;> exact hall
  | block body => exact (Stmt.resolveAll_records body (h.enter (.block body) (.inl rfl))).leave
  | «if» condition yes no =>
    have hyes := h.past (condition.resolve_onward r)
    have hboth := (condition.resolve_records h).trans (yes.resolve_records hyes)
    cases no with
    | none => exact hboth
    | some no => exact hboth.trans (no.resolve_records (hyes.onward (yes.resolve_onward _)))
  | «while» condition body =>
    have hafter := h.past (condition.resolve_onward r)
    let inside : Resolver := { condition.resolve r with loops := (condition.resolve r).loops + 1 }
    have hbody := body.resolve_records (r := inside) ⟨hafter.within, hafter.inClass⟩
    exact (condition.resolve_records h).trans hbody
  | «return» keyword value =>
    cases value with
    | none => exact (onward_checkReturn r keyword false).toPasses.records
    | some value =>
      have hchecked := onward_checkReturn r keyword true
      exact hchecked.toPasses.records.trans (value.resolve_records (h.past hchecked))
  | «break» keyword => exact (onward_checkBreak r keyword).toPasses.records

theorem Stmt.resolveAll_records (body : List Stmt) {around : List Around} {r : Resolver}
    (h : r.Stands around) : Records (Stmt.occurrencesAll around body) r (Stmt.resolveAll body r) := by
  cases body with
  | nil => exact (Passes.refl r).records
  | cons s rest =>
    exact (s.resolve_records h).trans (Stmt.resolveAll_records rest (h.onward (s.resolve_onward r)))

end

/-- Binding decides what static scoping says, one occurrence after the other. -/
theorem resolve_eq_occurrences (program : List Stmt) :
    (resolve program).resolutions = (Stmt.occurrencesAll [] program).map Occurrence.resolution := by
  have hstart : Resolver.start.Stands [] := ⟨rfl, by simp [Resolver.start, Around.inClass]⟩
  have hall : (Stmt.resolveAll program .start).resolutions = _ := Stmt.resolveAll_records program hstart
  unfold resolve
  dsimp only
  rw [hall]
  simp [Resolver.start]

/-- Names that are declared in two steps. -/
theorem Around.declare_declare (names more : List String) (around : List Around) :
    Around.declare more (Around.declare names around) = Around.declare (more ++ names) around := by
  cases around with
  | nil => rfl
  | cons a rest => simp [Around.declare, List.append_assoc]

/-- Whatever follows changes nothing about the occurrences before it, and these only tell the names that
    are declared by then. -/
theorem Stmt.occurrencesAll_append (around : List Around) (body more : List Stmt) :
    Stmt.occurrencesAll around (body ++ more) = Stmt.occurrencesAll around body ++
      Stmt.occurrencesAll (Around.declare (body.reverse.flatMap Stmt.declares) around) more := by
  induction body generalizing around with
  | nil => exact congrArg (Stmt.occurrencesAll · more) (declare_nil around).symm
  | cons s rest ih =>
    rw [List.cons_append, Stmt.occurrencesAll, ih, Around.declare_declare, Stmt.occurrencesAll,
      List.append_assoc, List.reverse_cons, List.flatMap_append, List.flatMap_singleton]

/-- At the top level there is no scope, so programs that stand side by side are bound apart. -/
theorem resolutions_append (first second : List Stmt) :
    (resolve (first ++ second)).resolutions =
      (resolve first).resolutions ++ (resolve second).resolutions := by
  rw [resolve_eq_occurrences, resolve_eq_occurrences, resolve_eq_occurrences,
    Stmt.occurrencesAll_append, List.map_append]
  rfl

/-- An occurrence with a number of its own is noted as static scoping says. -/
theorem Machine.depths_of_occurrence (m : Machine) {program : List Stmt}
    (hnodup : (Stmt.idsAll program).Nodup) {o : Occurrence} (ho : o ∈ Stmt.occurrencesAll [] program) :
    (m.note (resolve program).resolutions).depths[o.ref.id]? =
      (Around.depth? o.around o.ref.mark.lexeme <|> m.depths[o.ref.id]?) := by
  have hr : o.resolution ∈ (resolve program).resolutions :=
    resolve_eq_occurrences program ▸ List.mem_map_of_mem ho
  exact Machine.depths_note ((resolve_ids program).nodup hnodup) hr

/-- No other number is touched. -/
theorem Machine.depths_of_no_occurrence (m : Machine) {program : List Stmt} {id : Nat}
    (h : ∀ o ∈ Stmt.occurrencesAll [] program, o.ref.id = id →
      Around.depth? o.around o.ref.mark.lexeme = none) :
    (m.note (resolve program).resolutions).depths[id]? = m.depths[id]? := by
  refine Machine.depths_note_of_none fun r hr hid => ?_
  rw [resolve_eq_occurrences] at hr
  obtain ⟨o, ho, rfl⟩ := List.mem_map.mp hr
  exact h o ho hid

/-- Binding is static scoping. It decides for each occurrence how many scopes lie between it and the first
    one around it in which the name is declared before it, and nothing else; a machine then knows of just
    these depths, next to what it knew. What follows an occurrence plays no part in that, nor does what
    stands beside it at the top level. -/
theorem static_scoping (program : List Stmt) :
    (resolve program).resolutions = (Stmt.occurrencesAll [] program).map Occurrence.resolution ∧
    (∀ m : Machine, (Stmt.idsAll program).Nodup → ∀ o ∈ Stmt.occurrencesAll [] program,
      (m.note (resolve program).resolutions).depths[o.ref.id]? =
        (Around.depth? o.around o.ref.mark.lexeme <|> m.depths[o.ref.id]?)) ∧
    (∀ (m : Machine) (id : Nat), (∀ o ∈ Stmt.occurrencesAll [] program, o.ref.id = id →
        Around.depth? o.around o.ref.mark.lexeme = none) →
      (m.note (resolve program).resolutions).depths[id]? = m.depths[id]?) ∧
    (∀ around more, Stmt.occurrencesAll around program <+: Stmt.occurrencesAll around (program ++ more)) ∧
    ∀ before after, (resolve (before ++ program ++ after)).resolutions =
      (resolve before).resolutions ++ (resolve program).resolutions ++ (resolve after).resolutions := by
  refine ⟨resolve_eq_occurrences program, fun m hnodup o ho => m.depths_of_occurrence hnodup ho,
    fun m id h => m.depths_of_no_occurrence h, fun around more => ?_, fun before after => ?_⟩
  · rw [Stmt.occurrencesAll_append]
    exact List.prefix_append _ _
  · rw [resolutions_append, resolutions_append]

/-- A variable of an inner block hides the outer one from its own initializer on, and not before. -/
theorem static_scoping_of_hiding :
    let outer : Ref := ⟨0, ⟨"a", 2⟩⟩
    let inner : Ref := ⟨1, ⟨"a", 3⟩⟩
    let program : List Stmt := [.block [.var ⟨"a", 1⟩ none,
      .block [.expression (.name outer), .var ⟨"a", 3⟩ (some (.name inner))]]]
    (Stmt.idsAll program).Nodup ∧ ∀ m : Machine,
      (m.note (resolve program).resolutions).depths[outer.id]? = some 1 ∧
      (m.note (resolve program).resolutions).depths[inner.id]? = some 0 := by
  intro outer inner program
  have hnodup : (Stmt.idsAll program).Nodup := by decide
  have houter : (⟨outer, [⟨.block, []⟩, ⟨.block, ["a"]⟩]⟩ : Occurrence) ∈
      Stmt.occurrencesAll [] program := by decide
  have hinner : (⟨inner, [⟨.block, ["a"]⟩, ⟨.block, ["a"]⟩]⟩ : Occurrence) ∈
      Stmt.occurrencesAll [] program := by decide
  have hnoted := (static_scoping program).2.1
  exact ⟨hnodup, fun m => ⟨hnoted m hnodup _ houter, hnoted m hnodup _ hinner⟩⟩

end Lox
