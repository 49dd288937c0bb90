import Lox.Proofs.Binding.Shape
import Lox.Proofs.Tree.Form

namespace Lox

namespace Resolver

/-- A part of the walk that has the occurrences `ids` leads from one state to the other, whatever
    becomes of the scopes. -/
structure Passes (ids : List Nat) (r r' : Resolver) : Prop where
  functionRole : r'.functionRole = r.functionRole
  classRole : r'.classRole = r.classRole
  loops : r'.loops = r.loops
  resolutions : ∃ added : List Resolution, r'.resolutions = added.reverse ++ r.resolutions ∧
    (added.map Resolution.id).Sublist ids
  findings : r.findings <:+ r'.findings

/-- Such a part of the walk that settles the names `new` in the innermost scope, and leaves the
    scopes as they were otherwise. -/
structure Onward (new : List String) (ids : List Nat) (r r' : Resolver) : Prop
    extends Passes ids r r' where
  shapes : r'.shapes = r.shapes.modifyHead (·.settle new)

variable {new more : List String} {ids others : List Nat} {r r₁ r₂ : Resolver}

theorem Passes.refl (r : Resolver) : r.Passes [] r :=
  ⟨rfl, rfl, rfl, ⟨[], rfl, .slnil⟩, List.suffix_rfl⟩

/-- What the walk passes in two parts. -/
theorem Passes.trans (h : r.Passes ids r₁) (h' : r₁.Passes others r₂) :
    r.Passes (ids ++ others) r₂ where
  functionRole := h'.functionRole.trans h.functionRole
  classRole := h'.classRole.trans h.classRole
  loops := h'.loops.trans h.loops
  resolutions := by
    obtain ⟨first, hfirst, hsub⟩ := h.resolutions
    obtain ⟨second, hsecond, hsub'⟩ := h'.resolutions
    refine ⟨first ++ second, ?_, ?_⟩
    · rw [hsecond, hfirst, List.reverse_append, List.append_assoc]
    · rw [List.map_append]
      exact hsub.append hsub'
  findings := h.findings.trans h'.findings

theorem Passes.dropIds (h : r.Passes [] r₁) : r.Passes ids r₁ := by
  obtain ⟨added, hadded, hsub⟩ := h.resolutions
  exact { h with resolutions := ⟨added, hadded, hsub.trans (List.nil_sublist _)⟩ }

/-- Where nothing settles the scopes stay. -/
theorem modifyHead_settle_nil (shapes : List Shape) :
    shapes.modifyHead (·.settle []) = shapes := by
  cases shapes with
  | nil => rfl
  | cons shape rest => simp [Shape.settle_nil]

theorem Onward.refl (r : Resolver) : r.Onward [] [] r :=
  ⟨.refl r, (modifyHead_settle_nil _).symm⟩

/-- What the walk brings in and decides in two parts. -/
theorem Onward.trans (h : r.Onward new ids r₁) (h' : r₁.Onward more others r₂) :
    r.Onward (new ++ more) (ids ++ others) r₂ where
  toPasses := h.toPasses.trans h'.toPasses
  shapes := by
    rw [h'.shapes, h.shapes, List.modifyHead_modifyHead]
    congr
    funext shape
    exact shape.settle_settle new more

theorem Passes.onward (h : r.Passes ids r₁) (hshapes : r₁.shapes = r.shapes) :
    r.Onward [] ids r₁ :=
  ⟨h, hshapes.trans (modifyHead_settle_nil _).symm⟩

theorem Onward.shapes_eq (h : r.Onward [] ids r₁) : r₁.shapes = r.shapes :=
  h.shapes.trans (modifyHead_settle_nil _)

theorem passes_error (r : Resolver) (cause : ScopeCause) (mark : Mark) :
    r.Passes [] (r.error cause mark) :=
  ⟨rfl, rfl, rfl, ⟨[], rfl, .slnil⟩, List.suffix_cons _ _⟩

theorem passes_enter (r : Resolver) (opening : Opening) : r.Passes [] (r.enter opening) :=
  ⟨rfl, rfl, rfl, ⟨[], rfl, .slnil⟩, List.suffix_rfl⟩

theorem passes_leave (r : Resolver) : r.Passes [] r.leave := by
  unfold leave
  split
  · exact .refl r
  · exact ⟨rfl, rfl, rfl, ⟨[], rfl, .slnil⟩, List.suffix_append _ _⟩

/-- A change of the innermost scope decides and finds nothing. -/
private theorem passes_updateInnermost (r : Resolver) (change : Scope → Scope) :
    r.Passes [] (r.updateInnermost change) := by
  unfold updateInnermost
  split
  · exact .refl r
  · exact ⟨rfl, rfl, rfl, ⟨[], rfl, .slnil⟩, List.suffix_rfl⟩

/-- A declaration decides nothing. -/
theorem passes_declare (r : Resolver) (name : Mark) (origin : Origin) :
    r.Passes [] (r.declare name origin) := by
  unfold declare
  split
  · exact .refl r
  · dsimp only
    split
    · exact passes_error r _ _
    · exact ⟨rfl, rfl, rfl, ⟨[], rfl, .slnil⟩, List.suffix_rfl⟩

theorem passes_define (r : Resolver) (name : Mark) : r.Passes [] (r.define name) :=
  passes_updateInnermost r _

theorem passes_defineImplicit (r : Resolver) (name : String) (line : Nat) :
    r.Passes [] (r.defineImplicit name line) :=
  passes_updateInnermost r _

theorem onward_defineImplicit (r : Resolver) (name : String) (line : Nat) :
    r.Onward [name] [] (r.defineImplicit name line) :=
  ⟨passes_defineImplicit r name line, shapes_defineImplicit r name line⟩

theorem onward_declareAndDefine (r : Resolver) (name : Mark) (origin : Origin) :
    r.Onward [name.lexeme] [] (r.declareAndDefine name origin) :=
  ⟨(passes_declare r name origin).trans (passes_define _ name), shapes_declareAndDefine r name origin⟩

/-- An initializer is read once its variable is there, which has its value only afterwards. -/
theorem Onward.variable {name : Mark} {origin : Origin} {walk : Resolver → Resolver}
    (h : (r.declare name origin).Onward [] ids (walk (r.declare name origin))) :
    r.Onward [name.lexeme] ids ((walk (r.declare name origin)).define name) := by
  have hpasses := ((passes_declare r name origin).trans h.toPasses).trans (passes_define _ name)
  rw [List.nil_append, List.append_nil] at hpasses
  refine ⟨hpasses, ?_⟩
  rw [shapes_define, h.shapes_eq, shapes_declare, List.modifyHead_modifyHead]
  congr
  funext shape
  exact shape.define_declare name.lexeme

theorem onward_error (r : Resolver) (cause : ScopeCause) (mark : Mark) :
    r.Onward [] [] (r.error cause mark) :=
  (passes_error r cause mark).onward rfl

/-- A check brings in no name. -/
theorem onward_errorIf (r : Resolver) (condition : Prop) [Decidable condition] (cause : ScopeCause)
    (mark : Mark) : r.Onward [] [] (if condition then r.error cause mark else r) := by
  split
  · exact onward_error r cause mark
  · exact .refl r

/-- An occurrence is decided once, under its own number. -/
theorem onward_resolve (r : Resolver) (ref : Ref) : r.Onward [] [ref.id] (r.resolve ref) :=
  Passes.onward ⟨rfl, rfl, rfl,
    ⟨[⟨ref.mark.lexeme, ref.id, depth? r.scopes ref.mark.lexeme⟩], rfl, List.Sublist.refl _⟩,
    List.suffix_rfl⟩ rfl

/-- A read that is noted brings in no name. -/
theorem onward_use (r : Resolver) (name : String) : r.Onward [] [] (r.use name) := by
  refine Passes.onward ?_ (shapes_use r name)
  unfold use
  split
  · exact .refl r
  · exact ⟨rfl, rfl, rfl, ⟨[], rfl, .slnil⟩, List.suffix_rfl⟩

theorem onward_read (r : Resolver) (ref : Ref) : r.Onward [] [ref.id] (r.read ref) :=
  (onward_resolve r ref).trans (onward_use _ _)

theorem onward_readName (r : Resolver) (ref : Ref) : r.Onward [] [ref.id] (r.readName ref) :=
  (onward_errorIf r _ _ _).trans (onward_read _ ref)

theorem onward_readThis (r : Resolver) (ref : Ref) : r.Onward [] [ref.id] (r.readThis ref) := by
  unfold readThis
  split
  · exact (passes_error r _ _).dropIds.onward rfl
  · exact onward_read r ref

/-- An occurrence of `super` is decided, whatever is wrong with it. -/
theorem onward_readSuper (r : Resolver) (ref : Ref) : r.Onward [] [ref.id] (r.readSuper ref) := by
  unfold readSuper
  dsimp only
  split
  · exact (onward_error r _ _).trans (onward_read _ ref)
  · exact (onward_error r _ _).trans (onward_read _ ref)
  · exact onward_read r ref

theorem onward_checkReturn (r : Resolver) (keyword : Mark) (hasValue : Bool) :
    r.Onward [] [] (r.checkReturn keyword hasValue) :=
  (onward_errorIf r _ _ _).trans (onward_errorIf _ _ _ _)

theorem onward_checkBreak (r : Resolver) (keyword : Mark) :
    r.Onward [] [] (r.checkBreak keyword) :=
  onward_errorIf r _ _ _

/-- A walk through a new scope, which is gone afterwards. -/
theorem Onward.within (opening : Opening) (walk : Resolver → Resolver)
    (h : (r.enter opening).Onward new ids (walk (r.enter opening))) :
    r.Onward [] ids (within opening walk r) := by
  have hpasses := ((passes_enter r opening).trans h.toPasses).trans (passes_leave _)
  rw [List.nil_append, List.append_nil] at hpasses
  refine hpasses.onward ?_
  rw [shapes_leave, h.shapes, shapes_enter]
  rfl

/-- The body of a loop goes onward as it does by itself. -/
theorem Onward.inLoop {walk : Resolver → Resolver}
    (h : ({ r with loops := r.loops + 1 } : Resolver).Onward new ids
      (walk { r with loops := r.loops + 1 })) : r.Onward new ids (inLoop walk r) :=
  ⟨⟨h.functionRole, h.classRole, rfl, h.resolutions, h.findings⟩, h.shapes⟩

/-- The parameters of a function come into its scope one after the other. -/
theorem onward_params (params : List Mark) (r : Resolver) :
    r.Onward (params.map Mark.lexeme) []
      (params.foldl (fun r param => r.declareAndDefine param .parameter) r) := by
  induction params generalizing r with
  | nil => exact .refl r
  | cons param params ih => exact (onward_declareAndDefine r param .parameter).trans (ih _)

/-- The code of a function brings in no name outside of it. -/
theorem Onward.inFunction {walk : Resolver → Resolver} (role : FunctionRole) (code : Lambda)
    (h : ∀ r : Resolver, r.Onward new ids (walk r)) :
    r.Onward [] ids (inFunction role code walk r) := by
  have hwithin := Onward.within (.function code)
    (fun r => walk (code.params.foldl (fun r param => r.declareAndDefine param .parameter) r))
    (r := { r with functionRole := role, loops := 0 })
    ((onward_params code.params _).trans (h _))
  exact ⟨⟨rfl, hwithin.classRole, rfl, hwithin.resolutions, hwithin.findings⟩, hwithin.shapes⟩

/-- A scope of the language's own brings in no name outside of it. -/
theorem Onward.withinImplicit {walk : Resolver → Resolver} (opening : Opening) (name : String)
    (line : Nat) (h : ∀ r : Resolver, r.Onward [] ids (walk r)) (r : Resolver) :
    r.Onward [] ids (withinImplicit opening name line walk r) :=
  Onward.within opening (fun r => walk (r.defineImplicit name line))
    ((onward_defineImplicit _ name line).trans (h _))

/-- The class around makes no difference to what a part of the walk keeps. -/
private theorem Onward.withClassRole (h : r.Onward new ids r₁) (role : ClassRole) :
    Onward new ids { r with classRole := role } { r₁ with classRole := role } :=
  ⟨⟨h.functionRole, rfl, h.loops, h.resolutions, h.findings⟩, h.shapes⟩

theorem onward_readSuperclass (r : Resolver) (name : Mark) (parent : Ref) :
    Onward [] [parent.id] { r with classRole := .derived } (r.readSuperclass name parent) := by
  have hchecked := onward_errorIf r (parent.mark.lexeme = name.lexeme) .selfInheritance parent.mark
  exact (hchecked.withClassRole .derived).trans (onward_readName _ parent)

/-- A class brings in its name, and decides its superclass and what is in its methods. -/
theorem Onward.inClass {walk : Resolver → Resolver} (name : Mark) (superclass : Option Ref)
    (methods : List Definition) (h : ∀ r : Resolver, r.Onward [] ids (walk r)) :
    r.Onward [name.lexeme] ((superclass.map Ref.id).toList ++ ids)
      (inClass name superclass methods walk r) := by
  have hname := onward_declareAndDefine { r with classRole := .base } name .declared
  have hmethods := Onward.withinImplicit (.this methods) "this" name.line h
  cases superclass with
  | none => exact (hname.trans (hmethods _)).withClassRole r.classRole
  | some parent =>
    have hparent := onward_readSuperclass
      (declareAndDefine { r with classRole := .base } name .declared) name parent
    have hinside := Onward.withinImplicit (.super methods) "super" name.line hmethods
      (readSuperclass (declareAndDefine { r with classRole := .base } name .declared) name parent)
    exact ((hname.withClassRole .derived).trans (hparent.trans hinside)).withClassRole r.classRole

end Resolver

open Resolver

mutual

/-- The walk over an expression leaves every scope as it was and decides each of its occurrences.
    The induction is on the tree. -/
theorem Expr.resolve_onward (e : Expr) (r : Resolver) : r.Onward [] e.ids (e.resolve r) := by
  cases e with
  | literal value line => exact .refl r
  | grouping inner => exact inner.resolve_onward r
  | unary op mark right => exact right.resolve_onward r
  | binary op mark left right => exact (left.resolve_onward r).trans (right.resolve_onward _)
  | unpaired op mark right => exact right.resolve_onward r
  | logical op mark left right => exact (left.resolve_onward r).trans (right.resolve_onward _)
  | conditional condition yes no =>
    exact ((condition.resolve_onward r).trans (yes.resolve_onward _)).trans (no.resolve_onward _)
  | comma left right => exact (left.resolve_onward r).trans (right.resolve_onward _)
  | name ref => exact onward_readName r ref
  | assign ref value => exact (value.resolve_onward r).trans (onward_resolve _ ref)
  | call callee paren arguments =>
    exact (callee.resolve_onward r).trans (Expr.resolveAll_onward arguments _)
  | get object property => exact object.resolve_onward r
  | set object property value => exact (value.resolve_onward r).trans (object.resolve_onward _)
  | this ref => exact onward_readThis r ref
  | super ref method => exact onward_readSuper r ref
  | lambda keyword code => exact code.resolve_onward .lambda r

theorem Expr.resolveAll_onward (es : List Expr) (r : Resolver) :
    r.Onward [] (Expr.idsAll es) (Expr.resolveAll es r) := by
  cases es with
  | nil => exact .refl r
  | cons e rest => exact (e.resolve_onward r).trans (Expr.resolveAll_onward rest _)

theorem Lambda.resolve_onward (code : Lambda) (role : FunctionRole) (r : Resolver) :
    r.Onward [] code.ids (code.resolve role r) := by
  obtain ⟨params, body⟩ := code
  exact Onward.inFunction role ⟨params, body⟩ fun r => Stmt.resolveAll_onward body r

theorem Definition.resolveAll_onward (definitions : List Definition) (r : Resolver) :
    r.Onward [] (Definition.idsAll definitions) (Definition.resolveAll definitions r) := by
  cases definitions with
  | nil => exact .refl r
  | cons definition rest =>
    obtain ⟨name, code⟩ := definition
    exact (code.resolve_onward _ r).trans (Definition.resolveAll_onward rest _)

/-- The walk over a statement settles the names that it declares in the innermost scope. -/
theorem Stmt.resolve_onward (s : Stmt) (r : Resolver) :
    r.Onward s.declares s.ids (s.resolve r) := by
  cases s with
  | expression value => exact value.resolve_onward r
  | print keyword value => exact value.resolve_onward r
  | var name initial =>
    cases initial with
    | none => exact onward_declareAndDefine r name .declared
    | some initial => exact Onward.variable (initial.resolve_onward _)
  | function definition =>
    obtain ⟨name, code⟩ := definition
    exact (onward_declareAndDefine r name .declared).trans (code.resolve_onward .function _)
  | «class» name superclass methods =>
    have h := Onward.inClass name superclass methods (r := r) (Definition.resolveAll_onward methods)
    cases superclass with
    | none => exact h
    | some parent => exact h
  | block body => exact Onward.within (.block body) _ (Stmt.resolveAll_onward body _)
  | «if» condition yes no =>
    cases no with
    | none => exact (condition.resolve_onward r).trans (yes.resolve_onward _)
    | some no =>
      exact ((condition.resolve_onward r).trans (yes.resolve_onward _)).trans (no.resolve_onward _)
  | «while» condition body =>
    exact (condition.resolve_onward r).trans (Onward.inLoop (body.resolve_onward _))
  | «return» keyword value =>
    cases value with
    | none => exact onward_checkReturn r keyword false
    | some value => exact (onward_checkReturn r keyword true).trans (value.resolve_onward _)
  | «break» keyword => exact onward_checkBreak r keyword

theorem Stmt.resolveAll_onward (body : List Stmt) (r : Resolver) :
    r.Onward (body.flatMap Stmt.declares) (Stmt.idsAll body) (Stmt.resolveAll body r) := by
  cases body with
  | nil => exact .refl r
  | cons s rest => exact (s.resolve_onward r).trans (Stmt.resolveAll_onward rest _)

end

end Lox
