import Lox.Proofs.Tree.Breaks
import Lox.Binding.Resolution

namespace Lox

/-- The keyword of a break that no loop catches, if the error is about that. -/
def ScopeError.break? (e : ScopeError) : Option Mark :=
  if e.cause = .breakOutsideLoop then some e.mark else none

/-- The keywords of the breaks that no loop catches. -/
def Break.strays (breaks : List Break) : List Mark :=
  (breaks.filter Break.stray).map Break.keyword

theorem Break.strays_append (breaks others : List Break) :
    strays (breaks ++ others) = strays breaks ++ strays others := by
  rw [strays, List.filter_append, List.map_append, strays, strays]

/-- A keyword is among those that no loop catches if its break is. -/
theorem Break.mem_strays {keyword : Mark} {breaks : List Break} :
    keyword ∈ strays breaks ↔ ⟨keyword, true⟩ ∈ breaks := by
  simp only [strays, List.mem_map, List.mem_filter]
  constructor
  · rintro ⟨⟨_, _⟩, ⟨hmem, rfl⟩, rfl⟩
    exact hmem
  · exact fun hmem => ⟨_, ⟨hmem, rfl⟩, rfl⟩

namespace Resolver

/-- Whether the walk is in a loop. -/
def looping (r : Resolver) : Bool :=
  r.loops ≠ 0

/-- The keywords of the breaks reported so far, the last one first. -/
def reported (r : Resolver) : List Mark :=
  r.findings.filterMap fun finding => finding.error?.bind ScopeError.break?

/-- Between the two states the walk reports these breaks, and it is back in the same loops. -/
structure Reports (strays : List Mark) (r r' : Resolver) : Prop where
  loops : r'.loops = r.loops
  reported : r'.reported = strays.reverse ++ r.reported

variable {strays others : List Mark} {r r₁ r₂ : Resolver}

theorem Reports.refl (r : Resolver) : r.Reports [] r :=
  ⟨rfl, rfl⟩

/-- What two walks report one after the other. -/
theorem Reports.trans (h : r.Reports strays r₁) (h' : r₁.Reports others r₂) :
    r.Reports (strays ++ others) r₂ where
  loops := h'.loops.trans h.loops
  reported := by rw [h'.reported, h.reported, List.reverse_append, List.append_assoc]

/-- What comes before and after may be silent. -/
theorem Reports.between {r₀ r₃ : Resolver} (h : r₁.Reports strays r₂) (hbefore : r₀.Reports [] r₁)
    (hafter : r₂.Reports [] r₃) : r₀.Reports strays r₃ := by
  simpa using (hbefore.trans h).trans hafter

theorem Reports.looping (h : r.Reports strays r₁) : r₁.looping = r.looping := by
  rw [Resolver.looping, h.loops, Resolver.looping]

/-- An error of any other kind is no report of a break. -/
theorem reports_error {cause : ScopeCause} (h : cause ≠ .breakOutsideLoop) (r : Resolver) (mark : Mark) :
    r.Reports [] (r.error cause mark) := by
  refine ⟨rfl, ?_⟩
  simp [Resolver.reported, Resolver.error, Finding.error?, ScopeError.break?, h]

/-- A check for anything else is no report of a break. -/
theorem reports_errorIf (r : Resolver) (condition : Prop) [Decidable condition] {cause : ScopeCause}
    (h : cause ≠ .breakOutsideLoop) (mark : Mark) :
    r.Reports [] (if condition then r.error cause mark else r) := by
  split
  · exact reports_error h r mark
  · exact .refl r

theorem reports_updateInnermost (r : Resolver) (change : Scope → Scope) :
    r.Reports [] (r.updateInnermost change) := by
  unfold updateInnermost
  split
  · exact .refl r
  · exact ⟨rfl, rfl⟩

/-- The warnings at the end of a scope are no reports of breaks. -/
theorem reports_leave (r : Resolver) : r.Reports [] r.leave := by
  unfold leave
  split
  · exact .refl r
  · refine ⟨rfl, ?_⟩
    have hwarnings (warnings : List Warning) :
        (warnings.map Finding.warning).reverse.filterMap
          (fun finding => finding.error?.bind ScopeError.break?) = [] := by
      refine List.filterMap_eq_nil_iff.mpr fun finding hfinding => ?_
      obtain ⟨warning, _, rfl⟩ := List.mem_map.mp (List.mem_reverse.mp hfinding)
      rfl
    simp only [Resolver.reported, List.filterMap_append, hwarnings, List.reverse_nil]

/-- A declaration reports no break, whatever else is wrong with it. -/
theorem reports_declare (r : Resolver) (name : Mark) (origin : Origin) :
    r.Reports [] (r.declare name origin) := by
  unfold declare
  split
  · exact .refl r
  · dsimp only
    split
    · exact reports_error (by decide) r name
    · exact ⟨rfl, rfl⟩

theorem reports_declareAndDefine (r : Resolver) (name : Mark) (origin : Origin) :
    r.Reports [] (r.declareAndDefine name origin) :=
  (reports_declare r name origin).trans (reports_updateInnermost _ _)

theorem reports_read (r : Resolver) (ref : Ref) : r.Reports [] (r.read ref) := by
  have huse (r : Resolver) (name : String) : r.Reports [] (r.use name) := by
    unfold use
    split <;> exact ⟨rfl, rfl⟩
  exact (⟨rfl, rfl⟩ : r.Reports [] (r.resolve ref)).trans (huse _ _)

theorem reports_readName (r : Resolver) (ref : Ref) : r.Reports [] (r.readName ref) :=
  (reports_errorIf r _ (by decide) _).trans (reports_read _ ref)

theorem reports_readThis (r : Resolver) (ref : Ref) : r.Reports [] (r.readThis ref) := by
  unfold readThis
  split
  · exact reports_error (by decide) r _
  · exact reports_read r ref

/-- An occurrence of `super` reports no break, whatever else is wrong with it. -/
theorem reports_readSuper (r : Resolver) (ref : Ref) : r.Reports [] (r.readSuper ref) := by
  unfold readSuper
  dsimp only
  split
  · exact (reports_error (by decide) r _).trans (reports_read _ ref)
  · exact (reports_error (by decide) r _).trans (reports_read _ ref)
  · exact reports_read r ref

theorem reports_checkReturn (r : Resolver) (keyword : Mark) (hasValue : Bool) :
    r.Reports [] (r.checkReturn keyword hasValue) :=
  (reports_errorIf r _ (by decide) _).trans (reports_errorIf _ _ (by decide) _)

/-- The one step that reports a break, where the walk is in no loop. -/
theorem reports_checkBreak (r : Resolver) (keyword : Mark) :
    r.Reports (Break.strays [⟨keyword, !r.looping⟩]) (r.checkBreak keyword) := by
  unfold checkBreak
  split
  · rename_i hloops
    refine ⟨rfl, ?_⟩
    simp [Resolver.reported, Resolver.error, Finding.error?, ScopeError.break?, Break.strays, looping,
      hloops]
  · rename_i hloops
    exact ⟨rfl, by simp [Break.strays, looping, hloops]⟩

/-- A scope reports the breaks that are reported inside it. -/
theorem Reports.within (opening : Opening) {walk : Resolver → Resolver}
    (h : (r.enter opening).Reports strays (walk (r.enter opening))) :
    r.Reports strays (within opening walk r) :=
  h.between ⟨rfl, rfl⟩ (reports_leave _)

/-- A scope of the language's own reports the breaks that are reported inside it. -/
theorem Reports.withinImplicit (opening : Opening) (name : String) (line : Nat)
    {walk : Resolver → Resolver} (h : ∀ r : Resolver, r.Reports strays (walk r)) (r : Resolver) :
    r.Reports strays (withinImplicit opening name line walk r) :=
  .within opening ((h _).between (reports_updateInnermost _ _) (.refl _))

/-- A body of a loop reports what is reported with one loop more around it. -/
theorem Reports.inLoop {walk : Resolver → Resolver}
    (h : ({ r with loops := r.loops + 1 } : Resolver).Reports strays
      (walk { r with loops := r.loops + 1 })) : r.Reports strays (inLoop walk r) :=
  ⟨rfl, h.reported⟩

/-- Parameters report no break. -/
theorem reports_params (params : List Mark) (r : Resolver) :
    r.Reports [] (params.foldl (fun r param => r.declareAndDefine param .parameter) r) := by
  induction params generalizing r with
  | nil => exact .refl r
  | cons param params ih => exact (reports_declareAndDefine r param .parameter).trans (ih _)

/-- The walk through a function begins in no loop. -/
theorem Reports.inFunction (role : FunctionRole) (code : Lambda) {walk : Resolver → Resolver}
    (h : ∀ r : Resolver, r.looping = false → r.Reports strays (walk r)) (r : Resolver) :
    r.Reports strays (inFunction role code walk r) := by
  let start : Resolver := { r with functionRole := role, loops := 0 }
  have hparams := reports_params code.params (start.enter (.function code))
  have hwithin : start.Reports strays (Resolver.within (.function code)
      (fun r => walk (code.params.foldl (fun r param => r.declareAndDefine param .parameter) r)) start) :=
    .within (.function code) ((h _ hparams.looping).between hparams (.refl _))
  exact ⟨rfl, hwithin.reported⟩

/-- A class reports the breaks that are reported in its methods. -/
theorem Reports.inClass (name : Mark) (superclass : Option Ref) (methods : List Definition)
    {walk : Resolver → Resolver} (h : ∀ r : Resolver, r.Reports strays (walk r)) (r : Resolver) :
    r.Reports strays (inClass name superclass methods walk r) := by
  have hrole (r : Resolver) (role : ClassRole) : r.Reports [] { r with classRole := role } := ⟨rfl, rfl⟩
  have hname : r.Reports [] (declareAndDefine { r with classRole := .base } name .declared) :=
    (hrole r .base).trans (reports_declareAndDefine _ name .declared)
  have hmethods := Reports.withinImplicit (.this methods) "this" name.line h
  cases superclass with
  | none => exact (hmethods _).between hname (hrole _ r.classRole)
  | some parent =>
    have hparent (r : Resolver) : r.Reports [] (r.readSuperclass name parent) := by
      have hchecked := reports_errorIf r (parent.mark.lexeme = name.lexeme)
        (by decide : ScopeCause.selfInheritance ≠ _) parent.mark
      exact (hchecked.trans (hrole _ .derived)).trans (reports_readName _ parent)
    exact (Reports.withinImplicit (.super methods) "super" name.line hmethods _).between
      (hname.trans (hparent _)) (hrole _ r.classRole)

end Resolver

open Resolver

mutual

/-- The breaks that no loop catches are reported where the walk comes by. The induction is on the
    tree, and what carries it is that every part comes back to the loops around it. -/
theorem Expr.resolve_reports (e : Expr) (r : Resolver) :
    r.Reports (Break.strays e.breaks) (e.resolve r) := by
  cases e with
  | literal value line => exact .refl r
  | grouping inner => exact inner.resolve_reports r
  | unary op mark right | unpaired op mark right => exact right.resolve_reports r
  | binary op mark left right | logical op mark left right | comma left right =>
    rw [Expr.breaks, Break.strays_append]
    exact (left.resolve_reports r).trans (right.resolve_reports _)
  | conditional condition yes no =>
    rw [Expr.breaks, Break.strays_append, Break.strays_append]
    exact ((condition.resolve_reports r).trans (yes.resolve_reports _)).trans (no.resolve_reports _)
  | name ref => exact reports_readName r ref
  | assign ref value => exact (value.resolve_reports r).between (.refl r) ⟨rfl, rfl⟩
  | call callee paren arguments =>
    rw [Expr.breaks, Break.strays_append]
    exact (callee.resolve_reports r).trans (Expr.resolveAll_reports arguments _)
  | get object property => exact object.resolve_reports r
  | set object property value =>
    rw [Expr.breaks, Break.strays_append]
    exact (value.resolve_reports r).trans (object.resolve_reports _)
  | this ref => exact reports_readThis r ref
  | super ref method => exact reports_readSuper r ref
  | lambda keyword code => exact code.resolve_reports .lambda r

theorem Expr.resolveAll_reports (es : List Expr) (r : Resolver) :
    r.Reports (Break.strays (Expr.breaksAll es)) (Expr.resolveAll es r) := by
  cases es with
  | nil => exact .refl r
  | cons e rest =>
    rw [Expr.breaksAll, Break.strays_append]
    exact (e.resolve_reports r).trans (Expr.resolveAll_reports rest _)

theorem Lambda.resolve_reports (code : Lambda) (role : FunctionRole) (r : Resolver) :
    r.Reports (Break.strays code.breaks) (code.resolve role r) := by
  obtain ⟨params, body⟩ := code
  refine Reports.inFunction role ⟨params, body⟩ (fun r hr => ?_) r
  have hbody := Stmt.resolveAll_reports body r
  rwa [hr] at hbody

theorem Definition.resolveAll_reports (ds : List Definition) (r : Resolver) :
    r.Reports (Break.strays (Definition.breaksAll ds)) (Definition.resolveAll ds r) := by
  cases ds with
  | nil => exact .refl r
  | cons d rest =>
    obtain ⟨name, code⟩ := d
    rw [Definition.breaksAll, Break.strays_append]
    exact (code.resolve_reports _ r).trans (Definition.resolveAll_reports rest _)

/-- In a statement a break is reported unless a loop in the statement or around it catches it. -/
theorem Stmt.resolve_reports (s : Stmt) (r : Resolver) :
    r.Reports (Break.strays (s.breaks r.looping)) (s.resolve r) := by
  cases s with
  | expression value => exact value.resolve_reports r
  | print keyword value => exact value.resolve_reports r
  | var name initial =>
    cases initial with
    | none => exact reports_declareAndDefine r name .declared
    | some initial =>
      exact (initial.resolve_reports _).between (reports_declare r name .declared)
        (reports_updateInnermost _ _)
  | function definition =>
    obtain ⟨name, code⟩ := definition
    exact (code.resolve_reports _ _).between (reports_declareAndDefine r name .declared) (.refl _)
  | «class» name superclass methods =>
    exact Reports.inClass name superclass methods (Definition.resolveAll_reports methods) r
  | block body => exact Reports.within (.block body) (Stmt.resolveAll_reports body (r.enter (.block body)))
  | «if» condition yes no =>
    have hcondition := condition.resolve_reports r
    have hyes := yes.resolve_reports (condition.resolve r)
    rw [hcondition.looping] at hyes
    cases no with
    | none =>
      rw [Stmt.breaks, Break.strays_append]
      exact hcondition.trans hyes
    | some no =>
      have hno := no.resolve_reports (yes.resolve (condition.resolve r))
      rw [hyes.looping, hcondition.looping] at hno
      rw [Stmt.breaks, Break.strays_append, Break.strays_append]
      exact (hcondition.trans hyes).trans hno
  | «while» condition body =>
    rw [Stmt.breaks, Break.strays_append]
    have hbody := body.resolve_reports
      { condition.resolve r with loops := (condition.resolve r).loops + 1 }
    exact (condition.resolve_reports r).trans (.inLoop hbody)
  | «return» keyword value =>
    cases value with
    | none => exact reports_checkReturn r keyword false
    | some value => exact (value.resolve_reports _).between (reports_checkReturn r keyword true) (.refl _)
  | «break» keyword => exact reports_checkBreak r keyword

theorem Stmt.resolveAll_reports (body : List Stmt) (r : Resolver) :
    r.Reports (Break.strays (Stmt.breaksAll r.looping body)) (Stmt.resolveAll body r) := by
  cases body with
  | nil => exact .refl r
  | cons s rest =>
    have hs := s.resolve_reports r
    have hrest := Stmt.resolveAll_reports rest (s.resolve r)
    rw [hs.looping] at hrest
    rw [Stmt.breaksAll, Break.strays_append]
    exact hs.trans hrest

end

/-- The breaks that the walk over a program reports are those that no loop catches. -/
theorem breaks_reported (program : List Stmt) :
    (resolve program).errors.filterMap ScopeError.break? =
      Break.strays (Stmt.breaksAll false program) := by
  have hreported := (Stmt.resolveAll_reports program .start).reported
  have herrors : (resolve program).errors.filterMap ScopeError.break? =
      (Stmt.resolveAll program .start).reported.reverse := by
    rw [Resolved.errors, List.filterMap_filterMap, resolve, List.filterMap_reverse]
    rfl
  rw [herrors, hreported]
  simp [Resolver.reported, Resolver.start, looping]

end Lox
