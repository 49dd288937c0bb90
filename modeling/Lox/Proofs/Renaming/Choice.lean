import Lox.Proofs.Alignment.Situation
import Lox.Proofs.Renaming.Mention
import Lox.Proofs.Renaming.Tree

namespace Lox

open Resolver

/-- A name that may be declared in a scope is not in it yet. -/
theorem Resolver.status_of_declare {r : Resolver} {name : Mark} {origin : Origin} {shape : Shape}
    {shapes : List Shape} (hclean : ∀ e, .error e ∉ (r.declare name origin).findings)
    (hshapes : r.shapes = shape :: shapes) : shape.status name.lexeme = none := by
  unfold declare at hclean
  cases hscopes : r.scopes with
  | nil => simp [Resolver.shapes, hscopes] at hshapes
  | cons scope scopes =>
    obtain ⟨rfl, -⟩ : scope.shape = shape ∧ scopes.map Scope.shape = shapes := by
      simpa [Resolver.shapes, hscopes] using hshapes
    rw [hscopes] at hclean
    by_cases hcontains : scope.locals.contains name.lexeme
    · simp only [hcontains, if_true] at hclean
      exact absurd List.mem_cons_self (hclean ⟨.redeclared, name⟩)
    · rwa [← Scope.status_isSome, Option.not_isSome_iff_eq_none] at hcontains

theorem Resolver.extends_declare_define (r : Resolver) (name : Mark) (origin : Origin) :
    (r.declare name origin).Extends (r.declareAndDefine name origin) :=
  (passes_define _ name).extends

theorem Resolver.extends_enterImplicit (r : Resolver) (opening : Opening) (name : String) (line : Nat) :
    r.Extends (r.enterImplicit opening name line) :=
  (passes_enter r opening).extends.trans (passes_defineImplicit _ name line).extends

/-- What was found at the name of a class is still there behind its scopes. -/
theorem Resolver.extends_enterMethods (r : Resolver) (name : Mark) (superclass : Option Ref)
    (methods : List Definition) :
    (r.enterClass name).Extends (r.enterMethods name superclass methods) := by
  cases superclass with
  | none => exact extends_enterImplicit _ _ _ _
  | some parent =>
    have hparent := (onward_readSuperclass (r.enterClass name) name parent).extends
    have hinside := (extends_enterImplicit ((r.enterClass name).readSuperclass name parent)
      (.super methods) "super" name.line).trans (extends_enterImplicit _ (.this methods) "this" name.line)
    exact ⟨hparent.findings.trans hinside.findings, hparent.resolutions.trans hinside.resolutions⟩

/-- What a statement brings in is new to its scope. -/
theorem Stmt.status_of_declares {s : Stmt} {r : Resolver} {shape : Shape} {shapes : List Shape}
    {name : String} (hproper : s.Proper) (hclean : Visit.Clean ⟨.stmt s, r⟩)
    (hshapes : r.shapes = shape :: shapes) (hname : name ∈ s.declares) : shape.status name = none := by
  -- The name is declared on the way, and a clean walk declares no name a second time.
  have hdeclared (r₀ : Resolver) {mark : Mark} (hsame : r₀.shapes = r.shapes)
      (h : (r₀.declare mark .declared).Extends (s.resolve r)) (hmark : name = mark.lexeme) :
      shape.status name = none := by
    rw [hmark]
    exact status_of_declare (fun e he => hclean e (h.findings.subset he)) (hsame.trans hshapes)
  cases s with
  | var mark initial =>
    cases initial with
    | none => exact hdeclared r rfl (extends_declare_define r mark .declared) (List.mem_singleton.mp hname)
    | some initial =>
      exact hdeclared r rfl ((initial.resolve_onward _).extends.trans (passes_define _ mark).extends)
        (List.mem_singleton.mp hname)
  | function definition =>
    obtain ⟨mark, code⟩ := definition
    exact hdeclared r rfl
      ((extends_declare_define r mark .declared).trans (code.resolve_onward .function _).extends)
      (List.mem_singleton.mp hname)
  | «class» mark superclass methods =>
    have hmethods := (Visit.partOf (v := ⟨.stmt (.class mark superclass methods), r⟩)
      (w := ⟨.methods methods, r.enterMethods mark superclass methods⟩)
      (by cases superclass <;> simp [Visit.parts, Stmt.parts])).further
    have hinside := (extends_enterMethods r mark superclass methods).trans
      (Definition.resolveAll_onward methods _).extends
    exact hdeclared { r with classRole := .base } rfl
      ((extends_declare_define _ mark .declared).trans (hinside.trans hmethods))
      (List.mem_singleton.mp hname)
  | «if» condition yes no =>
    cases no with
    | none => simp [declares, hproper.2.2] at hname
    | some no => simp [declares, hproper.2.2.2.1, hproper.2.2.2.2] at hname
  | «while» condition body => simp [declares, hproper.2.2] at hname
  | _ => cases hname

/-- No two statements of a scope bring in the same name, and none that the scope has before. -/
theorem Stmt.declares_once {body : List Stmt} {r : Resolver} {shape : Shape} {shapes : List Shape}
    (hproper : Stmt.AllProper body) (hclean : Visit.Clean ⟨.stmts body, r⟩)
    (hshapes : r.shapes = shape :: shapes) {s : Stmt} {name : String} (hs : s ∈ body)
    (hname : name ∈ s.declares) :
    shape.status name = none ∧ ∀ other ∈ body, name ∈ other.declares → other = s := by
  induction body generalizing r shape s with
  | nil => cases hs
  | cons first rest ih =>
    have hfirst : Visit.Clean ⟨.stmt first, r⟩ := hclean.part (by simp [Visit.parts])
    have hrest : Visit.Clean ⟨.stmts rest, first.resolve r⟩ := hclean.part (by simp [Visit.parts])
    have hnext : (first.resolve r).shapes = shape.settle first.declares :: shapes := by
      rw [(first.resolve_onward r).shapes, hshapes]
      rfl
    have hlater {other : Stmt} (hother : other ∈ rest) (hmem : name ∈ other.declares) :
        name ∉ first.declares ∧ shape.status name = none := by
      have hnone := (ih hproper.2 hrest hnext hother hmem).1
      unfold Shape.settle at hnone
      dsimp only at hnone
      split at hnone
      · cases hnone
      · exact ⟨‹_›, hnone⟩
    rcases List.mem_cons.mp hs with rfl | hlast
    · refine ⟨status_of_declares hproper.1 hfirst hshapes hname, fun other hother hmem => ?_⟩
      rcases List.mem_cons.mp hother with rfl | hother
      · rfl
      · exact absurd hname (hlater hother hmem).1
    · refine ⟨(hlater hlast hname).2, fun other hother hmem => ?_⟩
      rcases List.mem_cons.mp hother with rfl | hother
      · exact absurd hmem (hlater hlast hname).1
      · exact (ih hproper.2 hrest hnext hlast hname).2 other hother hmem

/-- The depths are those of the programs visited, and the new name does not occur in them. -/
structure Renaming.Clear (ρ : Renaming) (visits : Visit → Prop) : Prop extends Covers visits ρ.depths where
  new : ∀ {v}, visits v → ρ.new ∉ v.node.mentions

section Renames

variable {ρ : Renaming} {visits : Visit → Prop} (hclear : ρ.Clear visits)
include hclear

/-- Where the walk comes to a scope that has the old name as a variable, no other statement brings it in. -/
theorem Renaming.Clear.isVar_of_inScope {choice : Choice} {params : List Mark} {body : List Stmt}
    {r : Resolver} {shape : Shape} {shapes : List Shape} (hv : visits ⟨.stmts body, r⟩)
    (hshapes : r.shapes = shape.settle (params.map Mark.lexeme) :: shapes)
    (hscope : ρ.inScope choice params body = true) {s : Stmt} (hs : s ∈ body)
    (hold : ρ.old ∈ s.declares) : s.isVar ρ.old = true := by
  have hsound := hclear.sound hv
  obtain ⟨hnone, honce⟩ := Stmt.declares_once hsound.proper hsound.clean hshapes hs hold
  unfold Renaming.inScope at hscope
  simp only [Bool.and_eq_true, Bool.or_eq_true, List.any_eq_true, decide_eq_true_eq] at hscope
  rcases hscope.2 with ⟨param, hparam, hname⟩ | ⟨v, hmem, hvar⟩
  · have hsettled : ρ.old ∈ params.map Mark.lexeme := hname ▸ List.mem_map_of_mem hparam
    unfold Shape.settle at hnone
    dsimp only at hnone
    rw [if_pos hsettled] at hnone
    cases hnone
  · have hbrings : ρ.old ∈ v.declares := by
      cases v with
      | var mark initial =>
        have hmark : mark.lexeme = ρ.old := by simpa [Stmt.isVar] using hvar
        exact List.mem_singleton.mpr hmark.symm
      | _ => cases hvar
    rwa [← honce v hmem hbrings]

theorem Renaming.Clear.free {v : Visit} (hv : visits v) {name : String} (h : name ∈ v.node.mentions)
    (renamed : Bool) : ρ.Free renamed name :=
  fun _ heq => hclear.new hv (heq ▸ h)

mutual

/-- Whichever scopes are chosen, what comes of an expression is a renaming of it. -/
theorem Expr.renames_rename {r : Resolver} {e : Expr} (hv : visits ⟨.expr e, r⟩) (choice : Choice)
    (marks : List Bool) : e.Renames ρ marks (e.rename ρ choice marks) := by
  have hsound := hclear.sound hv
  have hfree {name : String} (h : name ∈ (Node.expr e).mentions) (renamed : Bool) : ρ.Free renamed name :=
    hclear.free hv h renamed
  cases e with
  | literal value line => exact .literal
  | grouping inner => exact .grouping (Expr.renames_rename (hclear.part hv (.head _)) _ _)
  | unary op mark right => exact .unary (Expr.renames_rename (hclear.part hv (.head _)) _ _)
  | binary op mark left right =>
    exact .binary (Expr.renames_rename (hclear.part hv (.head _)) _ _)
      (Expr.renames_rename (hclear.part hv (.tail _ (.head _))) _ _)
  | unpaired op mark right => exact .unpaired (Expr.renames_rename (hclear.part hv (.head _)) _ _)
  | logical op mark left right =>
    exact .logical (Expr.renames_rename (hclear.part hv (.head _)) _ _)
      (Expr.renames_rename (hclear.part hv (.tail _ (.head _))) _ _)
  | conditional condition yes no =>
    exact .conditional (Expr.renames_rename (hclear.part hv (.head _)) _ _)
      (Expr.renames_rename (hclear.part hv (.tail _ (.head _))) _ _)
      (Expr.renames_rename (hclear.part hv (.tail _ (.tail _ (.head _)))) _ _)
  | comma left right =>
    exact .comma (Expr.renames_rename (hclear.part hv (.head _)) _ _)
      (Expr.renames_rename (hclear.part hv (.tail _ (.head _))) _ _)
  | name ref => exact .name (hfree (List.mem_singleton_self _) _)
  | assign ref value =>
    exact .assign (hfree (List.mem_singleton_self _) _)
      (Expr.renames_rename (hclear.part hv (.head _)) _ _)
  | call callee paren arguments =>
    exact .call (Expr.renames_rename (hclear.part hv (.head _)) _ _)
      (Expr.renamesAll_renameAll (hclear.part hv (.tail _ (.head _))) _ _)
  | get object property => exact .get (Expr.renames_rename (hclear.part hv (.head _)) _ _)
  | set object property value =>
    exact .set (Expr.renames_rename (hclear.part hv (.tail _ (.head _))) _ _)
      (Expr.renames_rename (hclear.part hv (.head _)) _ _)
  | this ref =>
    have hthis : ref.mark.lexeme = "this" := hsound.proper
    exact .this fun _ => hthis ▸ ⟨ρ.old_plain.1.symm, ρ.new_plain.1.symm⟩
  | super ref method => exact .super
  | lambda keyword code => exact .lambda (Lambda.renames_rename (hclear.part hv (.head _)) _ _)

theorem Expr.renamesAll_renameAll {r : Resolver} {es : List Expr} (hv : visits ⟨.exprs es, r⟩)
    (choice : Choice) (marks : List Bool) :
    Expr.RenamesAll ρ marks es (Expr.renameAll ρ choice marks es) := by
  cases es with
  | nil => exact .nil
  | cons e rest =>
    exact .cons (Expr.renames_rename (hclear.part hv (.head _)) _ _)
      (Expr.renamesAll_renameAll (hclear.part hv (.tail _ (.head _))) _ _)

theorem Lambda.renames_rename {r : Resolver} {role : FunctionRole} {code : Lambda}
    (hv : visits ⟨.code role code, r⟩) (choice : Choice) (marks : List Bool) :
    code.Renames ρ marks (code.rename ρ choice marks) := by
  obtain ⟨params, body⟩ := code
  have hbody : visits ⟨.stmts body, r.enterFunction role ⟨params, body⟩⟩ := hclear.part hv (.head _)
  have hshapes : (r.enterFunction role ⟨params, body⟩).shapes =
      (Shape.opened (.function ⟨params, body⟩)).settle (params.map Mark.lexeme) :: r.shapes :=
    (onward_params params _).shapes
  refine .code _ (fun param hparam => ?_) (Stmt.renamesAll_renameAll hbody _ _ fun hscope s hs hold => ?_)
  · exact hclear.free hv (List.mem_map_of_mem hparam) _
  · exact hclear.isVar_of_inScope hbody hshapes hscope hs hold

theorem Definition.renamesAll_renameAll {r : Resolver} {ds : List Definition}
    (hv : visits ⟨.methods ds, r⟩) (choice : Choice) (marks : List Bool) :
    Definition.RenamesAll ρ marks ds (Definition.renameAll ρ choice marks ds) := by
  cases ds with
  | nil => exact .nil
  | cons d rest =>
    obtain ⟨name, code⟩ := d
    exact .cons (Lambda.renames_rename (hclear.part hv (.head _)) _ _)
      (Definition.renamesAll_renameAll (hclear.part hv (.tail _ (.head _))) _ _)

/-- A statement of a scope that is renamed brings in the old name as a variable only. -/
theorem Stmt.renames_rename {r : Resolver} {s : Stmt} (hv : visits ⟨.stmt s, r⟩) (choice : Choice)
    (marks : List Bool) (hvar : marks.headD false = true → ρ.old ∈ s.declares → s.isVar ρ.old = true) :
    s.Renames ρ marks (s.rename ρ choice marks) := by
  have hproper : s.Proper := (hclear.sound hv).proper
  have hfree {name : String} (h : name ∈ s.declares) (renamed : Bool) : ρ.Free renamed name :=
    hclear.free hv h renamed
  -- What declares the old name in a renamed scope is a `var`, so a class or function there has
  -- another.
  have hapart {name : String} (hname : s.declares = [name]) (hother : s.isVar ρ.old = false) :
      ρ.Apart (marks.headD false) name := by
    refine fun hmark => ⟨?_, hfree (by simp [hname]) _ hmark⟩
    rintro rfl
    simp [hvar hmark (by simp [hname])] at hother
  cases s with
  | expression value => exact .expression (Expr.renames_rename (hclear.part hv (.head _)) _ _)
  | print keyword value => exact .print (Expr.renames_rename (hclear.part hv (.head _)) _ _)
  | var name initial =>
    cases initial with
    | none => exact .declare (hfree (List.mem_singleton_self _) _)
    | some initial =>
      exact .var (hfree (List.mem_singleton_self _) _)
        (Expr.renames_rename (hclear.part hv (.head _)) _ _)
  | function definition =>
    obtain ⟨name, code⟩ := definition
    exact .function (hapart rfl rfl) (Lambda.renames_rename (hclear.part hv (.head _)) _ _)
  | «class» name superclass methods =>
    cases superclass with
    | none =>
      exact .class (hapart rfl rfl) (by simp)
        (Definition.renamesAll_renameAll (hclear.part hv (.head _)) _ _)
    | some parent =>
      have hparent : visits ⟨.superclass name parent, r⟩ := hclear.part hv (.head _)
      refine .class (hapart rfl rfl) ?_
        (Definition.renamesAll_renameAll (hclear.part hv (.tail _ (.head _))) _ _)
      rintro _ ⟨⟩
      exact hclear.free hparent (List.mem_singleton_self _) _
  | block body =>
    have hbody : visits ⟨.stmts body, r.enter (.block body)⟩ := hclear.part hv (.head _)
    -- The block begins with no names, and its statements are still to declare theirs.
    have hshapes : (r.enter (.block body)).shapes =
        (Shape.opened (.block body)).settle ([].map Mark.lexeme) :: r.shapes := by
      rw [List.map_nil, Shape.settle_nil, shapes_enter]
    exact .block _ (Stmt.renamesAll_renameAll hbody _ _ fun hscope s hs hold =>
      hclear.isVar_of_inScope hbody hshapes hscope hs hold)
  | «if» condition yes no =>
    cases no with
    | none =>
      exact .when (Expr.renames_rename (hclear.part hv (.head _)) _ _)
        (Stmt.renames_rename (hclear.part hv (.tail _ (.head _))) _ _ (by simp [hproper.2.2]))
    | some no =>
      exact .if (Expr.renames_rename (hclear.part hv (.head _)) _ _)
        (Stmt.renames_rename (hclear.part hv (.tail _ (.head _))) _ _ (by simp [hproper.2.2.2.1]))
        (Stmt.renames_rename (hclear.part hv (.tail _ (.tail _ (.head _)))) _ _
          (by simp [hproper.2.2.2.2]))
  | «while» condition body =>
    exact .while (Expr.renames_rename (hclear.part hv (.head _)) _ _)
      (Stmt.renames_rename (hclear.part hv (.tail _ (.head _))) _ _ (by simp [hproper.2.2]))
  | «return» keyword value =>
    cases value with
    | none => exact .leave
    | some value => exact .return (Expr.renames_rename (hclear.part hv (.head _)) _ _)
  | «break» keyword => exact .break

/-- Whichever scopes are chosen, what comes of statements is a renaming of them. -/
theorem Stmt.renamesAll_renameAll {r : Resolver} {body : List Stmt} (hv : visits ⟨.stmts body, r⟩)
    (choice : Choice) (marks : List Bool)
    (hvar : marks.headD false = true → ∀ s ∈ body, ρ.old ∈ s.declares → s.isVar ρ.old = true) :
    Stmt.RenamesAll ρ marks body (Stmt.renameAll ρ choice marks body) := by
  cases body with
  | nil => exact .nil
  | cons s rest =>
    exact .cons
      (Stmt.renames_rename (hclear.part hv (.head _)) _ _ fun hmark => hvar hmark s List.mem_cons_self)
      (Stmt.renamesAll_renameAll (hclear.part hv (.tail _ (.head _))) _ _
        fun hmark other hother => hvar hmark other (List.mem_cons_of_mem _ hother))

end

end Renames

end Lox
