import Lox.Proofs.Binding.Place

namespace Lox

namespace Resolver

/-- What has been decided and found in one state is still there in the other. -/
structure Extends (r r' : Resolver) : Prop where
  findings : r.findings <:+ r'.findings
  resolutions : r.resolutions <:+ r'.resolutions

variable {new : List String} {ids : List Nat} {r r₁ r₂ : Resolver}

theorem Extends.refl (r : Resolver) : r.Extends r :=
  ⟨List.suffix_rfl, List.suffix_rfl⟩

theorem Extends.trans (h : r.Extends r₁) (h' : r₁.Extends r₂) : r.Extends r₂ :=
  ⟨h.findings.trans h'.findings, h.resolutions.trans h'.resolutions⟩

theorem Passes.extends (h : r.Passes ids r₁) : r.Extends r₁ := by
  obtain ⟨added, hadded, _⟩ := h.resolutions
  exact ⟨h.findings, hadded ▸ List.suffix_append _ _⟩

theorem extends_leave (r : Resolver) : r.Extends r.leave :=
  (passes_leave r).extends

end Resolver

open Resolver

/-- What passes from a node to a part of it. -/
structure PartOf (v w : Visit) : Prop where
  further : w.after.Extends v.after
  proper : v.node.Proper → w.node.Proper
  placed : v.node.Proper → v.before.Placed → w.before.Placed

/-- A statement brings in names of programs only. -/
theorem Stmt.Proper.declares_plain {s : Stmt} (h : s.Proper) :
    ∀ name ∈ s.declares, IsPlain name := by
  cases s with
  | var name initial =>
    cases initial with
    | none => simpa [Stmt.declares, Stmt.Proper] using h
    | some initial => simpa [Stmt.declares] using h.1
  | function definition =>
    obtain ⟨name, code⟩ := definition
    simpa [Stmt.declares] using h.1
  | «class» name parent methods =>
    cases parent with
    | none => simpa [Stmt.declares] using h.1
    | some parent => simpa [Stmt.declares] using h.1
  | «if» condition yes no =>
    cases no with
    | none => simp [Stmt.declares, h.2.2]
    | some no => simp [Stmt.declares, h.2.2.2.1, h.2.2.2.2]
  | «while» condition body => simp [Stmt.declares, h.2.2]
  | _ => simp [Stmt.declares]

/-- A part that the walk comes to over expressions. -/
private theorem PartOf.of_onward {v w : Visit} {ids : List Nat}
    (hbefore : v.before.Onward [] ids w.before) (hfurther : w.after.Extends v.after)
    (hproper : v.node.Proper → w.node.Proper) : PartOf v w :=
  ⟨hfurther, hproper, fun _ hplaced => hplaced.onward hbefore (by simp)⟩

private theorem mem_pair {v w w' : Visit} (h : v ∈ [w, w']) : v = w ∨ v = w' := by
  simpa using h

private theorem mem_triple {v w w' w'' : Visit} (h : v ∈ [w, w', w'']) :
    v = w ∨ v = w' ∨ v = w'' := by
  simpa using h

/-- What the walk over an expression decides and finds in its parts is there behind the expression.
    -/
theorem Expr.partOf {e : Expr} {r : Resolver} {w : Visit} (hw : w ∈ e.parts r) :
    PartOf ⟨.expr e, r⟩ w := by
  have hwalk (e : Expr) (r : Resolver) := e.resolve_onward r
  cases e with
  | literal value line => cases hw
  | grouping inner =>
    obtain rfl := List.mem_singleton.mp hw
    exact .of_onward (.refl r) (.refl _) id
  | unary op mark right =>
    obtain rfl := List.mem_singleton.mp hw
    exact .of_onward (.refl r) (.refl _) id
  | binary op mark left right =>
    rcases mem_pair hw with rfl | rfl
    · exact .of_onward (.refl r) (hwalk right _).extends And.left
    · exact .of_onward (hwalk left r) (.refl _) And.right
  | unpaired op mark right =>
    obtain rfl := List.mem_singleton.mp hw
    exact .of_onward (.refl r) (.refl _) False.elim
  | logical op mark left right =>
    rcases mem_pair hw with rfl | rfl
    · exact .of_onward (.refl r) (hwalk right _).extends And.left
    · exact .of_onward (hwalk left r) (.refl _) And.right
  | conditional condition yes no =>
    rcases mem_triple hw with rfl | rfl | rfl
    · exact .of_onward (.refl r) ((hwalk yes _).trans (hwalk no _)).extends And.left
    · exact .of_onward (hwalk condition r) (hwalk no _).extends fun h => h.2.1
    · exact .of_onward ((hwalk condition r).trans (hwalk yes _)) (.refl _) fun h => h.2.2
  | comma left right =>
    rcases mem_pair hw with rfl | rfl
    · exact .of_onward (.refl r) (hwalk right _).extends And.left
    · exact .of_onward (hwalk left r) (.refl _) And.right
  | name ref => cases hw
  | assign ref value =>
    obtain rfl := List.mem_singleton.mp hw
    exact .of_onward (.refl r) (onward_resolve _ ref).extends And.right
  | call callee paren arguments =>
    rcases mem_pair hw with rfl | rfl
    · exact .of_onward (.refl r) (Expr.resolveAll_onward arguments _).extends And.left
    · exact .of_onward (hwalk callee r) (.refl _) And.right
  | get object property =>
    obtain rfl := List.mem_singleton.mp hw
    exact .of_onward (.refl r) (.refl _) id
  | set object property value =>
    rcases mem_pair hw with rfl | rfl
    · exact .of_onward (.refl r) (hwalk object _).extends And.right
    · exact .of_onward (hwalk value r) (.refl _) And.left
  | this ref => cases hw
  | super ref method => cases hw
  | lambda keyword code =>
    obtain rfl := List.mem_singleton.mp hw
    exact .of_onward (.refl r) (.refl _) id

/-- What the walk over a statement decides and finds in its parts is there behind the statement. -/
theorem Stmt.partOf {s : Stmt} {r : Resolver} {w : Visit} (hw : w ∈ s.parts r) :
    PartOf ⟨.stmt s, r⟩ w := by
  have hwalk (s : Stmt) (r : Resolver) := s.resolve_onward r
  cases s with
  | expression value =>
    obtain rfl := List.mem_singleton.mp hw
    exact .of_onward (.refl r) (.refl _) id
  | print keyword value =>
    obtain rfl := List.mem_singleton.mp hw
    exact .of_onward (.refl r) (.refl _) id
  | var name initial =>
    cases initial with
    | none => cases hw
    | some initial =>
      obtain rfl := List.mem_singleton.mp hw
      exact ⟨(passes_define _ name).extends, And.right, fun h hplaced => hplaced.declare h.1 _⟩
  | function definition =>
    obtain ⟨name, code⟩ := definition
    obtain rfl := List.mem_singleton.mp hw
    refine ⟨.refl _, And.right, fun h hplaced => ?_⟩
    exact hplaced.onward (onward_declareAndDefine r name .declared) (by simpa using h.1)
  | «class» name superclass methods =>
    have hmethods (superclass : Option Ref) :
        (Definition.resolveAll methods (r.enterMethods name superclass methods)).Extends
          ((Stmt.class name superclass methods).resolve r) := by
      have hleave := extends_leave
        (Definition.resolveAll methods (r.enterMethods name superclass methods))
      cases superclass with
      | none => exact ⟨hleave.findings, hleave.resolutions⟩
      | some parent =>
        have htwice := hleave.trans (extends_leave _)
        exact ⟨htwice.findings, htwice.resolutions⟩
    cases superclass with
    | none =>
      obtain rfl := List.mem_singleton.mp hw
      exact ⟨hmethods none, And.right, fun h hplaced => hplaced.enterMethods h.1 none methods⟩
    | some parent =>
      rcases mem_pair hw with rfl | rfl
      -- The superclass is read before the methods, so their walk comes after it, in two more
      -- scopes.
      · refine ⟨?_, fun h => h.2.1, fun _ => id⟩
        have hbody := Onward.withinImplicit (.super methods) "super" name.line
          (Onward.withinImplicit (.this methods) "this" name.line (Definition.resolveAll_onward methods))
          ((r.enterClass name).readSuperclass name parent)
        exact ⟨hbody.findings, hbody.extends.resolutions⟩
      · exact ⟨hmethods (some parent), fun h => h.2.2,
          fun h hplaced => hplaced.enterMethods h.1 (some parent) methods⟩
  | block body =>
    obtain rfl := List.mem_singleton.mp hw
    exact ⟨extends_leave _, id, fun _ hplaced => hplaced.enter (.inl rfl)⟩
  | «if» condition yes no =>
    cases no with
    | none =>
      rcases mem_pair hw with rfl | rfl
      · exact .of_onward (.refl r) (hwalk yes _).extends And.left
      · exact .of_onward (condition.resolve_onward r) (.refl _) fun h => h.2.1
    | some no =>
      rcases mem_triple hw with rfl | rfl | rfl
      · exact .of_onward (.refl r) ((hwalk yes _).trans (hwalk no _)).extends And.left
      · exact .of_onward (condition.resolve_onward r) (hwalk no _).extends fun h => h.2.1
      · refine ⟨.refl _, fun h => h.2.2.1, fun h hplaced => ?_⟩
        exact (hplaced.onward (condition.resolve_onward r) (by simp)).onward (hwalk yes _)
          (Stmt.Proper.declares_plain h.2.1)
  | «while» condition body =>
    rcases mem_pair hw with rfl | rfl
    · have hbody := (Onward.inLoop (hwalk body
        { condition.resolve r with loops := (condition.resolve r).loops + 1 })).extends
      exact .of_onward (.refl r) ⟨hbody.findings, hbody.resolutions⟩ And.left
    -- The walk of the body counts one more loop, but has the scopes and the role of the
    -- condition's.
    · refine ⟨⟨List.suffix_rfl, List.suffix_rfl⟩, fun h => h.2.1, fun _ hplaced => ?_⟩
      have hcondition := hplaced.onward (condition.resolve_onward r) (by simp)
      exact ⟨hcondition.regular, hcondition.role, hcondition.innermost⟩
  | «return» keyword value =>
    cases value with
    | none => cases hw
    | some value =>
      obtain rfl := List.mem_singleton.mp hw
      exact .of_onward (onward_checkReturn r keyword true) (.refl _) id
  | «break» keyword => cases hw

/-- What is visited as a part of a node inherits what the node has. -/
theorem Visit.partOf {v w : Visit} (hw : w ∈ v.parts) : PartOf v w := by
  obtain ⟨node, r⟩ := v
  cases node with
  | expr e => exact Expr.partOf hw
  | exprs es =>
    cases es with
    | nil => cases hw
    | cons e rest =>
      rcases mem_pair hw with rfl | rfl
      · exact .of_onward (.refl r) (Expr.resolveAll_onward rest _).extends And.left
      · exact .of_onward (e.resolve_onward r) (.refl _) And.right
  | code role code =>
    obtain ⟨params, body⟩ := code
    obtain rfl := List.mem_singleton.mp hw
    have hleave := extends_leave (Stmt.resolveAll body (r.enterFunction role ⟨params, body⟩))
    exact ⟨⟨hleave.findings, hleave.resolutions⟩, And.right,
      fun h hplaced => hplaced.enterFunction role h.1⟩
  | methods definitions =>
    cases definitions with
    | nil => cases hw
    | cons definition rest =>
      obtain ⟨name, code⟩ := definition
      rcases mem_pair hw with rfl | rfl
      · exact .of_onward (.refl r) (Definition.resolveAll_onward rest _).extends And.left
      · exact .of_onward (code.resolve_onward _ r) (.refl _) And.right
  | superclass name parent => cases hw
  | stmt s => exact Stmt.partOf hw
  | stmts body =>
    cases body with
    | nil => cases hw
    | cons s rest =>
      rcases mem_pair hw with rfl | rfl
      · exact .of_onward (.refl r) (Stmt.resolveAll_onward rest _).extends And.left
      · exact ⟨.refl _, And.right, fun h hplaced =>
          hplaced.onward (s.resolve_onward r) (Stmt.Proper.declares_plain h.1)⟩

end Lox
