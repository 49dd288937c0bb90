import Lox.Proofs.Renaming.Choice
import Lox.Proofs.Renaming.Scope

namespace Lox

open Resolver

/-- What is decided for the occurrences, without their names. -/
def Resolution.decisions (resolutions : List Resolution) : List (Nat × Option Nat) :=
  resolutions.map fun r => (r.id, r.depth)

namespace Resolver

/-- No error has been found. -/
def Clean (r : Resolver) : Prop :=
  ∀ e, .error e ∉ r.findings

theorem Extends.clean {r r' : Resolver} (h : r.Extends r') (hclean : r'.Clean) : r.Clean :=
  fun e he => hclean e (h.findings.subset he)

/-- The walk has come without an error to where it is with the new name, and has decided the same. -/
structure Renamed (ρ : Renaming) (marks : List Bool) (r r' : Resolver) : Prop where
  scopes : Scope.AllAlike ρ marks r.scopes r'.scopes
  functionRole : r'.functionRole = r.functionRole
  classRole : r'.classRole = r.classRole
  loops : r'.loops = r.loops
  decisions : Resolution.decisions r'.resolutions = Resolution.decisions r.resolutions
  clean : r'.Clean

variable {ρ : Renaming} {marks : List Bool} {r r' : Resolver}

theorem renamed_start : start.Renamed ρ [] start :=
  ⟨.nil, rfl, rfl, rfl, rfl, nofun⟩

/-- Only the scopes change. -/
theorem Renamed.withScopes (h : r.Renamed ρ marks r') {marks₁ : List Bool} {scopes scopes' : List Scope}
    (hscopes : Scope.AllAlike ρ marks₁ scopes scopes') :
    Renamed ρ marks₁ { r with scopes } { r' with scopes := scopes' } :=
  { h with scopes := hscopes }

theorem Renamed.enter (h : r.Renamed ρ marks r') (renamed : Bool) (opening opening' : Opening) :
    (r.enter opening).Renamed ρ (renamed :: marks) (r'.enter opening') :=
  h.withScopes (.cons (Scope.alike_opened opening opening') h.scopes)

/-- A scope is closed on both sides. -/
theorem Renamed.leave {renamed : Bool} (h : r.Renamed ρ (renamed :: marks) r') :
    r.leave.Renamed ρ marks r'.leave := by
  obtain ⟨scopes, functionRole, classRole, loops, resolutions, findings⟩ := r
  obtain ⟨scopes', functionRole', classRole', loops', resolutions', findings'⟩ := r'
  obtain ⟨hscopes, hfunction, hclass, hloops, hdecisions, hclean⟩ := h
  cases hscopes with
  | cons hfirst hrest =>
    refine ⟨hrest, hfunction, hclass, hloops, hdecisions, fun e he => ?_⟩
    rcases List.mem_append.mp he with hwarning | hbefore
    · simp at hwarning
    · exact hclean e hbefore

/-- A declaration goes with that of the name that the variable has there. -/
theorem Renamed.declare (h : r.Renamed ρ marks r') {name : Mark} {origin : Origin}
    (hname : name.lexeme ≠ ρ.new) (hclean : (r.declare name origin).Clean) :
    (r.declare name origin).Renamed ρ marks (r'.declare (ρ.mark (marks.headD false) name) origin) := by
  obtain ⟨scopes, functionRole, classRole, loops, resolutions, findings⟩ := r
  obtain ⟨scopes', functionRole', classRole', loops', resolutions', findings'⟩ := r'
  have hscopes := h.scopes
  dsimp only at hscopes
  cases hscopes with
  | nil => exact h
  | @cons renamed marks s s' scopes scopes' hfirst hrest =>
    have hcontains : s'.locals.contains (ρ.mark renamed name).lexeme = s.locals.contains name.lexeme :=
      hfirst.contains hname
    rw [List.headD_cons]
    unfold Resolver.declare at hclean ⊢
    dsimp only at hclean ⊢
    by_cases hold : s.locals.contains name.lexeme
    · rw [if_pos hold] at hclean
      exact absurd List.mem_cons_self (hclean ⟨.redeclared, name⟩)
    · rw [if_neg hold, if_neg (hcontains ▸ hold)]
      exact h.withScopes (.cons (hfirst.insert hname _) hrest)

/-- A definition goes with that of the name that the variable has there. -/
theorem Renamed.define (h : r.Renamed ρ marks r') {name : Mark} (hname : name.lexeme ≠ ρ.new) :
    (r.define name).Renamed ρ marks (r'.define (ρ.mark (marks.headD false) name)) := by
  obtain ⟨scopes, functionRole, classRole, loops, resolutions, findings⟩ := r
  obtain ⟨scopes', functionRole', classRole', loops', resolutions', findings'⟩ := r'
  have hscopes := h.scopes
  dsimp only at hscopes
  cases hscopes with
  | nil => exact h
  | cons hfirst hrest => exact h.withScopes (.cons (hfirst.update hname _) hrest)

/-- What needs no initializer goes with the name that the variable has there. -/
theorem Renamed.declareAndDefine (h : r.Renamed ρ marks r') {name : Mark} {origin : Origin}
    (hname : name.lexeme ≠ ρ.new) (hclean : (r.declareAndDefine name origin).Clean) :
    (r.declareAndDefine name origin).Renamed ρ marks
      (r'.declareAndDefine (ρ.mark (marks.headD false) name) origin) :=
  (h.declare hname ((extends_declare_define r name origin).clean hclean)).define hname

/-- A name of the language's own comes into a scope that is not renamed. -/
theorem Renamed.enterImplicit (h : r.Renamed ρ marks r') (opening opening' : Opening) {name : String}
    (line : Nat) (hname : name ≠ ρ.new) :
    (r.enterImplicit opening name line).Renamed ρ (false :: marks)
      (r'.enterImplicit opening' name line) := by
  have hopened : (Scope.opened opening).Alike ρ false (Scope.opened opening') :=
    Scope.alike_opened opening opening'
  have hentered := hopened.insert hname ⟨line, .implicit, true, false⟩
  rw [ρ.name_false] at hentered
  exact h.withScopes (.cons hentered h.scopes)

/-- An occurrence is decided the same under the name that its variable has there. -/
theorem Renamed.resolve (h : r.Renamed ρ marks r') {ref : Ref} (hname : ref.mark.lexeme ≠ ρ.new)
    (hdepth : ρ.depths[ref.id]? = depth? r.scopes ref.mark.lexeme) :
    (r.resolve ref).Renamed ρ marks (r'.resolve (ρ.ref marks ref)) := by
  refine { h with decisions := ?_ }
  have hsame := Renaming.depth?_ref h.scopes hname hdepth
  show (_, _) :: Resolution.decisions r'.resolutions = (_, _) :: Resolution.decisions r.resolutions
  rw [h.decisions, hsame]
  rfl

/-- A read is noted for the same variable. -/
theorem Renamed.read (h : r.Renamed ρ marks r') {ref : Ref} (hname : ref.mark.lexeme ≠ ρ.new)
    (hdepth : ρ.depths[ref.id]? = depth? r.scopes ref.mark.lexeme) :
    (r.read ref).Renamed ρ marks (r'.read (ρ.ref marks ref)) := by
  have hresolved := h.resolve hname hdepth
  have hsame : depth? (r'.resolve (ρ.ref marks ref)).scopes (ρ.ref marks ref).mark.lexeme =
      depth? r.scopes ref.mark.lexeme := Renaming.depth?_ref h.scopes hname hdepth
  have hlexeme : (ρ.ref marks ref).mark.lexeme = ρ.name (ρ.isRenamed marks ref) ref.mark.lexeme := rfl
  unfold Resolver.read use
  rw [hsame, show depth? (r.resolve ref).scopes ref.mark.lexeme = depth? r.scopes ref.mark.lexeme from rfl,
    hlexeme, Renaming.isRenamed_of_depth? hdepth]
  cases depth? r.scopes ref.mark.lexeme with
  | none => exact hresolved
  | some depth => exact hresolved.withScopes (h.scopes.modify_update hname _ depth)

/-- A variable is in its own initializer on both sides or on neither. -/
theorem Renamed.inInitializer (h : r.Renamed ρ marks r') {ref : Ref} (hname : ref.mark.lexeme ≠ ρ.new)
    (hdepth : ρ.depths[ref.id]? = depth? r.scopes ref.mark.lexeme) :
    r'.inInitializer (ρ.ref marks ref).mark.lexeme = r.inInitializer ref.mark.lexeme := by
  obtain ⟨scopes, functionRole, classRole, loops, resolutions, findings⟩ := r
  obtain ⟨scopes', functionRole', classRole', loops', resolutions', findings'⟩ := r'
  have hscopes := h.scopes
  have hlexeme : (ρ.ref marks ref).mark.lexeme = ρ.name (ρ.isRenamed marks ref) ref.mark.lexeme := rfl
  rw [hlexeme]
  dsimp only at hscopes hdepth
  unfold Resolver.inInitializer
  cases hscopes with
  | nil => rfl
  | @cons renamed marks s s' scopes scopes' hfirst hrest =>
    dsimp only
    cases hfind : s.locals.find? ref.mark.lexeme with
    | none => rw [hfirst.find?_eq_none hname hfind]
    | some l =>
      have hhere : depth? (s :: scopes) ref.mark.lexeme = some 0 := by
        simp [depth?, List.findIdx?_cons, Table.contains, hfind]
      have hrenamed : ρ.isRenamed (renamed :: marks) ref = renamed :=
        Renaming.isRenamed_of_depth? (hdepth.trans hhere)
      rw [hrenamed, hfirst.find hname, hfind]

/-- A read of a name goes with the name that its variable has there. -/
theorem Renamed.readName (h : r.Renamed ρ marks r') {ref : Ref} (hname : ref.mark.lexeme ≠ ρ.new)
    (hdepth : ρ.depths[ref.id]? = depth? r.scopes ref.mark.lexeme) (hclean : (r.readName ref).Clean) :
    (r.readName ref).Renamed ρ marks (r'.readName (ρ.ref marks ref)) := by
  unfold Resolver.readName at hclean ⊢
  rw [h.inInitializer hname hdepth]
  cases hinside : r.inInitializer ref.mark.lexeme with
  | false => exact h.read hname hdepth
  | true =>
    rw [hinside] at hclean
    exact absurd List.mem_cons_self
      ((onward_read (r.error .readInInitializer ref.mark) ref).extends.clean hclean
        ⟨.readInInitializer, ref.mark⟩)

/-- An occurrence of a name of the language's own stays as it is. -/
theorem Renamed.readPlain (h : r.Renamed ρ marks r') {ref : Ref} (hold : ref.mark.lexeme ≠ ρ.old)
    (hnew : ref.mark.lexeme ≠ ρ.new) (hdepth : ρ.depths[ref.id]? = depth? r.scopes ref.mark.lexeme) :
    (r.read ref).Renamed ρ marks (r'.read ref) := by
  have hsame : ρ.ref marks ref = ref := by
    rw [Renaming.ref, Renaming.mark, Renaming.name_of_ne hold]
  have hread := h.read hnew hdepth
  rwa [hsame] at hread

/-- A return is accepted on both sides. -/
theorem Renamed.checkReturn (h : r.Renamed ρ marks r') {keyword : Mark} {hasValue : Bool}
    (hclean : (r.checkReturn keyword hasValue).Clean) :
    (r.checkReturn keyword hasValue).Renamed ρ marks (r'.checkReturn keyword hasValue) := by
  unfold Resolver.checkReturn at hclean ⊢
  rw [h.functionRole]
  by_cases hrole : r.functionRole = .none
  · rw [if_pos hrole] at hclean
    exact absurd List.mem_cons_self ((onward_errorIf _ _ _ _).extends.clean hclean
      ⟨.returnOutsideFunction, keyword⟩)
  · rw [if_neg hrole] at hclean
    rw [if_neg hrole, if_neg hrole]
    dsimp only at hclean ⊢
    rw [h.functionRole]
    split at hclean
    · exact absurd List.mem_cons_self (hclean ⟨.valueFromInitializer, keyword⟩)
    · rename_i hvalue
      rw [if_neg hvalue, if_neg hvalue]
      exact h

/-- A break is accepted on both sides. -/
theorem Renamed.checkBreak (h : r.Renamed ρ marks r') {keyword : Mark}
    (hclean : (r.checkBreak keyword).Clean) :
    (r.checkBreak keyword).Renamed ρ marks (r'.checkBreak keyword) := by
  unfold Resolver.checkBreak at hclean ⊢
  rw [h.loops]
  by_cases hloops : r.loops = 0
  · rw [if_pos hloops] at hclean
    exact absurd List.mem_cons_self (hclean ⟨.breakOutsideLoop, keyword⟩)
  · rw [if_neg hloops, if_neg hloops]
    exact h

theorem Renamed.inLoop (h : r.Renamed ρ marks r') :
    Renamed ρ marks { r with loops := r.loops + 1 } { r' with loops := r'.loops + 1 } :=
  { h with loops := congrArg (· + 1) h.loops }

/-- Parameters go with the names that they have in their scope. -/
theorem Renamed.params {renamed : Bool} {params : List Mark} (h : r.Renamed ρ (renamed :: marks) r')
    (hnew : ∀ param ∈ params, param.lexeme ≠ ρ.new)
    (hclean : (params.foldl (fun r param => r.declareAndDefine param .parameter) r).Clean) :
    (params.foldl (fun r param => r.declareAndDefine param .parameter) r).Renamed ρ (renamed :: marks)
      ((params.map (ρ.mark renamed)).foldl (fun r param => r.declareAndDefine param .parameter) r') := by
  induction params generalizing r r' with
  | nil => exact h
  | cons param params ih =>
    have hdeclared : (r.declareAndDefine param .parameter).Clean :=
      (onward_params params _).extends.clean hclean
    have hfirst := h.declareAndDefine (hnew param List.mem_cons_self) hdeclared
    exact ih hfirst (fun other hother => hnew other (List.mem_cons_of_mem _ hother)) hclean

/-- The code of a function is entered on both sides. -/
theorem Renamed.enterFunction (h : r.Renamed ρ marks r') (renamed : Bool) (role : FunctionRole)
    {params : List Mark} {body : List Stmt} (body' : List Stmt)
    (hnew : ∀ param ∈ params, param.lexeme ≠ ρ.new)
    (hclean : (r.enterFunction role ⟨params, body⟩).Clean) :
    (r.enterFunction role ⟨params, body⟩).Renamed ρ (renamed :: marks)
      (r'.enterFunction role ⟨params.map (ρ.mark renamed), body'⟩) := by
  have hinside : Renamed ρ marks { r with functionRole := role, loops := 0 }
      { r' with functionRole := role, loops := 0 } :=
    { h with functionRole := rfl, loops := rfl }
  exact (hinside.enter renamed _ _).params hnew hclean

/-- The name of a class is declared on both sides, as a name that is not renamed. -/
theorem Renamed.enterClass (h : r.Renamed ρ marks r') {name : Mark} (hnew : name.lexeme ≠ ρ.new)
    (hapart : ρ.Apart (marks.headD false) name.lexeme) (hclean : (r.enterClass name).Clean) :
    (r.enterClass name).Renamed ρ marks (r'.enterClass name) := by
  have hinside : Renamed ρ marks { r with classRole := .base } { r' with classRole := .base } :=
    { h with classRole := rfl }
  have hdeclared := hinside.declareAndDefine hnew hclean
  rwa [Renaming.mark_of_apart hapart] at hdeclared

/-- A superclass is read on both sides and is not the class itself on either. -/
theorem Renamed.readSuperclass (h : r.Renamed ρ marks r') {name : Mark} {parent : Ref}
    (hname : name.lexeme ≠ ρ.new) (hparent : parent.mark.lexeme ≠ ρ.new)
    (hne : parent.mark.lexeme ≠ name.lexeme)
    (hdepth : ρ.depths[parent.id]? = depth? r.scopes parent.mark.lexeme)
    (hclean : (r.readSuperclass name parent).Clean) :
    (r.readSuperclass name parent).Renamed ρ marks (r'.readSuperclass name (ρ.ref marks parent)) := by
  have hne' : (ρ.ref marks parent).mark.lexeme ≠ name.lexeme := by
    show ρ.name _ parent.mark.lexeme ≠ _
    unfold Renaming.name
    split
    · exact hname.symm
    · exact hne
  have hinside : Renamed ρ marks { r with classRole := .derived } { r' with classRole := .derived } :=
    { h with classRole := rfl }
  unfold Resolver.readSuperclass at hclean ⊢
  rw [if_neg hne] at hclean
  rw [if_neg hne, if_neg hne']
  exact hinside.readName hparent hdepth hclean

end Resolver

section Walk

variable {ρ : Renaming} {visits : Visit → Prop} (hclear : ρ.Clear visits)
include hclear

theorem Renaming.Clear.ne_new {v : Visit} (hv : visits v) {name : String} (h : name ∈ v.node.mentions) :
    name ≠ ρ.new :=
  fun heq => hclear.new hv (heq ▸ h)

mutual

/-- Binding decides the same for a tree and for one in which variables have other names. The
    induction is on the tree. -/
theorem Expr.resolve_renamed {marks : List Bool} {r r' : Resolver} {e e' : Expr} (hv : visits ⟨.expr e, r⟩)
    (h : e.Renames ρ marks e') (hr : r.Renamed ρ marks r') :
    (e.resolve r).Renamed ρ marks (e'.resolve r') := by
  have hsound := hclear.sound hv
  cases h with
  | literal => exact hr
  | grouping hinner => exact (Expr.resolve_renamed (hclear.part hv (.head _)) hinner hr :)
  | unary hright => exact (Expr.resolve_renamed (hclear.part hv (.head _)) hright hr :)
  | binary hleft hright =>
    have hfirst := Expr.resolve_renamed (hclear.part hv (.head _)) hleft hr
    exact (Expr.resolve_renamed (hclear.part hv (.tail _ (.head _))) hright hfirst :)
  | unpaired hright => exact (Expr.resolve_renamed (hclear.part hv (.head _)) hright hr :)
  | logical hleft hright =>
    have hfirst := Expr.resolve_renamed (hclear.part hv (.head _)) hleft hr
    exact (Expr.resolve_renamed (hclear.part hv (.tail _ (.head _))) hright hfirst :)
  | conditional hcondition hyes hno =>
    have hfirst := Expr.resolve_renamed (hclear.part hv (.head _)) hcondition hr
    have hsecond := Expr.resolve_renamed (hclear.part hv (.tail _ (.head _))) hyes hfirst
    exact (Expr.resolve_renamed (hclear.part hv (.tail _ (.tail _ (.head _)))) hno hsecond :)
  | comma hleft hright =>
    have hfirst := Expr.resolve_renamed (hclear.part hv (.head _)) hleft hr
    exact (Expr.resolve_renamed (hclear.part hv (.tail _ (.head _))) hright hfirst :)
  | name hfree =>
    exact hr.readName (hclear.ne_new hv (List.mem_singleton_self _)) (hsound.recorded rfl rfl)
      hsound.clean
  | @assign _ ref value value' hfree hvalue =>
    have hfirst := Expr.resolve_renamed (hclear.part hv (.head _)) hvalue hr
    have hdepth : ρ.depths[ref.id]? = depth? (value.resolve r).scopes ref.mark.lexeme := by
      rw [hsound.recorded rfl rfl, depth?_scopes, (value.resolve_onward r).shapes_eq, ← depth?_scopes]
      rfl
    exact hfirst.resolve (hclear.ne_new hv (List.mem_singleton_self _)) hdepth
  | call hcallee harguments =>
    have hfirst := Expr.resolve_renamed (hclear.part hv (.head _)) hcallee hr
    exact (Expr.resolveAll_renamed (hclear.part hv (.tail _ (.head _))) harguments hfirst :)
  | get hobject => exact (Expr.resolve_renamed (hclear.part hv (.head _)) hobject hr :)
  | set hobject hvalue =>
    have hfirst := Expr.resolve_renamed (hclear.part hv (.head _)) hvalue hr
    exact (Expr.resolve_renamed (hclear.part hv (.tail _ (.head _))) hobject hfirst :)
  | @this _ ref hapart =>
    have hthis : ref.mark.lexeme = "this" := hsound.proper
    have hread := hr.readPlain (hthis ▸ ρ.old_plain.1.symm) (hthis ▸ ρ.new_plain.1.symm)
      (hsound.recorded rfl rfl)
    have hrole := hsound.role_of_this
    unfold Expr.resolve readThis
    rwa [hr.classRole, if_neg hrole, if_neg hrole]
  | @super _ ref method =>
    have hsuper : ref.mark.lexeme = "super" := hsound.proper
    have hread := hr.readPlain (hsuper ▸ ρ.old_plain.2.symm) (hsuper ▸ ρ.new_plain.2.symm)
      (hsound.recorded rfl rfl)
    unfold Expr.resolve readSuper
    rwa [hr.classRole, hsound.role_of_super]
  | lambda hcode => exact (Lambda.resolve_renamed (hclear.part hv (.head _)) hcode hr :)
termination_by structural e

theorem Expr.resolveAll_renamed {marks : List Bool} {r r' : Resolver} {es es' : List Expr}
    (hv : visits ⟨.exprs es, r⟩) (h : Expr.RenamesAll ρ marks es es') (hr : r.Renamed ρ marks r') :
    (Expr.resolveAll es r).Renamed ρ marks (Expr.resolveAll es' r') := by
  cases h with
  | nil => exact hr
  | cons he hrest =>
    have hfirst := Expr.resolve_renamed (hclear.part hv (.head _)) he hr
    exact (Expr.resolveAll_renamed (hclear.part hv (.tail _ (.head _))) hrest hfirst :)
termination_by structural es

theorem Lambda.resolve_renamed {marks : List Bool} {r r' : Resolver} {role : FunctionRole}
    {code code' : Lambda} (hv : visits ⟨.code role code, r⟩) (h : code.Renames ρ marks code')
    (hr : r.Renamed ρ marks r') : (code.resolve role r).Renamed ρ marks (code'.resolve role r') := by
  cases h with
  | @code _ params body body' renamed hparams hbody =>
    have hstmts : visits ⟨.stmts body, r.enterFunction role ⟨params, body⟩⟩ := hclear.part hv (.head _)
    have hinside := hr.enterFunction renamed role body'
      (fun param hparam => hclear.ne_new hv (List.mem_map_of_mem hparam))
      ((Stmt.resolveAll_onward body _).extends.clean (hclear.sound hstmts).clean)
    have hleft := (Stmt.resolveAll_renamed hstmts hbody hinside).leave
    exact { hleft with functionRole := hr.functionRole, loops := hr.loops }
termination_by structural code

theorem Definition.resolveAll_renamed {marks : List Bool} {r r' : Resolver} {ds ds' : List Definition}
    (hv : visits ⟨.methods ds, r⟩) (h : Definition.RenamesAll ρ marks ds ds') (hr : r.Renamed ρ marks r') :
    (Definition.resolveAll ds r).Renamed ρ marks (Definition.resolveAll ds' r') := by
  cases ds with
  | nil =>
    cases h
    exact hr
  | cons d rest =>
    obtain ⟨name, code⟩ := d
    cases h with
    | cons hcode hrest =>
      have hfirst := Lambda.resolve_renamed (hclear.part hv (.head _)) hcode hr
      exact (Definition.resolveAll_renamed (hclear.part hv (.tail _ (.head _))) hrest hfirst :)
termination_by structural ds

/-- Binding decides the same for a statement and for one in which variables have other names. -/
theorem Stmt.resolve_renamed {marks : List Bool} {r r' : Resolver} {s s' : Stmt} (hv : visits ⟨.stmt s, r⟩)
    (h : s.Renames ρ marks s') (hr : r.Renamed ρ marks r') :
    (s.resolve r).Renamed ρ marks (s'.resolve r') := by
  have hsound := hclear.sound hv
  cases h with
  | expression hvalue => exact (Expr.resolve_renamed (hclear.part hv (.head _)) hvalue hr :)
  | print hvalue => exact (Expr.resolve_renamed (hclear.part hv (.head _)) hvalue hr :)
  | declare hfree => exact hr.declareAndDefine (hclear.ne_new hv (List.mem_singleton_self _)) hsound.clean
  | @var _ name initial initial' hfree hinitial =>
    have hnew := hclear.ne_new hv (List.mem_singleton_self _)
    -- The walk of the whole statement is clean, and what it finds includes what it found up to
    -- here.
    have hdeclared : (r.declare name .declared).Clean :=
      ((initial.resolve_onward _).extends.trans (passes_define _ name).extends).clean hsound.clean
    have hinside := Expr.resolve_renamed (hclear.part hv (.head _)) hinitial (hr.declare hnew hdeclared)
    exact hinside.define hnew
  | @function _ name code code' hapart hcode =>
    have hnew := hclear.ne_new hv (List.mem_singleton_self _)
    have hdeclared : (r.declareAndDefine name .declared).Clean :=
      (code.resolve_onward .function _).extends.clean hsound.clean
    have hinside := hr.declareAndDefine hnew hdeclared
    rw [Renaming.mark_of_apart hapart] at hinside
    exact (Lambda.resolve_renamed (hclear.part hv (.head _)) hcode hinside :)
  | @«class» _ name superclass methods methods' hapart hfree hmethods =>
    have hnew := hclear.ne_new hv (List.mem_singleton_self _)
    have hstmts : visits ⟨.methods methods, r.enterMethods name superclass methods⟩ :=
      hclear.part hv (by cases superclass <;> simp [Visit.parts, Stmt.parts])
    have hclean : (r.enterClass name).Clean := ((extends_enterMethods r name superclass methods).trans
      (Definition.resolveAll_onward methods _).extends).clean (hclear.sound hstmts).clean
    have hclass := hr.enterClass hnew hapart hclean
    cases superclass with
    | none =>
      have hinside := Definition.resolveAll_renamed hstmts hmethods
        (hclass.enterImplicit _ (.this methods') name.line ρ.new_plain.1.symm)
      exact { hinside.leave with classRole := hr.classRole }
    | some parent =>
      -- The superclass is looked up with the class declared already, so it must have another name.
      have hread : visits ⟨.superclass name parent, r⟩ := hclear.part hv (.head _)
      have hsoundRead := hclear.sound hread
      have hparent := hclass.readSuperclass hnew (hclear.ne_new hread (List.mem_singleton_self _))
        hsoundRead.superclass_ne (hsoundRead.recorded rfl rfl) hsoundRead.clean
      have hinside := Definition.resolveAll_renamed hstmts hmethods
        ((hparent.enterImplicit _ (.super methods') name.line ρ.new_plain.2.symm).enterImplicit _
          (.this methods') name.line ρ.new_plain.1.symm)
      exact { hinside.leave.leave with classRole := hr.classRole }
  | @block _ body body' renamed hbody =>
    have hinside := Stmt.resolveAll_renamed (hclear.part hv (.head _)) hbody
      (hr.enter renamed _ (.block body'))
    exact hinside.leave
  | when hcondition hyes =>
    have hfirst := Expr.resolve_renamed (hclear.part hv (.head _)) hcondition hr
    exact (Stmt.resolve_renamed (hclear.part hv (.tail _ (.head _))) hyes hfirst :)
  | «if» hcondition hyes hno =>
    have hfirst := Expr.resolve_renamed (hclear.part hv (.head _)) hcondition hr
    have hsecond := Stmt.resolve_renamed (hclear.part hv (.tail _ (.head _))) hyes hfirst
    exact (Stmt.resolve_renamed (hclear.part hv (.tail _ (.tail _ (.head _)))) hno hsecond :)
  | «while» hcondition hbody =>
    have hfirst := Expr.resolve_renamed (hclear.part hv (.head _)) hcondition hr
    have hloop := hfirst.inLoop
    have hinside := Stmt.resolve_renamed (hclear.part hv (.tail _ (.head _))) hbody hloop
    exact { hinside with loops := hfirst.loops }
  | leave => exact hr.checkReturn hsound.clean
  | @«return» _ keyword value value' hvalue =>
    have hchecked := hr.checkReturn
      ((value.resolve_onward _).extends.clean hsound.clean)
    exact (Expr.resolve_renamed (hclear.part hv (.head _)) hvalue hchecked :)
  | «break» => exact hr.checkBreak hsound.clean
termination_by structural s

theorem Stmt.resolveAll_renamed {marks : List Bool} {r r' : Resolver} {body body' : List Stmt}
    (hv : visits ⟨.stmts body, r⟩) (h : Stmt.RenamesAll ρ marks body body') (hr : r.Renamed ρ marks r') :
    (Stmt.resolveAll body r).Renamed ρ marks (Stmt.resolveAll body' r') := by
  cases h with
  | nil => exact hr
  | cons hs hrest =>
    have hfirst := Stmt.resolve_renamed (hclear.part hv (.head _)) hs hr
    exact (Stmt.resolveAll_renamed (hclear.part hv (.tail _ (.head _))) hrest hfirst :)
termination_by structural body

end

/-- A renaming of a program without a static error has none either, and the same is decided about every
    occurrence. -/
theorem resolve_renamed {program program' : List Stmt} (hv : visits ⟨.stmts program, .start⟩)
    (h : Stmt.RenamesAll ρ [] program program') :
    (resolve program').errors = [] ∧
      Resolution.decisions (resolve program').resolutions =
        Resolution.decisions (resolve program).resolutions := by
  have hrenamed := Stmt.resolveAll_renamed hclear hv h renamed_start
  constructor
  · refine List.filterMap_eq_nil_iff.mpr fun finding hfinding => ?_
    cases finding with
    | error e => exact absurd (List.mem_reverse.mp hfinding) (hrenamed.clean e)
    | warning w => rfl
  · unfold Lox.resolve Resolution.decisions
    rw [List.map_reverse, List.map_reverse]
    exact congrArg List.reverse hrenamed.decisions

end Walk

/-- What a machine takes over from binding does not depend on the names. -/
theorem Machine.note_congr (m : Machine) {resolutions resolutions' : List Resolution}
    (h : Resolution.decisions resolutions' = Resolution.decisions resolutions) :
    m.note resolutions' = m.note resolutions := by
  induction resolutions generalizing m resolutions' with
  | nil => rw [List.map_eq_nil_iff.mp h]
  | cons r rest ih =>
    cases resolutions' with
    | nil => cases h
    | cons r' rest' =>
      obtain ⟨hfirst, hrest⟩ := List.cons.inj h
      have hnoted : m.note [r'] = m.note [r] := by
        obtain ⟨hid, hdepth⟩ := Prod.mk.inj hfirst
        simp only [Machine.note, List.foldl_cons, List.foldl_nil, hid, hdepth]
      show (m.note [r']).note rest' = (m.note [r]).note rest
      rw [hnoted]
      exact ih (m.note [r]) hrest

end Lox
