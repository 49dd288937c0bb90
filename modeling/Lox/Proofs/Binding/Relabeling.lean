import Lox.Proofs.Binding.Walk
import Lox.Proofs.Table
import Lox.Proofs.Tree.Relabeling

namespace Lox

variable (f : Relabeling)

/-- The decision, about the occurrence with its other number. -/
def Resolution.relabel (r : Resolution) : Resolution :=
  ⟨r.name, f.id r.id, r.depth⟩

/-- The error, at the mark with its other line. -/
def ScopeError.relabel (e : ScopeError) : ScopeError :=
  ⟨e.cause, e.mark.relabel f⟩

/-- The warning on its other line. -/
def Warning.relabel (w : Warning) : Warning :=
  ⟨f.line w.line, w.name⟩

/-- The finding on its other line. -/
def Finding.relabel : Finding → Finding
  | error e => error (e.relabel f)
  | warning w => warning (w.relabel f)

/-- The local name with its other line. -/
def Local.relabel (l : Local) : Local :=
  { l with line := f.line l.line }

/-- What has opened a scope, where the code has other labels. -/
def Opening.relabel : Opening → Opening
  | block body => block (Stmt.relabelAll f body)
  | function code => function (code.relabel f)
  | this methods => this (Definition.relabelAll f methods)
  | super methods => super (Definition.relabelAll f methods)

/-- The scope with the other lines of its names. -/
def Scope.relabel (s : Scope) : Scope :=
  ⟨s.opening.relabel f, s.locals.map (Local.relabel f)⟩

/-- The lines stay in order. -/
def Relabeling.KeepsOrder : Prop :=
  ∀ a b, f.line a < f.line b ↔ a < b

section Scopes

variable {f}

/-- A scope has the same names whatever their lines are. -/
theorem Scope.contains_relabel (s : Scope) (name : String) :
    (s.relabel f).locals.contains name = s.locals.contains name := by
  unfold Table.contains Scope.relabel
  rw [Table.find?_map]
  exact Option.isSome_map

theorem Scope.insert_relabel (s : Scope) (name : String) (l : Local) :
    { s.relabel f with locals := (s.relabel f).locals.insert name (l.relabel f) } =
      Scope.relabel f { s with locals := s.locals.insert name l } :=
  congrArg (Scope.mk (s.opening.relabel f)) (Table.map_insert (Local.relabel f) s.locals name l).symm

/-- A change that does not look at lines is the same on scopes with other lines. -/
theorem Scope.update_relabel (s : Scope) (name : String) {change : Local → Local}
    (hchange : ∀ l, change (l.relabel f) = (change l).relabel f) :
    (s.relabel f).update name change = (s.update name change).relabel f := by
  have hfind : (s.relabel f).locals.find? name = (s.locals.find? name).map (Local.relabel f) :=
    Table.find?_map _ s.locals name
  unfold Scope.update
  rw [hfind]
  cases s.locals.find? name with
  | none => rfl
  | some l =>
    dsimp only [Option.map_some]
    rw [hchange, Scope.insert_relabel]

variable (hf : f.KeepsOrder)
include hf

/-- Lines that keep their order keep the order of warnings. -/
theorem Warning.le_relabel (a b : Warning) : (a.relabel f).le (b.relabel f) = a.le b := by
  have hline : (f.line a.line = f.line b.line) ↔ a.line = b.line := by
    have hless := hf a.line b.line
    have hgreater := hf b.line a.line
    omega
  unfold Warning.le Warning.relabel
  dsimp only
  rw [decide_eq_decide.mpr (hf a.line b.line), decide_eq_decide.mpr hline]

theorem Warning.place_relabel (w : Warning) (ws : List Warning) :
    (w.relabel f).place (ws.map (Warning.relabel f)) = (w.place ws).map (Warning.relabel f) := by
  induction ws with
  | nil => rfl
  | cons first rest ih =>
    rw [List.map_cons, Warning.place, Warning.place, Warning.le_relabel hf, ih]
    split <;> rfl

/-- Warnings are sorted alike if lines keep their order. -/
theorem Warning.sort_relabel (ws : List Warning) :
    Warning.sort (ws.map (Warning.relabel f)) = (Warning.sort ws).map (Warning.relabel f) := by
  induction ws with
  | nil => rfl
  | cons w rest ih =>
    have hsort (w : Warning) (ws : List Warning) :
        Warning.sort (w :: ws) = w.place (Warning.sort ws) := rfl
    rw [List.map_cons, hsort, hsort, ih, Warning.place_relabel hf]

/-- A scope that ends gives the same warnings with their other lines. -/
theorem Scope.warnings_relabel (s : Scope) :
    (s.relabel f).warnings = s.warnings.map (Warning.relabel f) := by
  unfold Scope.warnings Scope.relabel Table.map
  dsimp only
  rw [List.filter_map, List.map_map, ← Warning.sort_relabel hf, List.map_map]
  rfl

end Scopes

namespace Resolver

/-- The state of a walk over code with other labels, behind what an earlier walk has decided and found. -/
def behind (r earlier : Resolver) : Resolver :=
  { r with
    scopes := r.scopes.map (Scope.relabel f)
    resolutions := r.resolutions.map (Resolution.relabel f) ++ earlier.resolutions
    findings := r.findings.map (Finding.relabel f) ++ earlier.findings }

/-- One walk goes behind the earlier one as the other does on its own. -/
def Alike (earlier : Resolver) (walk walk' : Resolver → Resolver) : Prop :=
  ∀ r : Resolver, walk' (r.behind f earlier) = (walk r).behind f earlier

variable {f} {earlier : Resolver}

/-- A check finds the same with its other labels. -/
theorem behind_errorIf (r : Resolver) (condition : Prop) [Decidable condition] (cause : ScopeCause)
    (mark : Mark) :
    (if condition then (r.behind f earlier).error cause (mark.relabel f) else r.behind f earlier) =
      (if condition then r.error cause mark else r).behind f earlier := by
  split <;> rfl

/-- A change of the innermost scope goes on behind a walk that is over as if it were the first. -/
theorem behind_updateInnermost (r : Resolver) {change change' : Scope → Scope}
    (hchange : ∀ s, change' (s.relabel f) = (change s).relabel f) :
    (r.behind f earlier).updateInnermost change' = (r.updateInnermost change).behind f earlier := by
  obtain ⟨scopes, functionRole, classRole, loops, resolutions, findings⟩ := r
  cases scopes with
  | nil => rfl
  | cons scope scopes =>
    simp only [updateInnermost, behind, List.map_cons, hchange]

/-- A declaration goes on behind a walk that is over as if it were the first. -/
theorem behind_declare (r : Resolver) (name : Mark) (origin : Origin) :
    (r.behind f earlier).declare (name.relabel f) origin =
      (r.declare name origin).behind f earlier := by
  obtain ⟨scopes, functionRole, classRole, loops, resolutions, findings⟩ := r
  cases scopes with
  | nil => rfl
  | cons scope scopes =>
    have hlocal : (⟨f.line name.line, origin, false, false⟩ : Local) =
        Local.relabel f ⟨name.line, origin, false, false⟩ := rfl
    simp only [declare, behind, List.map_cons, Mark.relabel, Scope.contains_relabel]
    split
    · rfl
    · rw [hlocal, Scope.insert_relabel]
      rfl

theorem behind_define (r : Resolver) (name : Mark) :
    (r.behind f earlier).define (name.relabel f) = (r.define name).behind f earlier :=
  behind_updateInnermost r fun s => s.update_relabel name.lexeme fun _ => rfl

theorem behind_declareAndDefine (r : Resolver) (name : Mark) (origin : Origin) :
    (r.behind f earlier).declareAndDefine (name.relabel f) origin =
      (r.declareAndDefine name origin).behind f earlier := by
  unfold declareAndDefine
  rw [behind_declare, behind_define]

theorem behind_defineImplicit (r : Resolver) (name : String) (line : Nat) :
    (r.behind f earlier).defineImplicit name (f.line line) =
      (r.defineImplicit name line).behind f earlier :=
  behind_updateInnermost r fun s => s.insert_relabel name ⟨line, .implicit, true, false⟩

/-- A name is at the same depth whatever the lines are. -/
theorem depth?_relabel (scopes : List Scope) (name : String) :
    depth? (scopes.map (Scope.relabel f)) name = depth? scopes name := by
  have hcontains : (fun scope : Scope => scope.locals.contains name) ∘ Scope.relabel f =
      fun scope => scope.locals.contains name :=
    funext fun scope => scope.contains_relabel name
  unfold depth?
  rw [List.findIdx?_map, hcontains]

/-- An occurrence is decided behind a walk that is over as if it were in the first. -/
theorem behind_resolve (r : Resolver) (ref : Ref) :
    (r.behind f earlier).resolve (ref.relabel f) = (r.resolve ref).behind f earlier := by
  unfold resolve behind
  dsimp only [Ref.relabel, Mark.relabel]
  rw [depth?_relabel]
  rfl

/-- A read is noted behind a walk that is over as if it were in the first. -/
theorem behind_use (r : Resolver) (name : String) :
    (r.behind f earlier).use name = (r.use name).behind f earlier := by
  have hdepth : depth? (r.behind f earlier).scopes name = depth? r.scopes name :=
    depth?_relabel r.scopes name
  unfold use
  rw [hdepth]
  cases depth? r.scopes name with
  | none => rfl
  | some depth =>
    let note := fun scope : Scope => scope.update name fun l => { l with used := true }
    have hnote (scope : Scope) : note (scope.relabel f) = (note scope).relabel f :=
      scope.update_relabel name fun _ => rfl
    have hscopes : (r.scopes.map (Scope.relabel f)).modify depth note =
        (r.scopes.modify depth note).map (Scope.relabel f) := by
      apply List.ext_getElem?
      intro i
      simp only [List.getElem?_map, List.getElem?_modify]
      cases r.scopes[i]? with
      | none => rfl
      | some scope => by_cases h : depth = i <;> simp [h, hnote]
    exact congrArg (fun scopes => { r.behind f earlier with scopes }) hscopes

theorem behind_read (r : Resolver) (ref : Ref) :
    (r.behind f earlier).read (ref.relabel f) = (r.read ref).behind f earlier := by
  unfold read
  rw [behind_resolve]
  exact behind_use _ _

/-- A walk that is over leaves no initializer open. -/
theorem inInitializer_behind (r : Resolver) (name : String) :
    (r.behind f earlier).inInitializer name = r.inInitializer name := by
  obtain ⟨scopes, functionRole, classRole, loops, resolutions, findings⟩ := r
  cases scopes with
  | nil => rfl
  | cons scope scopes =>
    have hfind : (scope.relabel f).locals.find? name = (scope.locals.find? name).map (Local.relabel f) :=
      Table.find?_map _ scope.locals name
    simp only [inInitializer, behind, List.map_cons, hfind]
    cases scope.locals.find? name <;> rfl

theorem behind_readName (r : Resolver) (ref : Ref) :
    (r.behind f earlier).readName (ref.relabel f) = (r.readName ref).behind f earlier := by
  have hinitializer : (r.behind f earlier).inInitializer (ref.relabel f).mark.lexeme =
      r.inInitializer ref.mark.lexeme := inInitializer_behind r _
  unfold readName
  rw [hinitializer, ← behind_read, ← behind_errorIf]
  rfl

theorem behind_readThis (r : Resolver) (ref : Ref) :
    (r.behind f earlier).readThis (ref.relabel f) = (r.readThis ref).behind f earlier := by
  unfold readThis
  rw [behind_read]
  change (if r.classRole = .none then _ else _) = _
  split <;> rfl

/-- Behind a walk that is over `super` is what it would be in the first. -/
theorem behind_readSuper (r : Resolver) (ref : Ref) :
    (r.behind f earlier).readSuper (ref.relabel f) = (r.readSuper ref).behind f earlier := by
  have hrole : (r.behind f earlier).classRole = r.classRole := rfl
  unfold readSuper
  rw [hrole]
  cases r.classRole with
  | none => exact behind_read (r.error .superOutsideClass ref.mark) ref
  | base => exact behind_read (r.error .superWithoutSuperclass ref.mark) ref
  | derived => exact behind_read r ref

theorem behind_readSuperclass (r : Resolver) (name : Mark) (parent : Ref) :
    (r.behind f earlier).readSuperclass (name.relabel f) (parent.relabel f) =
      (r.readSuperclass name parent).behind f earlier := by
  let named : Resolver :=
    if parent.mark.lexeme = name.lexeme then r.error .selfInheritance parent.mark else r
  have hnamed := @behind_errorIf f earlier r (parent.mark.lexeme = name.lexeme) _
    .selfInheritance parent.mark
  refine Eq.trans ?_ (behind_readName { named with classRole := .derived } parent)
  exact congrArg (fun r' : Resolver =>
    readName { r' with classRole := .derived } (parent.relabel f)) hnamed

/-- A return is checked behind a walk that is over as if it were in the first. -/
theorem behind_checkReturn (r : Resolver) (keyword : Mark) (hasValue : Bool) :
    (r.behind f earlier).checkReturn (keyword.relabel f) hasValue =
      (r.checkReturn keyword hasValue).behind f earlier := by
  let returns : Resolver :=
    if r.functionRole = .none then r.error .returnOutsideFunction keyword else r
  have hreturns := @behind_errorIf f earlier r (r.functionRole = .none) _
    .returnOutsideFunction keyword
  have hvalue := @behind_errorIf f earlier returns
    (hasValue && returns.functionRole = .initializer) _ .valueFromInitializer keyword
  refine Eq.trans ?_ hvalue
  exact congrArg (fun r' : Resolver => if hasValue && r'.functionRole = .initializer then
    r'.error .valueFromInitializer (keyword.relabel f) else r') hreturns

theorem behind_checkBreak (r : Resolver) (keyword : Mark) :
    (r.behind f earlier).checkBreak (keyword.relabel f) = (r.checkBreak keyword).behind f earlier :=
  behind_errorIf r (r.loops = 0) .breakOutsideLoop keyword

/-- Walks that are alike can go on one after the other. -/
theorem Alike.comp {walk walk' next next' : Resolver → Resolver} (h : Alike f earlier walk walk')
    (hnext : Alike f earlier next next') :
    Alike f earlier (fun r => next (walk r)) (fun r => next' (walk' r)) :=
  fun r => (congrArg next' (h r)).trans (hnext _)

section Surroundings

variable {walk walk' : Resolver → Resolver} (h : Alike f earlier walk walk')
include h

/-- Walks through the bodies of loops are alike if those without the loops are. -/
theorem Alike.inLoop : Alike f earlier (inLoop walk) (inLoop walk') := by
  intro r
  have hwalk := h { r with loops := r.loops + 1 }
  exact congrArg (fun after : Resolver => { after with loops := r.loops }) hwalk

variable (hf : f.KeepsOrder)
include hf

/-- Walks through scopes are alike if those without the scopes are. -/
theorem Alike.within (opening : Opening) :
    Alike f earlier (within opening walk) (within (opening.relabel f) walk') := by
  intro r
  have hleave (r : Resolver) : (r.behind f earlier).leave = r.leave.behind f earlier := by
    obtain ⟨scopes, functionRole, classRole, loops, resolutions, findings⟩ := r
    cases scopes with
    | nil => rfl
    | cons scope scopes =>
      have hwarnings (ws : List Warning) :
          ((ws.map (Warning.relabel f)).map Finding.warning).reverse =
            (ws.map Finding.warning).reverse.map (Finding.relabel f) := by
        rw [List.map_map, List.map_reverse, List.map_map]
        rfl
      simp only [leave, behind, List.map_cons, scope.warnings_relabel hf, hwarnings, List.map_append,
        List.append_assoc]
  exact (congrArg leave (h (r.enter opening))).trans (hleave _)

theorem Alike.withinImplicit (opening : Opening) (name : String) (line : Nat) :
    Alike f earlier (withinImplicit opening name line walk)
      (withinImplicit (opening.relabel f) name (f.line line) walk') := by
  refine Alike.within (fun r => ?_) hf opening
  rw [behind_defineImplicit]
  exact h _

/-- Walks through functions are alike if those through their bodies are. -/
theorem Alike.inFunction (role : FunctionRole) (params : List Mark) (body : List Stmt) :
    Alike f earlier (inFunction role ⟨params, body⟩ walk)
      (inFunction role (Lambda.relabel f ⟨params, body⟩) walk') := by
  have hparams (params : List Mark) (r : Resolver) :
      (params.map (Mark.relabel f)).foldl (fun r param => r.declareAndDefine param .parameter)
          (r.behind f earlier) =
        (params.foldl (fun r param => r.declareAndDefine param .parameter) r).behind f earlier := by
    induction params generalizing r with
    | nil => rfl
    | cons param rest ih =>
      rw [List.map_cons, List.foldl_cons, List.foldl_cons, behind_declareAndDefine, ih]
  intro r
  have hinside : Alike f earlier
      (Resolver.within (.function ⟨params, body⟩) fun r =>
        walk (params.foldl (fun r param => r.declareAndDefine param .parameter) r))
      (Resolver.within (.function (Lambda.relabel f ⟨params, body⟩)) fun r =>
        walk' ((params.map (Mark.relabel f)).foldl
          (fun r param => r.declareAndDefine param .parameter) r)) := by
    refine Alike.within (fun r => ?_) hf (.function ⟨params, body⟩)
    rw [hparams]
    exact h _
  exact congrArg
    (fun after : Resolver => { after with functionRole := r.functionRole, loops := r.loops })
    (hinside { r with functionRole := role, loops := 0 })

/-- Walks through classes are alike if those through their methods are. -/
theorem Alike.inClass (name : Mark) (superclass : Option Ref) (methods : List Definition) :
    Alike f earlier (inClass name superclass methods walk)
      (inClass (name.relabel f) (superclass.map (Ref.relabel f)) (Definition.relabelAll f methods)
        walk') := by
  have hmethods := Alike.withinImplicit h hf (.this methods) "this" name.line
  intro r
  have hinside := @behind_declareAndDefine f earlier
    { r with classRole := .base } name .declared
  let inside := declareAndDefine { r with classRole := .base } name .declared
  cases superclass with
  | none =>
    have hafter := (congrArg _ hinside).trans (hmethods inside)
    exact congrArg (fun after : Resolver => { after with classRole := r.classRole }) hafter
  | some parent =>
    have hparent := @behind_readSuperclass f earlier inside name parent
    have hbelow := Alike.withinImplicit hmethods hf (.super methods) "super" name.line
    have hafter := (congrArg _ ((congrArg (fun r : Resolver =>
      r.readSuperclass (name.relabel f) (parent.relabel f)) hinside).trans hparent)).trans (hbelow _)
    exact congrArg (fun after : Resolver => { after with classRole := r.classRole }) hafter

end Surroundings

end Resolver

section Trees

open Resolver

variable {f} {earlier : Resolver}

mutual

/-- Binding of a tree with other labels goes on behind a walk that is over as if it were the first.
    The induction is on the tree. -/
theorem Expr.resolve_alike (hf : f.KeepsOrder) (e : Expr) :
    Alike f earlier e.resolve (e.relabel f).resolve := by
  intro r
  cases e with
  | literal value line => rfl
  | grouping inner | unary _ _ inner | unpaired _ _ inner | get inner _ => exact inner.resolve_alike hf r
  | binary op mark left right | logical op mark left right | comma left right =>
    exact (left.resolve_alike hf).comp (right.resolve_alike hf) r
  | conditional condition yes no =>
    exact ((condition.resolve_alike hf).comp (yes.resolve_alike hf)).comp (no.resolve_alike hf) r
  | name ref => exact behind_readName r ref
  | assign ref value =>
    have href : Alike f earlier (·.resolve ref) (·.resolve (ref.relabel f)) :=
      fun r => behind_resolve r ref
    exact (value.resolve_alike hf).comp href r
  | call callee paren arguments =>
    exact (callee.resolve_alike hf).comp (Expr.resolveAll_alike hf arguments) r
  | set object property value => exact (value.resolve_alike hf).comp (object.resolve_alike hf) r
  | this ref => exact behind_readThis r ref
  | super ref method => exact behind_readSuper r ref
  | lambda keyword code => exact code.resolve_alike hf .lambda r

theorem Expr.resolveAll_alike (hf : f.KeepsOrder) (es : List Expr) :
    Alike f earlier (Expr.resolveAll es) (Expr.resolveAll (Expr.relabelAll f es)) := by
  intro r
  cases es with
  | nil => rfl
  | cons e rest => exact (e.resolve_alike hf).comp (Expr.resolveAll_alike hf rest) r

theorem Lambda.resolve_alike (hf : f.KeepsOrder) (code : Lambda) (role : FunctionRole) :
    Alike f earlier (code.resolve role) ((code.relabel f).resolve role) := by
  obtain ⟨params, body⟩ := code
  exact (Stmt.resolveAll_alike hf body).inFunction hf role params body

theorem Definition.resolveAll_alike (hf : f.KeepsOrder) (ds : List Definition) :
    Alike f earlier (Definition.resolveAll ds) (Definition.resolveAll (Definition.relabelAll f ds)) := by
  intro r
  cases ds with
  | nil => rfl
  | cons d rest =>
    obtain ⟨name, code⟩ := d
    exact (code.resolve_alike hf (.ofMethod name.lexeme)).comp (Definition.resolveAll_alike hf rest) r

/-- Binding of a statement with other labels goes on behind a walk that is over as if it were the
    first. -/
theorem Stmt.resolve_alike (hf : f.KeepsOrder) (s : Stmt) :
    Alike f earlier s.resolve (s.relabel f).resolve := by
  intro r
  cases s with
  | expression value => exact value.resolve_alike hf r
  | print keyword value => exact value.resolve_alike hf r
  | var name initial =>
    cases initial with
    | none => exact behind_declareAndDefine r name .declared
    | some initial =>
      have hdeclare : Alike f earlier (·.declare name .declared)
          (·.declare (name.relabel f) .declared) := fun r => behind_declare r name .declared
      have hdefine : Alike f earlier (·.define name) (·.define (name.relabel f)) :=
        fun r => behind_define r name
      exact (hdeclare.comp (initial.resolve_alike hf)).comp hdefine r
  | function definition =>
    obtain ⟨name, code⟩ := definition
    have hname : Alike f earlier (·.declareAndDefine name .declared)
        (·.declareAndDefine (name.relabel f) .declared) :=
      fun r => behind_declareAndDefine r name .declared
    exact hname.comp (code.resolve_alike hf .function) r
  | «class» name superclass methods =>
    exact (Definition.resolveAll_alike hf methods).inClass hf name superclass methods r
  | block body => exact (Stmt.resolveAll_alike hf body).within hf (.block body) r
  | «if» condition yes no =>
    cases no with
    | none => exact (condition.resolve_alike hf).comp (yes.resolve_alike hf) r
    | some no =>
      exact ((condition.resolve_alike hf).comp (yes.resolve_alike hf)).comp (no.resolve_alike hf) r
  | «while» condition body =>
    exact (condition.resolve_alike hf).comp (body.resolve_alike hf).inLoop r
  | «return» keyword value =>
    cases value with
    | none => exact behind_checkReturn r keyword false
    | some value =>
      have hcheck : Alike f earlier (·.checkReturn keyword true)
          (·.checkReturn (keyword.relabel f) true) := fun r => behind_checkReturn r keyword true
      exact hcheck.comp (value.resolve_alike hf) r
  | «break» keyword => exact behind_checkBreak r keyword

theorem Stmt.resolveAll_alike (hf : f.KeepsOrder) (body : List Stmt) :
    Alike f earlier (Stmt.resolveAll body) (Stmt.resolveAll (Stmt.relabelAll f body)) := by
  intro r
  cases body with
  | nil => rfl
  | cons s rest => exact (s.resolve_alike hf).comp (Stmt.resolveAll_alike hf rest) r

end

end Trees

/-- A walk over two programs goes on from the first to the second. -/
theorem Stmt.resolveAll_append (first second : List Stmt) (r : Resolver) :
    Stmt.resolveAll (first ++ second) r = Stmt.resolveAll second (Stmt.resolveAll first r) := by
  induction first generalizing r with
  | nil => rfl
  | cons s rest ih => exact ih (s.resolve r)

variable {f}

/-- The walk over a program ends where one can begin, behind what has been decided and found. -/
theorem Resolver.behind_start (program : List Stmt) :
    Resolver.start.behind f (Stmt.resolveAll program .start) = Stmt.resolveAll program .start := by
  have honward := Stmt.resolveAll_onward program .start
  have hscopes : (Stmt.resolveAll program .start).scopes = [] :=
    List.map_eq_nil_iff.mp honward.shapes
  have hfunction := honward.functionRole
  have hclass := honward.classRole
  have hloops := honward.loops
  generalize Stmt.resolveAll program .start = r at hscopes hfunction hclass hloops
  obtain ⟨scopes, functionRole, classRole, loops, resolutions, findings⟩ := r
  cases hscopes
  cases hfunction
  cases hclass
  cases hloops
  rfl

/-- Binding decides and finds for two programs, one after the other, what it does for each of them. -/
theorem resolve_append (hf : f.KeepsOrder) (first second : List Stmt) :
    resolve (first ++ Stmt.relabelAll f second) =
      ⟨(resolve first).resolutions ++ (resolve second).resolutions.map (Resolution.relabel f),
        (resolve first).findings ++ (resolve second).findings.map (Finding.relabel f)⟩ := by
  have halike : Resolver.Alike f (Stmt.resolveAll first .start) (Stmt.resolveAll second)
      (Stmt.resolveAll (Stmt.relabelAll f second)) := Stmt.resolveAll_alike hf second
  have hwalk := halike .start
  rw [Resolver.behind_start] at hwalk
  unfold resolve
  dsimp only
  rw [Stmt.resolveAll_append, hwalk, List.map_reverse, List.map_reverse, ← List.reverse_append,
    ← List.reverse_append]
  rfl

theorem Resolution.relabel_ofLine (line : Nat → Nat) (resolutions : List Resolution) :
    resolutions.map (Resolution.relabel (.ofLine line)) = resolutions :=
  List.map_id'' (fun _ => rfl) resolutions

/-- Binding of a program with other labels decides and finds the same with these labels. -/
theorem resolve_relabel (hf : f.KeepsOrder) (program : List Stmt) :
    resolve (Stmt.relabelAll f program) =
      ⟨(resolve program).resolutions.map (Resolution.relabel f),
        (resolve program).findings.map (Finding.relabel f)⟩ :=
  resolve_append hf [] program

/-- The errors among findings with other labels. -/
theorem Finding.errors_relabel (findings : List Finding) :
    (findings.map (Finding.relabel f)).filterMap Finding.error? =
      (findings.filterMap Finding.error?).map (ScopeError.relabel f) := by
  have herror : Finding.error? ∘ Finding.relabel f =
      fun finding => finding.error?.map (ScopeError.relabel f) := by
    funext finding
    cases finding <;> rfl
  rw [List.filterMap_map, herror, List.map_filterMap]

/-- The warnings among findings with other labels. -/
theorem Finding.warnings_relabel (findings : List Finding) :
    (findings.map (Finding.relabel f)).filterMap Finding.warning? =
      (findings.filterMap Finding.warning?).map (Warning.relabel f) := by
  have hwarning : Finding.warning? ∘ Finding.relabel f =
      fun finding => finding.warning?.map (Warning.relabel f) := by
    funext finding
    cases finding <;> rfl
  rw [List.filterMap_map, hwarning, List.map_filterMap]

/-- Binding finds no error in two programs in which it finds none on their own. -/
theorem errors_append (hf : f.KeepsOrder) {first second : List Stmt} (h : (resolve first).errors = [])
    (h' : (resolve second).errors = []) :
    (resolve (first ++ Stmt.relabelAll f second)).errors = [] := by
  unfold Resolved.errors at h h' ⊢
  rw [resolve_append hf, List.filterMap_append, Finding.errors_relabel, h, h']
  rfl

end Lox
