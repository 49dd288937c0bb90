import Lox.Proofs.Binding.Growing
import Lox.Proofs.Binding.Warnings

namespace Lox

open Landmark (readsAll extentsAll pastAll)

/-- The warnings are those about the unread names of the scope, in their order. -/
def Extent.Warned (x : Extent) (ws : List Warning) : Prop :=
  ws.Pairwise Warning.Before ∧ ∀ w, w ∈ ws ↔ x.Unread w

/-- The warnings about a scope in which every name has its value are just those about its unread names. -/
theorem Scope.Grows.warned {opening : Opening} {kind : ScopeKind} {inside : List Landmark}
    {around : List Around} {s : Scope}
    (h : (Scope.opened opening).Grows inside (readsAll (⟨kind, []⟩ :: around) inside) around.length s)
    (hnamed : Landmark.AllNamed inside)
    (hinitialized : ∀ name l, s.locals.find? name = some l → l.initialized) :
    (Extent.mk around kind inside).Warned s.warnings := by
  have hnodup : s.locals.names.Nodup := h.nodup List.nodup_nil
  have hsource (name : String) :
      (s.locals.find? name).map Local.source = Landmark.first? name inside := h.source name
  refine ⟨pairwise_warnings hnodup, fun w => ?_⟩
  rw [mem_warnings hnodup]
  -- The reads of a name are only known if a program can declare it, as those of `this` are not counted.
  have huses (hplain : IsPlain w.name) : s.Uses w.name ↔
      Occurrence.ReadAt (readsAll (⟨kind, []⟩ :: around) inside) around.length w.name := by
    rw [h.uses w.name hplain, or_iff_right]
    rintro ⟨l, hfind, _⟩
    cases hfind
  constructor
  · rintro ⟨l, hfind, hunused, hline⟩
    have hunused : (l.origin = .declared ∧ l.initialized = true) ∧ l.used = false := by
      simpa [Local.isUnused] using hunused
    have hfirst : Landmark.first? w.name inside = some (w.line, .declared) := by
      rw [← hsource, hfind, Option.map_some, Local.source, hline, hunused.1.1]
    refine ⟨hfirst, fun hread => ?_⟩
    obtain ⟨l', hfind', hused⟩ := (huses (hnamed.plain hfirst)).mpr hread
    cases hfind.symm.trans hfind'
    rw [hunused.2] at hused
    cases hused
  · rintro ⟨hfirst, hunread⟩
    obtain ⟨l, hfind, hl⟩ := Option.map_eq_some_iff.mp ((hsource w.name).trans hfirst)
    have hused : l.used = false := Bool.eq_false_iff.mpr fun hused =>
      hunread ((huses (hnamed.plain hfirst)).mp ⟨l, hfind, hused⟩)
    obtain ⟨hline, horigin⟩ := Prod.mk.inj hl
    refine ⟨l, hfind, ?_, hline⟩
    simp [Local.isUnused, horigin, hinitialized _ _ hfind, hused]

namespace Resolver

/-- The warnings so far, the last one first. -/
def warned (r : Resolver) : List Warning :=
  r.findings.filterMap Finding.warning?

/-- Between the two states the walk goes past the landmarks, which have these scopes around: it notes the
    declarations and the reads, decides the reads as static scoping says, and warns of the unread names of
    the scopes that close. -/
structure Observes (around : List Around) (landmarks : List Landmark) (r r' : Resolver) : Prop where
  grown : Scope.Grown (readsAll around landmarks) landmarks r.scopes r'.scopes
  warned : ∃ lists, List.Forall₂ Extent.Warned (extentsAll around landmarks) lists ∧
    r'.warned = lists.flatten.reverse ++ r.warned
  kept : r.resolutions <:+ r'.resolutions
  decided : ∀ o ∈ readsAll around landmarks, o.resolution ∈ r'.resolutions

/-- The walk goes past the landmarks, whatever scopes are around. What this asks of the surroundings stands
    inside, so that parts of the walk are put together without a word about them. -/
def Follows (landmarks : List Landmark) (r r' : Resolver) : Prop :=
  ∀ around, Landmark.AllNamed landmarks → List.Forall₂ Around.Shows around r.scopes →
    Observes around landmarks r r'

variable {landmarks more inside : List Landmark} {r r₀ r₁ r₂ r₃ : Resolver}

/-- What two walks do for landmarks one behind the other. -/
theorem Follows.trans (h : Follows landmarks r r₁) (h' : Follows more r₁ r₂) :
    Follows (landmarks ++ more) r r₂ := by
  intro around hnamed hshows
  obtain ⟨hfirst, hrest⟩ := Landmark.allNamed_append.mp hnamed
  have hr := h around hfirst hshows
  have hr₁ := h' _ hrest (hr.grown.shows hshows)
  obtain ⟨lists, hlists, hwarned⟩ := hr.warned
  obtain ⟨lists', hlists', hwarned'⟩ := hr₁.warned
  refine ⟨?_, ⟨lists ++ lists', ?_, ?_⟩, hr.kept.trans hr₁.kept, ?_⟩
  · rw [Landmark.readsAll_append]
    exact hr.grown.trans hr₁.grown
  · rw [Landmark.extentsAll_append]
    exact List.rel_append hlists hlists'
  · rw [hwarned', hwarned, List.flatten_append, List.reverse_append, List.append_assoc]
  · rw [Landmark.readsAll_append]
    intro o ho
    rcases List.mem_append.mp ho with ho | ho
    · exact hr₁.kept.subset (hr.decided o ho)
    · exact hr₁.decided o ho

/-- What comes before and after may be of no account. -/
theorem Follows.between (h : Follows landmarks r₁ r₂) (hbefore : Follows [] r₀ r₁)
    (hafter : Follows [] r₂ r₃) : Follows landmarks r₀ r₃ := by
  simpa using (hbefore.trans h).trans hafter

/-- A step that leaves the scopes alone, and finds no warning. -/
theorem Follows.silent (hscopes : r₁.scopes = r.scopes) (hwarned : r₁.warned = r.warned)
    (hkept : r.resolutions <:+ r₁.resolutions) : Follows [] r r₁ := by
  intro around _ _
  refine ⟨?_, ⟨[], .nil, hwarned⟩, hkept, nofun⟩
  rw [hscopes]
  exact .refl r.scopes

theorem Follows.refl (r : Resolver) : Follows [] r r :=
  .silent rfl rfl List.suffix_rfl

/-- A step in the innermost scope alone. -/
theorem Follows.modifyHead {change : Scope → Scope} (hscopes : r₁.scopes = r.scopes.modifyHead change)
    (hchange : ∀ s outer, r.scopes = s :: outer → s.Grows landmarks [] outer.length (change s))
    (hreads : ∀ around, readsAll around landmarks = [])
    (hextents : ∀ around, extentsAll around landmarks = [])
    (hwarned : r₁.warned = r.warned) (hkept : r.resolutions <:+ r₁.resolutions) :
    Follows landmarks r r₁ := by
  intro around _ _
  refine ⟨?_, ⟨[], ?_, hwarned⟩, hkept, ?_⟩
  · rw [hreads, hscopes]
    exact .modifyHead hchange
  · rw [hextents]
    exact .nil
  · rw [hreads]
    nofun

theorem follows_error (r : Resolver) (cause : ScopeCause) (mark : Mark) :
    Follows [] r (r.error cause mark) :=
  .silent rfl rfl List.suffix_rfl

/-- A check is no landmark. -/
theorem follows_errorIf (r : Resolver) (condition : Prop) [Decidable condition] (cause : ScopeCause)
    (mark : Mark) : Follows [] r (if condition then r.error cause mark else r) := by
  split
  · exact follows_error r cause mark
  · exact .refl r

theorem follows_checkReturn (r : Resolver) (keyword : Mark) (hasValue : Bool) :
    Follows [] r (r.checkReturn keyword hasValue) :=
  (follows_errorIf r _ _ _).trans (follows_errorIf _ _ _ _)

theorem follows_checkBreak (r : Resolver) (keyword : Mark) : Follows [] r (r.checkBreak keyword) :=
  follows_errorIf r _ _ _

/-- An assignment is decided, but it is no read. -/
theorem follows_resolve (r : Resolver) (ref : Ref) : Follows [] r (r.resolve ref) :=
  .silent rfl rfl (List.suffix_cons _ _)

/-- A step that changes the innermost scope follows landmarks that neither open a scope nor read. -/
theorem follows_updateInnermost (r : Resolver) {change : Scope → Scope}
    (hchange : ∀ s outer, r.scopes = s :: outer → s.Grows landmarks [] outer.length (change s))
    (hreads : ∀ around, readsAll around landmarks = [])
    (hextents : ∀ around, extentsAll around landmarks = []) :
    Follows landmarks r (r.updateInnermost change) := by
  have hscopes : (r.updateInnermost change).scopes = r.scopes.modifyHead change := by
    unfold updateInnermost
    cases hscopes : r.scopes with
    | nil => simp [hscopes]
    | cons s outer => rfl
  have hsame : (r.updateInnermost change).warned = r.warned ∧
      (r.updateInnermost change).resolutions = r.resolutions := by
    unfold updateInnermost
    split <;> exact ⟨rfl, rfl⟩
  exact .modifyHead hscopes hchange hreads hextents hsame.1 (hsame.2 ▸ List.suffix_rfl)

theorem follows_define (r : Resolver) (name : Mark) : Follows [] r (r.define name) :=
  follows_updateInnermost r (fun s _ _ => s.grows_update name.lexeme (fun _ => rfl) fun _ => rfl)
    (fun _ => rfl) fun _ => rfl

/-- A declaration follows its own landmark, also where the name was there before. -/
theorem follows_declare (r : Resolver) (name : Mark) (origin : Origin) :
    Follows [.declare name origin] r (r.declare name origin) := by
  have hscopes : (r.declare name origin).scopes = r.scopes.modifyHead fun s =>
      if s.locals.contains name.lexeme then s
      else { s with locals := s.locals.insert name.lexeme ⟨name.line, origin, false, false⟩ } := by
    unfold declare
    cases hscopes : r.scopes with
    | nil => simp [hscopes]
    | cons s outer =>
      rw [List.modifyHead_cons]
      dsimp only
      by_cases hcontains : s.locals.contains name.lexeme
      · rw [if_pos hcontains, if_pos hcontains]
        exact hscopes
      · rw [if_neg hcontains, if_neg hcontains]
  have hsame : (r.declare name origin).warned = r.warned ∧
      (r.declare name origin).resolutions = r.resolutions := by
    unfold declare
    split
    · exact ⟨rfl, rfl⟩
    · dsimp only
      split <;> exact ⟨rfl, rfl⟩
  refine .modifyHead hscopes (fun s outer _ => ?_) (fun _ => rfl) (fun _ => rfl) hsame.1
    (hsame.2 ▸ List.suffix_rfl)
  split
  · rename_i hcontains
    exact Scope.grows_redeclare hcontains origin
  · rename_i hnew
    exact Scope.grows_insert (Option.not_isSome_iff_eq_none.mp hnew) name ⟨name.line, origin, false, false⟩
      rfl rfl rfl

theorem follows_declareAndDefine (r : Resolver) (name : Mark) (origin : Origin) :
    Follows [.declare name origin] r (r.declareAndDefine name origin) :=
  (follows_declare r name origin).trans (follows_define _ name)

/-- The name comes into a scope that has just begun. -/
theorem follows_defineImplicit (r : Resolver) (opening : Opening) (name : String) (line : Nat) :
    Follows [.declare ⟨name, line⟩ .implicit] (r.enter opening)
      ((r.enter opening).defineImplicit name line) := by
  refine follows_updateInnermost (r.enter opening) (fun s outer hscopes => ?_) (fun _ => rfl) fun _ => rfl
  have hs : Scope.opened opening = s := (List.cons.inj hscopes).1
  subst hs
  exact Scope.grows_insert rfl ⟨name, line⟩ ⟨line, .implicit, true, false⟩ rfl rfl rfl

/-- The nearest scope with the name notes that it is read. -/
theorem grown_use (r : Resolver) (name : String) {os : List Occurrence}
    (hnone : ∀ name, Landmark.first? name landmarks = none)
    (hread : ∀ level other, IsPlain other → (Occurrence.ReadAt os level other ↔ other = name ∧
      ∃ depth, depth? r.scopes name = some depth ∧ r.scopes.length = level + depth + 1)) :
    Scope.Grown os landmarks r.scopes (r.use name).scopes := by
  unfold use
  cases hdepth : depth? r.scopes name with
  | none =>
    refine .still hnone fun level _ other hplain hreads => ?_
    obtain ⟨_, depth, hfound, _⟩ := (hread level other hplain).mp hreads
    rw [hdepth] at hfound
    cases hfound
  | some depth =>
    refine .modify hnone (fun s hs => ?_) fun level other hplain => ?_
    · obtain ⟨hlt, hcontains, _⟩ := List.findIdx?_eq_some_iff_getElem.mp hdepth
      rw [List.getElem?_eq_getElem hlt] at hs
      exact Option.some.inj hs ▸ hcontains
    · rw [hread level other hplain, hdepth]
      simp

/-- To note a read gives no warning and decides nothing. -/
private theorem use_same (r : Resolver) (name : String) :
    (r.use name).warned = r.warned ∧ (r.use name).resolutions = r.resolutions := by
  unfold use
  split <;> exact ⟨rfl, rfl⟩

/-- A read follows its own landmark: the scope that it resolves to is the one in which it is noted.
    -/
theorem follows_read (r : Resolver) (ref : Ref) : Follows [.read ref] r (r.read ref) := by
  intro around _ hshows
  obtain ⟨hwarned, hresolutions⟩ := use_same (r.resolve ref) ref.mark.lexeme
  have hdepth := Around.depth?_eq hshows ref.mark.lexeme
  refine ⟨?_, ⟨[], .nil, hwarned⟩, hresolutions ▸ List.suffix_cons _ _, fun o ho => ?_⟩
  · refine grown_use (r.resolve ref) _ (fun _ => rfl) fun level other _ => ?_
    have hscopes : (r.resolve ref).scopes = r.scopes := rfl
    rw [hscopes, hdepth, ← hshows.length_eq, eq_comm (a := other)]
    simp [Occurrence.ReadAt, Occurrence.ResolvesAt, readsAll, Landmark.reads]
  · obtain rfl : o = ⟨ref, around⟩ := by simpa [readsAll, Landmark.reads] using ho
    rw [read, hresolutions, resolve, hdepth]
    exact List.mem_cons_self

/-- Reading `this` or `super` is no read of a name that a program can declare. -/
theorem follows_receiver (r : Resolver) (ref : Ref) : Follows [.receiver ref] r (r.read ref) := by
  intro around hnamed _
  obtain ⟨hwarned, hresolutions⟩ := use_same (r.resolve ref) ref.mark.lexeme
  refine ⟨?_, ⟨[], .nil, hwarned⟩, hresolutions ▸ List.suffix_cons _ _, nofun⟩
  refine grown_use (r.resolve ref) _ (fun _ => rfl) fun level other hplain => ?_
  refine iff_of_false (Occurrence.readAt_nil level other) ?_
  rintro ⟨rfl, _⟩
  exact hnamed.1 hplain

/-- An occurrence of `this` or `super` that is not read. -/
theorem Follows.receiver (h : Follows [] r r₁) (ref : Ref) : Follows [.receiver ref] r r₁ := by
  intro around _ hshows
  have hsilent := h around trivial hshows
  exact ⟨hsilent.grown.congr fun _ => rfl, hsilent.warned, hsilent.kept, nofun⟩

theorem follows_readName (r : Resolver) (ref : Ref) : Follows [.read ref] r (r.readName ref) :=
  (follows_errorIf r _ _ _).trans (follows_read _ ref)

theorem follows_readThis (r : Resolver) (ref : Ref) : Follows [.receiver ref] r (r.readThis ref) := by
  unfold readThis
  split
  · exact (follows_error r _ _).receiver ref
  · exact follows_receiver r ref

/-- An occurrence of `super` is no read of a name that a program declares. -/
theorem follows_readSuper (r : Resolver) (ref : Ref) : Follows [.receiver ref] r (r.readSuper ref) := by
  unfold readSuper
  dsimp only
  split
  · exact (follows_error r _ _).trans (follows_receiver _ ref)
  · exact (follows_error r _ _).trans (follows_receiver _ ref)
  · exact follows_receiver r ref

/-- In which function, class and loops the walk is makes no difference. -/
theorem follows_surroundings (r : Resolver) (functionRole : FunctionRole) (classRole : ClassRole)
    (loops : Nat) : Follows [] r { r with functionRole, classRole, loops } :=
  .silent rfl rfl List.suffix_rfl

/-- A name of a scope has its value once the walk has settled all names in the scope. -/
theorem initialized_of_settle {s : Scope} {opening : Opening} {names : List String}
    (h : s.shape = (Shape.opened opening).settle names) {name : String} {l : Local}
    (hfind : s.locals.find? name = some l) : l.initialized := by
  have hstatus := congrFun (congrArg Shape.status h) name
  simp only [Scope.shape, hfind, Option.map_some, Shape.settle, Shape.opened] at hstatus
  split at hstatus
  · exact Option.some.inj hstatus
  · cases hstatus

/-- Where a scope ends, the walk warns of its unread names. -/
theorem Follows.within (opening : Opening) {walk : Resolver → Resolver} {names : List String}
    {ids : List Nat}
    (h : Follows inside (r.enter opening) (walk (r.enter opening)))
    (honward : (r.enter opening).Onward names ids (walk (r.enter opening))) :
    Follows [.scope opening.kind inside] r (within opening walk r) := by
  intro around hnamed hshows
  have hempty : Around.Shows ⟨opening.kind, []⟩ (Scope.opened opening) := fun name => by
    simp [Scope.opened, Table.contains]
  have hinside := h (⟨opening.kind, []⟩ :: around) hnamed.1 (.cons hempty hshows)
  obtain ⟨lists, hlists, hwarned⟩ := hinside.warned
  have hgrown : Scope.Grown _ inside (Scope.opened opening :: r.scopes) (walk (r.enter opening)).scopes :=
    hinside.grown
  generalize hafter : walk (r.enter opening) = after at *
  obtain ⟨scopes, functionRole, classRole, loops, resolutions, findings⟩ := after
  dsimp only at hgrown
  cases hgrown with
  | @cons _ _ s _ outer hhead houter =>
    -- The scope that ends is the one that was entered: it has the landmarks inside, and no others.
    have hshape : s.shape = (Shape.opened opening).settle names := (List.cons.inj honward.shapes).1
    rw [← hshows.length_eq] at hhead
    have hscope := hhead.warned hnamed.1 fun name l => initialized_of_settle hshape
    have hreads :
        readsAll around [.scope opening.kind inside] = readsAll (⟨opening.kind, []⟩ :: around) inside :=
      List.append_nil _
    have hextents : extentsAll around [.scope opening.kind inside] =
        extentsAll (⟨opening.kind, []⟩ :: around) inside ++ [⟨around, opening.kind, inside⟩] :=
      List.append_nil _
    rw [Resolver.within, hafter]
    refine ⟨?_, ⟨lists ++ [s.warnings], ?_, ?_⟩, hinside.kept, ?_⟩
    · rw [hreads]
      exact houter.congr fun _ => rfl
    · rw [hextents]
      exact List.rel_append hlists (.cons hscope .nil)
    · have hleft : (leave ⟨s :: outer, functionRole, classRole, loops, resolutions, findings⟩).warned =
          s.warnings.reverse ++ findings.filterMap Finding.warning? := by
        have hall : (s.warnings.map Finding.warning).filterMap Finding.warning? = s.warnings := by
          rw [List.filterMap_map]
          exact List.filterMap_some
        rw [leave, Resolver.warned, List.filterMap_append, List.filterMap_reverse, hall]
      rw [hleft, List.flatten_append, List.reverse_append, List.flatten_singleton, List.append_assoc]
      exact congrArg _ hwarned
    · rw [hreads]
      exact hinside.decided

/-- Parameters follow their landmarks, which deserve no warning. -/
theorem follows_params (params : List Mark) (r : Resolver) :
    Follows (params.map (Landmark.declare · .parameter)) r
      (params.foldl (fun r param => r.declareAndDefine param .parameter) r) := by
  induction params generalizing r with
  | nil => exact .refl r
  | cons param params ih => exact (follows_declareAndDefine r param .parameter).trans (ih _)

/-- A function follows the landmark of its scope and what is inside it. -/
theorem Follows.inFunction (role : FunctionRole) (code : Lambda) {walk : Resolver → Resolver}
    {names : List String} {ids : List Nat} (h : ∀ r : Resolver, Follows inside r (walk r))
    (honward : ∀ r : Resolver, r.Onward names ids (walk r)) (r : Resolver) :
    Follows [.scope .function (code.params.map (Landmark.declare · .parameter) ++ inside)] r
      (inFunction role code walk r) := by
  let start : Resolver := { r with functionRole := role, loops := 0 }
  have hwithin : Follows _ start (Resolver.within (.function code)
      (fun r => walk (code.params.foldl (fun r param => r.declareAndDefine param .parameter) r)) start) :=
    .within (.function code) ((follows_params code.params _).trans (h _))
      ((onward_params code.params _).trans (honward _))
  exact hwithin.between (follows_surroundings r role r.classRole 0)
    (follows_surroundings _ r.functionRole _ r.loops)

/-- A scope of the language's own follows its landmark and what is inside it. -/
theorem Follows.withinImplicit (opening : Opening) (name : String) (line : Nat)
    {walk : Resolver → Resolver} {names : List String} {ids : List Nat}
    (h : ∀ r : Resolver, Follows inside r (walk r))
    (honward : ∀ r : Resolver, r.Onward names ids (walk r)) (r : Resolver) :
    Follows [.scope opening.kind (.declare ⟨name, line⟩ .implicit :: inside)] r
      (withinImplicit opening name line walk r) :=
  .within opening ((follows_defineImplicit r opening name line).trans (h _))
    ((onward_defineImplicit _ name line).trans (honward _))

/-- A superclass is read in front of the scopes of its class. -/
theorem follows_readSuperclass (r : Resolver) (name : Mark) (parent : Ref) :
    Follows [.read parent] r (r.readSuperclass name parent) :=
  ((follows_errorIf r (parent.mark.lexeme = name.lexeme) .selfInheritance parent.mark).trans
    (follows_surroundings _ _ .derived _)).trans (follows_readName _ parent)

/-- A class follows the landmarks of its name, its superclass and its own scopes. -/
theorem Follows.inClass (name : Mark) (superclass : Option Ref) (methods : List Definition)
    {walk : Resolver → Resolver} {ids : List Nat} (h : ∀ r : Resolver, Follows inside r (walk r))
    (honward : ∀ r : Resolver, r.Onward [] ids (walk r)) (r : Resolver) :
    Follows (Landmark.ofClass name superclass inside) r (inClass name superclass methods walk r) := by
  have hname := (follows_surroundings r r.functionRole .base r.loops).trans
    (follows_declareAndDefine { r with classRole := .base } name .declared)
  have hmethods := Follows.withinImplicit (.this methods) "this" name.line h honward
  have hthis := Onward.withinImplicit (.this methods) "this" name.line honward
  cases superclass with
  | none => exact (hname.trans (hmethods _)).between (.refl r) (follows_surroundings _ _ r.classRole _)
  | some parent =>
    have hparent := follows_readSuperclass
      (declareAndDefine { r with classRole := .base } name .declared) name parent
    have hinside := Follows.withinImplicit (.super methods) "super" name.line hmethods hthis
      (readSuperclass (declareAndDefine { r with classRole := .base } name .declared) name parent)
    exact (hname.trans (hparent.trans hinside)).between (.refl r) (follows_surroundings _ _ r.classRole _)

end Resolver

open Resolver

mutual

/-- The walk follows the outline of a tree. The induction is on the tree. -/
theorem Expr.resolve_follows (e : Expr) (r : Resolver) : Follows e.outline r (e.resolve r) := by
  cases e with
  | literal value line => exact .refl r
  | grouping inner => exact inner.resolve_follows r
  | unary op mark right | unpaired op mark right => exact right.resolve_follows r
  | binary op mark left right | logical op mark left right | comma left right =>
    exact (left.resolve_follows r).trans (right.resolve_follows _)
  | conditional condition yes no =>
    exact ((condition.resolve_follows r).trans (yes.resolve_follows _)).trans (no.resolve_follows _)
  | name ref => exact follows_readName r ref
  | assign ref value =>
    exact (value.resolve_follows r).between (.refl r) (follows_resolve _ ref)
  | call callee paren arguments =>
    exact (callee.resolve_follows r).trans (Expr.resolveAll_follows arguments _)
  | get object property => exact object.resolve_follows r
  | set object property value => exact (value.resolve_follows r).trans (object.resolve_follows _)
  | this ref => exact follows_readThis r ref
  | super ref method => exact follows_readSuper r ref
  | lambda keyword code => exact code.resolve_follows .lambda r

theorem Expr.resolveAll_follows (es : List Expr) (r : Resolver) :
    Follows (Expr.outlineAll es) r (Expr.resolveAll es r) := by
  cases es with
  | nil => exact .refl r
  | cons e rest => exact (e.resolve_follows r).trans (Expr.resolveAll_follows rest _)

theorem Lambda.resolve_follows (code : Lambda) (role : FunctionRole) (r : Resolver) :
    Follows code.outline r (code.resolve role r) := by
  obtain ⟨params, body⟩ := code
  exact .inFunction role ⟨params, body⟩ (Stmt.resolveAll_follows body) (Stmt.resolveAll_onward body) r

theorem Definition.resolveAll_follows (definitions : List Definition) (r : Resolver) :
    Follows (Definition.outlineAll definitions) r (Definition.resolveAll definitions r) := by
  cases definitions with
  | nil => exact .refl r
  | cons definition rest =>
    obtain ⟨name, code⟩ := definition
    exact (code.resolve_follows _ r).trans (Definition.resolveAll_follows rest _)

/-- The walk over a statement follows the outline of the statement. -/
theorem Stmt.resolve_follows (s : Stmt) (r : Resolver) : Follows s.outline r (s.resolve r) := by
  cases s with
  | expression value => exact value.resolve_follows r
  | print keyword value => exact value.resolve_follows r
  | var name initial =>
    cases initial with
    | none => exact follows_declareAndDefine r name .declared
    | some initial =>
      exact ((follows_declare r name .declared).trans (initial.resolve_follows _)).between (.refl r)
        (follows_define _ name)
  | function definition =>
    obtain ⟨name, code⟩ := definition
    exact (follows_declareAndDefine r name .declared).trans (code.resolve_follows .function _)
  | «class» name superclass methods =>
    exact .inClass name superclass methods (Definition.resolveAll_follows methods)
      (Definition.resolveAll_onward methods) r
  | block body =>
    exact .within (.block body) (Stmt.resolveAll_follows body _) (Stmt.resolveAll_onward body _)
  | «if» condition yes no =>
    cases no with
    | none => exact (condition.resolve_follows r).trans (yes.resolve_follows _)
    | some no =>
      exact ((condition.resolve_follows r).trans (yes.resolve_follows _)).trans (no.resolve_follows _)
  | «while» condition body =>
    have hbody := body.resolve_follows { condition.resolve r with loops := (condition.resolve r).loops + 1 }
    exact (condition.resolve_follows r).trans
      (hbody.between (follows_surroundings _ _ _ _) (follows_surroundings _ _ _ _))
  | «return» keyword value =>
    cases value with
    | none => exact follows_checkReturn r keyword false
    | some value => exact (follows_checkReturn r keyword true).trans (value.resolve_follows _)
  | «break» keyword => exact follows_checkBreak r keyword

theorem Stmt.resolveAll_follows (body : List Stmt) (r : Resolver) :
    Follows (Stmt.outlineAll body) r (Stmt.resolveAll body r) := by
  cases body with
  | nil => exact .refl r
  | cons s rest => exact (s.resolve_follows r).trans (Stmt.resolveAll_follows rest _)

end

/-- The walk over a program whose names are spelled as they should be observes its whole outline. -/
theorem resolve_observes {program : List Stmt} (h : Landmark.AllNamed (Stmt.outlineAll program)) :
    Observes [] (Stmt.outlineAll program) .start (Stmt.resolveAll program .start) :=
  Stmt.resolveAll_follows program .start [] h .nil

end Lox
