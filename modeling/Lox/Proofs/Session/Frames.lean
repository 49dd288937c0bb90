import Lox.Proofs.Binding.Occurrence
import Lox.Proofs.Evaluation.Freshness
import Lox.Proofs.Session.Moments

namespace Lox

/-- The name is in the scope, and has its value. -/
def Scope.Settles (scope : Scope) (name : String) : Prop :=
  ∃ l, scope.locals.find? name = some l ∧ l.initialized = true

/-- In front of the global frame there is one frame for every scope, an instance of this very scope, and
    no frame stands there twice. -/
structure Machine.InLine (m : Machine) (scopes : List Scope) : Prop where
  frames : ∃ frames, m.chain = frames ++ .global ∧ globalFrame ∉ frames ∧
    frames.map m.store.kind? = scopes.map fun scope => some scope.kind.frame
  nodup : m.chain.Nodup
  instances : ∀ {depth : Nat} {scope frame}, scopes[depth]? = some scope → m.chain[depth]? = some frame →
    m.store.Instance scope.opening (m.chain.drop (depth + 1)) frame

/-- The frames have all names that have their value in the scopes, and the frame in view no others. -/
structure Machine.HoldsNames (m : Machine) (scopes : List Scope) : Prop where
  has : ∀ {depth : Nat} {scope frame name}, scopes[depth]? = some scope →
    m.chain[depth]? = some frame → scope.Settles name → m.store.Has frame name
  only : ∀ {scope : Scope} {frame name}, scopes[0]? = some scope → m.chain[0]? = some frame →
    m.store.Has frame name → scope.Settles name

/-- The depth is that of the first scope with the name, and the frame there is not the global one but
    the instance of that scope. -/
def Machine.FindsScope (m : Machine) (scopes : List Scope) (name : String) (depth : Nat) : Prop :=
  Resolver.depth? scopes name = some depth ∧
    ∃ scope frame, scopes[depth]? = some scope ∧ scope.locals.contains name ∧
      m.chain[depth]? = some frame ∧ frame ≠ globalFrame ∧
      m.store.Instance scope.opening (m.chain.drop (depth + 1)) frame

/-- Static binding has been at the expression, just once if there is an occurrence in it, with scopes
    that the machine is in line with and whose names it holds, and where a depth is known for the
    expression, it leads to the scope that was found for it. -/
structure Machine.StandsAt (programs : List (List Stmt)) (e : Expr) (m : Machine) (v : Visit) :
    Prop where
  visited : Visited programs v
  node : v.node.expression? = some e
  unique : e.ids ≠ [] → ∀ w, Visited programs w → w.node.expression? = some e → w = v
  inLine : m.InLine v.scopes
  names : m.HoldsNames v.before.scopes
  finds : ∀ ref depth, e.ref? = some ref → m.depths[ref.id]? = some depth →
    m.FindsScope v.scopes ref.mark.lexeme depth

/-- The chains of frames that there are at a moment: the one in view, or else that of the closure which
    is entered, and those of all functions and methods. -/
inductive Moment.Keeps (m : Machine) : Moment → Chain → Prop
  | evaluating (e : Expr) : Keeps m (.evaluating e) m.chain
  | executing (s : Stmt) : Keeps m (.executing s) m.chain
  | entering (c : Closure) (arguments : List Value) : Keeps m (.entering c arguments) c.chain
  | function {moment : Moment} {id : Nat} {c : Closure} (hc : m.store.functions[id]? = some c) :
    Keeps m moment c.chain
  | method {moment : Moment} {id : Nat} {record : ClassRecord} {name : String} {c : Closure}
    (hrecord : m.store.classes[id]? = some record) (hc : record.methods.find? name = some c) :
    Keeps m moment c.chain

variable {visits : Visit → Prop} {depths : Std.TreeMap Nat Nat} {m : Machine} {v : Visit}

theorem ScopeKind.frame_ne_global (kind : ScopeKind) : kind.frame ≠ .global := by
  cases kind <;> nofun

theorem Scope.status_shape {scope : Scope} {name : String} :
    scope.shape.status name = some true ↔ scope.Settles name :=
  Option.map_eq_some_iff

/-- The frame that is made next is in no chain in line with scopes. -/
theorem Store.Aligned.newFrame_not_mem {s : Store} {shapes : List Shape} {chain : Chain}
    (h : s.Aligned shapes chain) (hglobal : s.kind? globalFrame = some .global) (kind : FrameKind)
    (birth : Option Birth) : (s.newFrame kind birth).1 ∉ chain :=
  fun hmem => Nat.lt_irrefl _ (h.lt_size hglobal _ hmem)

/-- Wherever binding has been, every chain of frames is in line with some scopes. -/
theorem Moment.Keeps.aligned {moment : Moment} {chain : Chain} (h : moment.Keeps m chain)
    (hmoment : moment.Expected visits depths m) :
    ∃ shapes, m.store.Aligned shapes chain ∧ m.store.Sound visits := by
  have hsound : m.store.Sound visits := by
    cases moment with
    | evaluating e =>
      obtain ⟨_, _, _, hm⟩ := hmoment
      exact hm.store
    | executing s =>
      obtain ⟨_, _, hm⟩ := hmoment
      exact hm.store
    | entering c arguments => exact hmoment.store
  cases h with
  | evaluating e =>
    obtain ⟨_, _, _, hm⟩ := hmoment
    exact ⟨_, hm.aligned, hsound⟩
  | executing s =>
    obtain ⟨_, _, hm⟩ := hmoment
    exact ⟨_, hm.aligned, hsound⟩
  | entering c arguments =>
    obtain ⟨_, _, _, haligned, _⟩ := hmoment.closure
    exact ⟨_, haligned, hsound⟩
  | function hc =>
    obtain ⟨_, _, _, haligned, _⟩ := hsound.functions hc
    exact ⟨_, haligned, hsound⟩
  | method hrecord hc =>
    obtain ⟨_, _, _, _, _, _, _, haligned⟩ := hsound.methods hrecord hc
    exact ⟨_, haligned, hsound⟩

/-- The frame at the depth of a scope is the instance of that scope. -/
theorem Machine.Situated.instance (hm : m.Situated visits depths v.before.shapes) {depth : Nat}
    {scope : Scope} (hscope : v.scopes[depth]? = some scope) :
    ∃ frame, m.chain[depth]? = some frame ∧
      m.store.Instance scope.opening (m.chain.drop (depth + 1)) frame := by
  have hopening : (v.scopes.map Scope.opening)[depth]? = some scope.opening := by
    rw [List.getElem?_map, hscope]
    rfl
  rw [v.openings_scopes, List.getElem?_map] at hopening
  obtain ⟨shape, hshape, hsame⟩ := Option.map_eq_some_iff.mp hopening
  obtain ⟨frame, hframe, hinstance, -⟩ := hm.aligned.at hshape
  exact ⟨frame, hframe, hsame ▸ hinstance⟩

/-- Frames that stand in line with the scopes of the walk are the instances of these. -/
theorem Machine.Situated.inLine (hm : m.Situated visits depths v.before.shapes) :
    m.InLine v.scopes where
  frames := by
    obtain ⟨frames, hchain, hkinds⟩ := hm.aligned.frames
    refine ⟨frames, hchain, fun hmem => ?_, ?_⟩
    · have hglobal := List.mem_map_of_mem (f := m.store.kind?) hmem
      rw [hkinds, hm.store.global] at hglobal
      obtain ⟨shape, _, hkind⟩ := List.mem_map.mp hglobal
      exact shape.kind.frame_ne_global (Option.some.inj hkind)
    · have hscopes := congrArg (List.map fun opening : Opening => some opening.kind.frame)
        v.openings_scopes
      rw [List.map_map, List.map_map] at hscopes
      exact hkinds.trans hscopes.symm
  nodup := hm.aligned.linked.nodup
  instances hscope hframe := by
    obtain ⟨frame, hfound, hinstance⟩ := hm.instance hscope
    obtain rfl := Option.some.inj (hfound.symm.trans hframe)
    exact hinstance

/-- Frames that stand in line hold the names that their scopes have settled, and no others. -/
theorem Machine.Situated.holdsNames {r : Resolver} (hm : m.Situated visits depths r.shapes) :
    m.HoldsNames r.scopes where
  has {depth scope frame name} hscope hframe hsettles := by
    have hshape : r.shapes[depth]? = some scope.shape := by
      rw [Resolver.shapes, List.getElem?_map, hscope]
      rfl
    obtain ⟨found, hfound, -, hnames⟩ := hm.aligned.at hshape
    obtain rfl := Option.some.inj (hfound.symm.trans hframe)
    exact hnames name (Scope.status_shape.mpr hsettles)
  only {scope frame name} hscope hframe hhas := by
    have hshape : r.shapes.head? = some scope.shape := by
      rw [Resolver.shapes, List.head?_map, List.head?_eq_getElem?, hscope]
      rfl
    rw [← List.head?_eq_getElem?] at hframe
    exact Scope.status_shape.mp (hm.innermost _ frame hshape hframe name hhas)

/-- What binding has decided leads to the frame of the very scope. -/
theorem Machine.Situated.findsScope (hv : v.Sound depths) {e : Expr} {ref : Ref} {depth : Nat}
    (he : v.node.expression? = some e) (href : e.ref? = some ref)
    (hm : m.Situated visits depths v.before.shapes) (hdepth : m.depths[ref.id]? = some depth) :
    m.FindsScope v.scopes ref.mark.lexeme depth := by
  rw [hm.known, hv.recorded he href] at hdepth
  obtain ⟨hlt, hhas, _⟩ := List.findIdx?_eq_some_iff_getElem.mp hdepth
  have hscope : v.scopes[depth]? = some v.scopes[depth] := List.getElem?_eq_getElem hlt
  obtain ⟨frame, hframe, hinstance⟩ := hm.instance hscope
  refine ⟨hdepth, v.scopes[depth], frame, hscope, hhas, hframe, ?_, hinstance⟩
  rintro rfl
  exact v.scopes[depth].kind.frame_ne_global
    (Option.some.inj (hinstance.kind.symm.trans hm.store.global))

variable {programs : List (List Stmt)} {s : Session}

namespace Session

/-- The occurrences in the programs that have been run, and in the one under way, have numbers of their
    own. -/
theorem Reached.nodup_underWay (hs : Reached programs s) (source : String) :
    ((s.underWay programs source).flatMap Stmt.idsAll).Nodup := by
  cases haccept : s.accepted? source with
  | none => simpa [underWay, haccept] using hs.sound.numbered.nodup
  | some program =>
    have hsound := hs.sound.accepted haccept
    simpa [underWay, haccept] using hsound.numbered.nodup

/-- Scopes and frames stay in line. Whatever sources a session has been given, in either way, and
    whatever it is given next: at every moment each frame in view, or kept by a function or a method, is
    one made right inside of the frames behind it, and never one to be made again; it still holds the
    instance or the class that it was made with, if it was. Each time that a block is executed or a
    closure entered, it has a frame of its own. At every moment at which the session evaluates an
    expression, the frames in view up to the global one are just those of the scopes in which static
    binding came to this expression, each made for its scope inside of the frames of the scopes around
    it, with the names of the scope that have their value. A depth that is known for the expression
    leads to the instance of the very scope in which the name was found. -/
theorem frames_in_line (hs : Reached programs s) (mode : Mode) (fuel : Nat) (source : String) :
    s.Always mode fuel source fun moment m =>
      (∀ chain, moment.Keeps m chain → m.store.Linked chain ∧
        (∀ kind birth, (m.store.newFrame kind birth).1 ∉ chain) ∧
        ∀ frame ∈ chain, m.store.HoldsOwn frame) ∧
      moment.OpensFrame m ∧
      ∀ e, moment = .evaluating e → ∃ v, m.StandsAt (s.underWay programs source) e v := by
  apply hs.always
  intro depths hcovers moment m hmoment
  refine ⟨fun chain hchain => ?_, moment.opensFrame m, fun e he => ?_⟩
  · obtain ⟨shapes, haligned, hsound⟩ := hchain.aligned hmoment
    exact ⟨haligned.linked, haligned.newFrame_not_mem hsound.global, fun frame _ => hsound.own frame⟩
  · subst he
    obtain ⟨v, hv, hnode, hm⟩ := hmoment
    refine ⟨v, hv, hnode, fun hids w hw hwe => ?_, hm.inLine, hm.holdsNames,
      fun ref depth href hdepth => ?_⟩
    · exact Visited.unique (hs.nodup_underWay source) hw hv hwe hnode hids
    · exact hm.findsScope (hcovers.sound hv) hnode href hdepth

/-- A line that calls a closure of an earlier source, in whose frames it is then. -/
theorem frames_in_line_across_sources :
    let s := ((Session.start .unlimited (.ticking 0)).submit (Mode.program.run 100)
      "fun make() { var n = nil; fun get() { return n; } return get; } var get = make();").2
    let programs := ((Session.start .unlimited (.ticking 0)).accepted?
      "fun make() { var n = nil; fun get() { return n; } return get; } var get = make();").toList
    Reached (programs ++ []) s ∧
      s.Always .line 100 "get();" fun moment m =>
        (∀ chain, moment.Keeps m chain → m.store.Linked chain ∧
          (∀ kind birth, (m.store.newFrame kind birth).1 ∉ chain) ∧
          ∀ frame ∈ chain, m.store.HoldsOwn frame) ∧
        moment.OpensFrame m ∧
        ∀ e, moment = .evaluating e → ∃ v, m.StandsAt (s.underWay (programs ++ []) "get();") e v :=
  have hs := Reached.submit .program 100 _ (.start .unlimited (.ticking 0))
  ⟨hs, frames_in_line hs .line 100 "get();"⟩

end Session

end Lox
