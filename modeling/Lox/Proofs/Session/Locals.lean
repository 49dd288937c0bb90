import Lox.Proofs.Session.Moments

namespace Lox

open Resolver

/-- The frame at the depth has a binding of the name. -/
def Machine.Holds (m : Machine) (depth : Nat) (name : String) : Prop :=
  ∃ frame, m.chain[depth]? = some frame ∧ m.store.Has frame name

/-- Static binding comes to the occurrence while the initializer of the variable that it is about is
    still being read. -/
def Visit.InOwnInitializer (v : Visit) (depth : Nat) (name : String) : Prop :=
  ∃ scope l, v.scopes[depth]? = some scope ∧ scope.locals.find? name = some l ∧
    l.initialized = false

namespace Machine

variable {visits : Visit → Prop} {depths : Std.TreeMap Nat Nat} {m : Machine} {v : Visit}
  {ref : Ref} {depth : Nat} {e : Expr}

/-- The frame at a depth holds a name just if it owns it. -/
theorem holds_iff {name : String} :
    m.Holds depth name ↔ (m.store.ownerAt? m.chain depth name).isSome := by
  rw [Option.isSome_iff_exists]
  exact exists_congr fun frame => Store.ownerAt?_eq_some_iff.symm

/-- A variable with a known depth can be read if its frame has it. -/
theorem lookUp_ok_iff (hdepth : m.depths[ref.id]? = some depth) :
    (∃ value, m.lookUp ref = .ok value) ↔ m.Holds depth ref.mark.lexeme := by
  rw [holds_iff, ← Store.getAt?_isSome]
  simp only [lookUp, hdepth]
  cases m.store.getAt? m.chain depth ref.mark.lexeme <;> simp

theorem owner?_isSome_iff (hdepth : m.depths[ref.id]? = some depth) :
    (m.owner? ref).isSome ↔ m.Holds depth ref.mark.lexeme := by
  simp only [owner?, hdepth, holds_iff]

/-- What binding says about the variable where the walk comes to the node. -/
theorem Situated.status (hv : v.Sound depths) (he : v.node.expression? = some e)
    (href : e.ref? = some ref) (hm : m.Situated visits depths v.before.shapes)
    (hdepth : m.depths[ref.id]? = some depth) :
    ∃ scope l shape, v.scopes[depth]? = some scope ∧
      scope.locals.find? ref.mark.lexeme = some l ∧ v.before.shapes[depth]? = some shape ∧
      shape.status ref.mark.lexeme = some l.initialized := by
  rw [hm.known, hv.recorded he href] at hdepth
  obtain ⟨hlt, hhas, _⟩ := List.findIdx?_eq_some_iff_getElem.mp hdepth
  obtain ⟨l, hl⟩ := Option.isSome_iff_exists.mp hhas
  have hscope : v.scopes[depth]? = some v.scopes[depth] := List.getElem?_eq_getElem hlt
  have hstatus := hv.status_scopes he href depth
  rw [List.getElem?_map, hscope] at hstatus
  have hfound : v.scopes[depth].shape.status ref.mark.lexeme = some l.initialized := by
    simp [Scope.shape, hl]
  simp only [Option.map_some, Option.bind_some, hfound] at hstatus
  obtain ⟨shape, hshape, hinitialized⟩ := Option.bind_eq_some_iff.mp hstatus.symm
  exact ⟨v.scopes[depth], l, shape, hscope, hl, hshape, hinitialized⟩

/-- Outside of its own initializer a variable is in its frame. -/
theorem Situated.holds (hv : v.Sound depths) (he : v.node.expression? = some e)
    (href : e.ref? = some ref) (hm : m.Situated visits depths v.before.shapes)
    (hdepth : m.depths[ref.id]? = some depth)
    (hearly : ¬v.InOwnInitializer depth ref.mark.lexeme) : m.Holds depth ref.mark.lexeme := by
  obtain ⟨scope, l, shape, hscope, hl, hshape, hstatus⟩ := hm.status hv he href hdepth
  cases hinitialized : l.initialized with
  | false => exact absurd ⟨scope, l, hscope, hl, hinitialized⟩ hearly
  | true =>
    obtain ⟨frame, hframe, _, hnames⟩ := hm.aligned.at hshape
    exact ⟨frame, hframe, hnames _ (hinitialized ▸ hstatus)⟩

/-- Right in its own initializer a variable is not in its frame. -/
theorem Situated.not_holds (hv : v.Sound depths) (he : v.node.expression? = some e)
    (href : e.ref? = some ref) (hm : m.Situated visits depths v.before.shapes)
    (hdepth : m.depths[ref.id]? = some 0) (hearly : v.InOwnInitializer 0 ref.mark.lexeme) :
    ¬m.Holds 0 ref.mark.lexeme := by
  rintro ⟨frame, hframe, hhas⟩
  obtain ⟨scope, l, shape, hscope, hl, hshape, hstatus⟩ := hm.status hv he href hdepth
  obtain ⟨scope', l', hscope', hl', hinitialized⟩ := hearly
  obtain rfl := Option.some.inj (hscope.symm.trans hscope')
  obtain rfl := Option.some.inj (hl.symm.trans hl')
  have hexact := hm.innermost shape frame (List.head?_eq_getElem? ▸ hshape)
    (List.head?_eq_getElem? ▸ hframe) _ hhas
  rw [hstatus, hinitialized] at hexact
  cases hexact

end Machine

/-- A variable is not read right in its own initializer: binding reports that. -/
theorem Visit.Sound.not_inOwnInitializer {depths : Std.TreeMap Nat Nat} {v : Visit} {ref : Ref}
    (hv : v.Sound depths) (he : v.node.expression? = some (.name ref)) :
    ¬v.InOwnInitializer 0 ref.mark.lexeme := by
  rintro ⟨scope, l, hscope, hl, hinitialized⟩
  have hreported (r : Resolver) (hr : r.scopes[0]? = some scope) :
      .error ⟨.readInInitializer, ref.mark⟩ ∈ (r.readName ref).findings := by
    have hinside : r.inInitializer ref.mark.lexeme = true := by
      -- Inside an initializer the name is found in the innermost scope, where it has no value yet.
      cases hscopes : r.scopes with
      | nil => simp [hscopes] at hr
      | cons first rest =>
        obtain rfl : first = scope := by simpa [hscopes] using hr
        simp [inInitializer, hscopes, hl, hinitialized]
    unfold readName
    rw [if_pos hinside]
    exact (onward_read _ ref).extends.findings.subset List.mem_cons_self
  obtain ⟨node, r⟩ := v
  cases node with
  | expr e =>
    obtain rfl := Option.some.inj he
    exact hv.clean _ (hreported r hscope)
  | superclass name parent =>
    obtain rfl : parent = ref := by simpa [Node.expression?] using he
    refine hv.clean _ (hreported _ ?_)
    split <;> exact hscope
  | _ => cases he

/-- How a read at a known depth comes out: it succeeds just if the frame has the variable, which it has
    unless the read is in a function inside the initializer of the very variable. -/
structure Visit.ReadsAt (v : Visit) (ref : Ref) (depth : Nat) (m : Machine) : Prop where
  succeeds : (∃ value, m.lookUp ref = .ok value) ↔ m.Holds depth ref.mark.lexeme
  holds : m.Holds depth ref.mark.lexeme ∨
    0 < depth ∧ v.InOwnInitializer depth ref.mark.lexeme

/-- How an assignment at a known depth comes out, once its value is there: it succeeds just if the frame
    has the variable, which it has outside of the initializer of the very variable, and has not right in
    this initializer. -/
structure Visit.AssignsAt (v : Visit) (ref : Ref) (depth : Nat) (m : Machine) : Prop where
  succeeds : (m.owner? ref).isSome ↔ m.Holds depth ref.mark.lexeme
  holds : ¬v.InOwnInitializer depth ref.mark.lexeme → m.Holds depth ref.mark.lexeme
  fails : depth = 0 → v.InOwnInitializer depth ref.mark.lexeme → ¬m.Holds depth ref.mark.lexeme

variable {visits : Visit → Prop} {depths : Std.TreeMap Nat Nat} {m : Machine} {v : Visit} {ref : Ref}
  {depth : Nat}

/-- Where binding has been, a local name is read from the frame that it leads to. -/
theorem Machine.Situated.readsAt (hcovers : Covers visits depths) (hv : visits v)
    (hm : m.Situated visits depths v.before.shapes) (hdepth : m.depths[ref.id]? = some depth)
    (he : v.node.expression? = some (.name ref)) : v.ReadsAt ref depth m where
  succeeds := lookUp_ok_iff hdepth
  holds := by
    have hsound := hcovers.sound hv
    by_cases hearly : v.InOwnInitializer depth ref.mark.lexeme
    · refine .inr ⟨Nat.pos_of_ne_zero fun hzero => ?_, hearly⟩
      exact hsound.not_inOwnInitializer he (hzero ▸ hearly)
    · exact .inl (hm.holds hsound he rfl hdepth hearly)

/-- Reading `this` never fails. -/
theorem Machine.Situated.readsAt_this (hcovers : Covers visits depths) {r : Resolver}
    (hv : visits ⟨.expr (.this ref), r⟩) (hm : m.Situated visits depths r.shapes)
    (hdepth : m.depths[ref.id]? = some depth) :
    Visit.ReadsAt ⟨.expr (.this ref), r⟩ ref depth m where
  succeeds := lookUp_ok_iff hdepth
  holds := by
    obtain ⟨depth', id, hdepth', _, hget⟩ := hm.this hcovers hv
    obtain rfl := Option.some.inj (hdepth'.symm.trans hdepth)
    exact .inl (holds_iff.mpr (Store.getAt?_isSome.mp (by simp [hget])))

/-- Where binding has been, a local name is assigned in the frame that it leads to, unless it is its
    own initializer that does so. -/
theorem Machine.Situated.assignsAt (hcovers : Covers visits depths) {value : Expr} {r : Resolver}
    (hv : visits ⟨.expr (.assign ref value), r⟩) (hm : m.Situated visits depths r.shapes)
    (hdepth : m.depths[ref.id]? = some depth) {fuel : Nat} {a : Value} {m' : Machine}
    (hvalue : eval fuel value m = .ok a m') :
    Visit.AssignsAt ⟨.expr (.assign ref value), r⟩ ref depth m' := by
  have hpart : visits ⟨.expr value, r⟩ := hcovers.part hv (by simp [Visit.parts, Expr.parts])
  have hm' : m'.Situated visits depths r.shapes := hm.evaluated hcovers hpart hvalue
  have hdepth' : m'.depths[ref.id]? = some depth := by rw [hm'.known, ← hm.known, hdepth]
  have hsound := hcovers.sound hv
  refine ⟨owner?_isSome_iff hdepth', hm'.holds hsound rfl rfl hdepth', fun hzero hearly => ?_⟩
  subst hzero
  exact hm'.not_holds hsound rfl rfl hdepth' hearly

namespace Session

variable {programs : List (List Stmt)} {s : Session}

/-- Which local variables are there when they are needed. Whatever sources a session has been given, and
    whatever it is given next: whenever it reads or assigns a variable, or reads `this`, at a known depth,
    the frame at that depth has it, unless the access is in the initializer of the very variable. Right in
    it an assignment always fails, and a read cannot stand there; inside a function in it the access comes
    out as the frame has the variable by then. -/
theorem local_accesses (hs : Reached programs s) (mode : Mode) (fuel : Nat) (source : String) :
    s.Always mode fuel source fun moment m => ∀ e ref depth, moment = .evaluating e →
      e.ref? = some ref → m.depths[ref.id]? = some depth →
      ∃ v, Visited (s.underWay programs source) v ∧ v.node.expression? = some e ∧
        (e = .name ref ∨ e = .this ref → v.ReadsAt ref depth m) ∧
        ∀ value fuel' a m', e = .assign ref value → eval fuel' value m = .ok a m' →
          v.AssignsAt ref depth m' := by
  apply hs.always
  intro depths hcovers moment m hmoment e ref depth he href hdepth
  subst he
  obtain ⟨v, hv, hnode, hm⟩ := hmoment
  refine ⟨v, hv, hnode, ?_, ?_⟩
  · rintro (rfl | rfl)
    · exact hm.readsAt hcovers hv hdepth hnode
    · obtain ⟨node, r⟩ := v
      cases node with
      | expr e =>
        obtain rfl := Option.some.inj hnode
        exact hm.readsAt_this hcovers hv hdepth
      | _ => cases hnode
  · rintro value fuel' a m' rfl hvalue
    obtain ⟨node, r⟩ := v
    cases node with
    | expr e =>
      obtain rfl := Option.some.inj hnode
      exact hm.assignsAt hcovers hv hdepth hvalue
    | _ => cases hnode

/-- The accesses of a block that assigns a variable in its own initializer. -/
theorem local_accesses_in_initializer :
    let s := Session.start .unlimited (.ticking 0)
    Reached [] s ∧
      s.Always .program 20 "{ var a = a = true; }" fun moment m => ∀ e ref depth,
        moment = .evaluating e → e.ref? = some ref → m.depths[ref.id]? = some depth →
        ∃ v, Visited (s.underWay [] "{ var a = a = true; }") v ∧ v.node.expression? = some e ∧
          (e = .name ref ∨ e = .this ref → v.ReadsAt ref depth m) ∧
          ∀ value fuel' a m', e = .assign ref value → eval fuel' value m = .ok a m' →
            v.AssignsAt ref depth m' :=
  ⟨.start _ _, local_accesses (.start .unlimited (.ticking 0)) .program 20 "{ var a = a = true; }"⟩

/-- That block is accepted, with a warning only, and its run fails for want of the variable. -/
theorem undefined_local_in_initializer :
    ((start .unlimited (.ticking 0)).submit (Mode.program.run 20) "{ var a = a = true; }").1.reports =
      [.warning ⟨1, "a"⟩, .error (.runtime ⟨.undefinedVariable "a", 1⟩)] := by
  decide +kernel

end Session

end Lox
