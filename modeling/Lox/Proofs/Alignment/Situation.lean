import Lox.Proofs.Alignment.Agreement
import Lox.Proofs.Evaluation.Moment

namespace Lox

/-- The visits are those of programs in which binding finds no error, and the depths are those that
    binding has decided there. -/
structure Covers (visits : Visit → Prop) (depths : Std.TreeMap Nat Nat) : Prop where
  part : ∀ {v w}, visits v → w ∈ v.parts → visits w
  sound : ∀ {v}, visits v → v.Sound depths

namespace Machine

/-- The machine knows the depths that binding has decided, its store is sound, its frames are in
    line with the scopes, and the innermost one has no other names than its scope. -/
structure Situated (visits : Visit → Prop) (depths : Std.TreeMap Nat Nat) (shapes : List Shape)
    (m : Machine) : Prop where
  store : m.store.Sound visits
  known : m.depths = depths
  aligned : m.store.Aligned shapes m.chain
  innermost : m.store.Exact shapes m.chain

variable {visits : Visit → Prop} {depths : Std.TreeMap Nat Nat} {shapes : List Shape}
  {m m' : Machine}

/-- The innermost frame is one of the store. -/
theorem Situated.head_kind (h : m.Situated visits depths shapes) {frame : Nat}
    (hhead : m.chain.head? = some frame) : (m.store.kind? frame).isSome := by
  have haligned := h.aligned
  cases shapes with
  | nil =>
    rw [show m.chain = .global from haligned] at hhead
    obtain rfl : globalFrame = frame := Option.some.inj hhead
    simp [h.store.global]
  | cons shape shapes =>
    have hinnermost : (shape :: shapes)[0]? = some shape := rfl
    obtain ⟨first, hfirst, hinstance, _⟩ := haligned.at hinnermost
    rw [List.head?_eq_getElem?, hfirst] at hhead
    obtain rfl := Option.some.inj hhead
    simp [hinstance.kind]

/-- Later the machine is situated where the names brought in are settled. -/
theorem Situated.later {new : List String} (h : m.Situated visits depths shapes)
    (hlater : m.Later new m') (hsound : m'.store.Sound visits)
    (hnew : ∀ name ∈ new, ∀ frame, m.chain.head? = some frame → m'.store.Has frame name) :
    m'.Situated visits depths (shapes.modifyHead (·.settle new)) where
  store := hsound
  known := hlater.depths.trans h.known
  aligned := by
    rw [hlater.chain]
    exact (h.aligned.mono hlater.grows).settle hnew
  innermost := by
    rw [hlater.chain]
    intro shape frame hshape hframe name hhas
    cases shapes with
    | nil => cases hshape
    | cons first rest =>
      obtain rfl := Option.some.inj hshape
      by_cases hmem : name ∈ new
      · simp [Shape.settle, hmem]
      · rcases hlater.names (h.head_kind hframe) hhas with hbefore | ⟨_, hnow⟩
        · simpa [Shape.settle, hmem] using h.innermost first frame rfl hframe name hbefore
        · exact absurd hnow hmem

/-- A run that brings in no name keeps the frames in line. -/
theorem Situated.keep (h : m.Situated visits depths shapes) (hlater : m.Later [] m')
    (hsound : m'.store.Sound visits) : m'.Situated visits depths shapes := by
  have hnow := h.later hlater hsound (by simp)
  rwa [Resolver.modifyHead_settle_nil] at hnow

/-- A name that is there without a value makes no difference to the frames. -/
theorem Situated.declared (h : m.Situated visits depths shapes) (name : String) :
    m.Situated visits depths (shapes.modifyHead (·.declare name)) := by
  cases shapes with
  | nil => exact h
  | cons shape rest =>
    obtain ⟨hstore, hknown, haligned, hinnermost⟩ := h
    have hstatus (other : String) :
        (shape.declare name).status other = some true ↔ shape.status other = some true := by
      by_cases hname : other = name
      · cases hs : shape.status name <;> simp [Shape.declare, hname, hs]
      · simp [Shape.declare, hname]
    refine ⟨hstore, hknown, ?_, fun _ frame hshape hframe other hhas => ?_⟩
    · cases hchain : m.chain with
      | nil => simp [hchain, Store.Aligned] at haligned
      | cons frame chain =>
        rw [hchain] at haligned
        obtain ⟨hinstance, hnames, hrest⟩ := haligned
        exact ⟨hinstance, fun other hother => hnames other ((hstatus other).mp hother), hrest⟩
    · obtain rfl := Option.some.inj hshape
      exact (hstatus other).mpr (hinnermost shape frame rfl hframe other hhas)

/-- A definition settles its name. -/
theorem Situated.define (h : m.Situated visits depths shapes) {name : String} (value : Value)
    (hplain : IsPlain name) :
    ({ m with store := m.store.define m.chain name value } : Machine).Situated visits depths
      (shapes.modifyHead (·.settle [name])) := by
  refine h.later (Run.keeps_define name value m) (h.store.define _ value hplain)
    fun key hkey frame hframe => ?_
  obtain rfl := List.mem_singleton.mp hkey
  exact Store.has_define _ value hframe (h.head_kind hframe)

/-- A declared name belongs to the innermost scope from then on. -/
theorem Situated.declare (h : m.Situated visits depths shapes) {name : String}
    (hplain : IsPlain name) :
    ({ m with store := m.store.declare m.chain name } : Machine).Situated visits depths
      (shapes.modifyHead (·.settle [name])) := by
  refine h.later (Run.keeps_declare name m) (h.store.declare _ hplain)
    fun key hkey frame hframe => ?_
  obtain rfl := List.mem_singleton.mp hkey
  exact Store.has_declare _ hframe (h.head_kind hframe)

/-- Inside a new frame the machine is situated in the scope that the frame was made for, wherever its
    other frames are. -/
theorem Situated.newFrame {chain : Chain} (hsound : m.store.Sound visits) (hknown : m.depths = depths)
    (haligned : m.store.Aligned shapes chain) {opening : Opening} {purpose : Purpose}
    (hkind : opening.kind = .block ∨ opening.kind = .function) (hsuits : purpose.Suits opening) :
    let made := m.store.newFrame opening.kind.frame (some ⟨purpose, chain⟩)
    ({ m with store := made.2, chain := made.1 :: chain } : Machine).Situated visits depths
      (.opened opening :: shapes) where
  store := hsound.newFrame hkind (Purpose.held?_eq_none hsuits hkind)
  known := hknown
  aligned := (haligned.mono (Store.grows_newFrame ..)).cons_opened
    (Store.instance_newFrame m.store hsuits (haligned.lt_size hsound.global))
  innermost shape frame _ hframe name hhas := by
    obtain rfl : m.store.frames.size = frame := by simpa [Store.newFrame] using hframe
    unfold Store.Has at hhas
    rw [Store.slot?_newFrame] at hhas
    simp [Store.slot?] at hhas

/-- The scope at a depth has its frame at that depth. -/
theorem Situated.frame_at (h : m.Situated visits depths shapes) {depth : Nat} {kind : ScopeKind}
    (hkind : (shapes.map Shape.kind)[depth]? = some kind) :
    ∃ frame, m.chain[depth]? = some frame ∧ m.store.kind? frame = some kind.frame := by
  rw [List.getElem?_map] at hkind
  obtain ⟨shape, hshape, rfl⟩ := Option.map_eq_some_iff.mp hkind
  obtain ⟨frame, hframe, hinstance, _⟩ := h.aligned.at hshape
  exact ⟨frame, hframe, hinstance.kind⟩

/-- The instance at the depth of a scope of `this`. -/
theorem Situated.getAt?_this (h : m.Situated visits depths shapes) {depth : Nat}
    (hkind : (shapes.map Shape.kind)[depth]? = some .this) :
    ∃ id, m.store.getAt? m.chain depth "this" = some (.instance id) := by
  obtain ⟨frame, hframe, hframeKind⟩ := h.frame_at hkind
  obtain ⟨id, hslot⟩ := h.store.this hframeKind
  exact ⟨id, Store.getAt?_of_slot hframe hslot⟩

/-- The frame of a superclass holds a class. -/
theorem Situated.getAt?_super (h : m.Situated visits depths shapes) {depth : Nat}
    (hkind : (shapes.map Shape.kind)[depth]? = some .super) :
    ∃ id, m.store.getAt? m.chain depth "super" = some (.class id) := by
  obtain ⟨frame, hframe, hframeKind⟩ := h.frame_at hkind
  obtain ⟨id, hslot⟩ := h.store.super hframeKind
  exact ⟨id, Store.getAt?_of_slot hframe hslot⟩

/-- Where a program may say `this`, it finds an instance, in a frame of `this`. -/
theorem Situated.this (hcovers : Covers visits depths) {ref : Ref} {r : Resolver}
    (hv : visits ⟨.expr (.this ref), r⟩) (h : m.Situated visits depths r.shapes) :
    ∃ depth id, m.depths[ref.id]? = some depth ∧ (r.shapes.map Shape.kind)[depth]? = some .this ∧
      m.store.getAt? m.chain depth ref.mark.lexeme = some (.instance id) := by
  have hsound := hcovers.sound hv
  have hname : ref.mark.lexeme = "this" := hsound.proper
  obtain ⟨depth, hdepth, hkind⟩ := depth?_this hsound.placed.regular
    (hsound.placed.role ▸ hsound.role_of_this)
  obtain ⟨id, hget⟩ := h.getAt?_this hkind
  refine ⟨depth, id, ?_, hkind, hname ▸ hget⟩
  rw [h.known, hsound.recorded_before rfl rfl, hname]
  exact hdepth

/-- Where a program may say `super`, it finds a class, and right inside of it an instance. -/
theorem Situated.super (hcovers : Covers visits depths) {ref : Ref} {method : Mark} {r : Resolver}
    (hv : visits ⟨.expr (.super ref method), r⟩) (h : m.Situated visits depths r.shapes) :
    ∃ depth parent receiver, m.depths[ref.id]? = some (depth + 1) ∧
      (r.shapes.map Shape.kind)[depth]? = some .this ∧
      (r.shapes.map Shape.kind)[depth + 1]? = some .super ∧
      m.store.getAt? m.chain (depth + 1) "super" = some (.class parent) ∧
      m.store.getAt? m.chain depth "this" = some (.instance receiver) := by
  have hsound := hcovers.sound hv
  have hname : ref.mark.lexeme = "super" := hsound.proper
  obtain ⟨depth, hdepth, hthis, hsuper⟩ := depth?_super hsound.placed.regular
    (hsound.placed.role ▸ hsound.role_of_super)
  obtain ⟨parent, hparent⟩ := h.getAt?_super hsuper
  obtain ⟨receiver, hreceiver⟩ := h.getAt?_this hthis
  refine ⟨depth, parent, receiver, ?_, hthis, hsuper, hparent, hreceiver⟩
  rw [h.known, hsound.recorded_before rfl rfl, hname]
  exact hdepth

/-- What is wrong with a name that is not found is told about this name. -/
theorem lookUp_error {ref : Ref} {fault : Fault} (h : m.lookUp ref = .error fault) :
    fault = .undefinedVariable ref.mark.lexeme ∨ fault = .uninitializedVariable ref.mark.lexeme := by
  unfold lookUp at h
  dsimp only at h
  split at h
  · unfold Store.get at h
    split at h
    · cases h
      exact .inl rfl
    · cases h
      exact .inr rfl
    · cases h
  · split at h
    · cases h
      exact .inl rfl
    · cases h

/-- What a host finds wrong with a call is not the fault of binding. -/
theorem answer_clean {name : String} {arguments : List Value} {fault : Fault}
    (h : m.answer name arguments = .error fault) : ¬fault.Internal := by
  unfold answer at h
  split at h <;> cases h <;> exact id

/-- A name like others that is not found is not the fault of binding. -/
theorem lookUp_error_clean {ref : Ref} (hplain : ref.mark.Plain) {fault : Fault}
    (h : m.lookUp ref = .error fault) : ¬fault.Internal := by
  rcases lookUp_error h with rfl | rfl
  · exact fun hinternal => hinternal hplain
  · exact id

end Machine

end Lox
