import Lox.Proofs.Alignment.Watch
import Lox.Proofs.Dispatch.Lookup

namespace Lox

open Run

/-- The code of the occurrence is in a method of the class, and runs in frames in which the first `this`,
    at this depth, is the receiver; further out they are the frames that the method was made in. -/
structure Machine.RunsIn (m : Machine) (id depth classId : Nat) (definition : Closure) (receiver : Nat) :
    Prop where
  this : ∃ frame, m.store.FirstThis m.chain depth frame ∧
    m.store.slot? frame "this" = some (.set (.instance receiver))
  owns : ∃ name, m.store.Owns classId name definition
  code : id ∈ definition.code.ids
  frames : m.chain.drop (depth + 1) = definition.chain

/-- The class has the methods of these definitions, and its superclass is what the expression for it came
    to. -/
structure ClassRecord.MadeFrom (record : ClassRecord) (fuel : Nat) (superclass : Option Ref)
    (methods : List Definition) (m : Machine) : Prop where
  methods : ∀ name method, record.methods.find? name = some method →
    ∃ definition ∈ methods, definition.name.lexeme = name ∧ method.code = definition.code
  first : superclass = none → record.ancestors.head? = none
  below : ∀ ref, superclass = some ref → ∃ parent m', eval fuel (.name ref) m = .ok (.class parent) m' ∧
    record.ancestors.head? = some parent

/-- How methods are dispatched at a moment. `this` is the receiver in the frames in view. `super` starts
    from the superclass of the class that the code is in, finds the nearest definition from there upwards,
    and binds it to what `this` is. A property is the field, or else the nearest definition from the class
    of the instance upwards, bound to the instance. A class keeps the superclass that it was made with.
    And a function that is bound to a receiver runs in frames in which the first `this` is this receiver. -/
def Moment.Dispatches (m : Machine) : Moment → Prop
  | evaluating (.this ref) => ∃ depth classId definition receiver,
      m.depths[ref.id]? = some depth ∧ m.RunsIn ref.id depth classId definition receiver ∧
      ∀ fuel, eval (fuel + 1) (.this ref) m = .ok (.instance receiver) m
  | evaluating (.super ref method) => ∃ depth classId definition receiver record parent found,
      m.depths[ref.id]? = some (depth + 1) ∧ m.RunsIn ref.id depth classId definition receiver ∧
      m.store.classes[classId]? = some record ∧ record.ancestors.head? = some parent ∧
      m.store.Nearest method.lexeme parent found ∧
      ∀ fuel, m.Delivers receiver method found (eval (fuel + 1) (.super ref method) m)
  | evaluating (.get object name) => ∀ fuel receiver m',
      eval fuel object m = .ok (.instance receiver) m' →
      ∃ i, m'.store.instances[receiver]? = some i ∧
        (∀ value, i.fields.find? name.lexeme = some value →
          eval (fuel + 1) (.get object name) m = .ok value m') ∧
        (i.fields.find? name.lexeme = none → ∃ found, m'.store.Nearest name.lexeme i.classId found ∧
          m'.Delivers receiver name found (eval (fuel + 1) (.get object name) m))
  | executing (.class name superclass methods) => ∀ fuel id m',
      makeClass (eval fuel) name superclass methods m = .ok id m' →
      ∃ record, m'.store.classes[id]? = some record ∧ record.MadeFrom fuel superclass methods m
  | entering c _ => ∀ method receiver, m.store.Binds c method receiver →
      let made := m.store.newFrame .function (some ⟨.call c.code, c.chain⟩)
      ∃ frame, made.2.FirstThis (made.1 :: c.chain) 1 frame ∧
        made.2.slot? frame "this" = some (.set (.instance receiver))
  | _ => True

variable {visits : Visit → Prop} {depths : Std.TreeMap Nat Nat} {shapes : List Shape} {m : Machine}
  {r : Resolver}

theorem ScopeKind.eq_this_of_frame {kind : ScopeKind} (h : kind.frame = .this) : kind = .this := by
  cases kind <;> first | rfl | cases h

/-- The first scope of a `this` has the first frame of one. -/
theorem Machine.Situated.firstThis (h : m.Situated visits depths shapes) {depth : Nat}
    (hdepth : (shapes.map Shape.kind).findIdx? (· = .this) = some depth) :
    ∃ frame, m.store.FirstThis m.chain depth frame := by
  obtain ⟨frame, hframe, hframeKind⟩ := h.frame_at (getElem?_of_findIdx? hdepth)
  obtain ⟨hlt, _, hfirst⟩ := List.findIdx?_eq_some_iff_getElem.mp hdepth
  refine ⟨frame, hframe, hframeKind, fun {inner other} hinner hother hthis => ?_⟩
  obtain ⟨found, hfound, hfoundKind⟩ :=
    h.frame_at (List.getElem?_eq_getElem (Nat.lt_trans hinner hlt))
  obtain rfl := Option.some.inj (hfound.symm.trans hother)
  have hkind := ScopeKind.eq_this_of_frame (Option.some.inj (hfoundKind.symm.trans hthis))
  exact hfirst inner hinner (decide_eq_true hkind)

/-- Where a `this` is in view, the code is in a method of a class. -/
theorem Machine.Situated.runsIn (h : m.Situated visits depths shapes) {ids : List Nat} {id : Nat}
    (hwithin : m.Within ids) (hid : id ∈ ids) {depth frame : Nat}
    (hthis : m.store.FirstThis m.chain depth frame) :
    ∃ classId definition receiver, m.RunsIn id depth classId definition receiver ∧
      m.store.getAt? m.chain depth "this" = some (.instance receiver) := by
  obtain ⟨classId, name, definition, howns, hids, hframes⟩ := hwithin.houses.of_firstThis hthis
  obtain ⟨receiver, hslot⟩ := h.store.this hthis.kind
  exact ⟨classId, definition, receiver, ⟨⟨frame, hthis, hslot⟩, ⟨name, howns⟩, hids hid, hframes⟩,
    Store.getAt?_of_slot hthis.here hslot⟩

/-- The frame of `super` in which a method was made has the superclass of the class of the method. -/
theorem Machine.RunsIn.superclass {id depth classId receiver outer : Nat} {definition : Closure}
    (h : m.RunsIn id depth classId definition receiver) (hm : m.store.Rooted)
    (houter : m.chain[depth + 1]? = some outer) (hkind : m.store.kind? outer = some .super) :
    ∃ record parent above, m.store.classes[classId]? = some record ∧
      record.ancestors.head? = some parent ∧ m.store.classes[parent]? = some above ∧
      m.store.getAt? m.chain (depth + 1) "super" = some (.class parent) := by
  obtain ⟨name, record, hrecord, hfind⟩ := h.owns
  have hhead : definition.chain.head? = some outer := by rw [← h.frames, List.head?_drop, houter]
  cases hm.classes hrecord with
  | first _ hmethods =>
    obtain ⟨frame, kind, hframe, hframeKind, hother⟩ := hmethods hfind
    obtain rfl := Option.some.inj (hframe.symm.trans hhead)
    exact absurd (Option.some.inj (hframeKind.symm.trans hkind)) hother
  | @below parent above habove hancestors hmethods =>
    obtain ⟨frame, hframe, hslot⟩ := hmethods hfind
    obtain rfl := Option.some.inj (hframe.symm.trans hhead)
    exact ⟨record, parent, above, hrecord, by rw [hancestors]; rfl, habove,
      Store.getAt?_of_slot houter hslot⟩

/-- No statement stands right in the frame of a superclass. -/
theorem Machine.Situated.offSuper (h : m.Situated visits depths shapes)
    (hinnermost : (shapes.map Shape.kind).head? ≠ some .super) : m.store.OffSuper m.chain := by
  cases hshapes : shapes with
  | nil =>
    have hglobal : m.chain = .global := by simpa [hshapes, Store.Aligned] using h.aligned
    exact ⟨globalFrame, .global, by rw [hglobal]; rfl, h.store.global, by decide⟩
  | cons shape rest =>
    have hkind : (shapes.map Shape.kind).head? = some shape.kind := by simp [hshapes]
    obtain ⟨frame, hframe, hframeKind⟩ := h.aligned.head_kind hkind
    refine ⟨frame, _, List.head?_eq_getElem? ▸ hframe, hframeKind, fun hsuper => hinnermost ?_⟩
    rw [hkind]
    cases hk : shape.kind <;> simp [hk, ScopeKind.frame] at hsuper ⊢

/-- Where binding has been, everything that is needed for dispatch is in order. -/
theorem Moment.Expected.orderly (hcovers : Covers visits depths) {moment : Moment}
    (h : moment.Expected visits depths m) : moment.Orderly m := by
  cases moment with
  | evaluating e =>
    obtain ⟨⟨node, r⟩, hv, he, _⟩ := h
    have hproper := (hcovers.sound hv).proper
    cases node with
    | expr e' => exact Option.some.inj he ▸ hproper
    | superclass name parent => exact Option.some.inj he ▸ hproper
    | _ => cases he
  | executing s =>
    obtain ⟨r, hv, hm⟩ := h
    have hsound := hcovers.sound hv
    exact ⟨hsound.proper, hm.offSuper hsound.placed.innermost⟩
  | entering c arguments =>
    obtain ⟨role, r, hv, _⟩ := h.closure
    exact (hcovers.sound hv).proper

/-- A watch for what binding sees to. -/
def Watch.bound (visits : Visit → Prop) (depths : Std.TreeMap Nat Nat) : Watch :=
  ⟨fun moment m => moment.Expected visits depths m, .outOfFuel⟩

section Covered

variable (hcovers : Covers visits depths)
include hcovers

/-- Under this watch evaluation is the same, and what it brings along is tracked. -/
theorem Watch.bound_agrees (fuel : Nat) :
    EvalAgrees visits depths ((bound visits depths).eval fuel) (Lox.eval fuel) ∧
      ExecAgrees visits depths ((bound visits depths).exec fuel) (Lox.exec fuel) :=
  (bound visits depths).eval_exec_agrees hcovers (fun _ _ hmoment => hmoment) fuel

/-- A watch for what binding sees to is tracked by plain evaluation. -/
theorem Watch.bound_tracks (final : Store) (fuel : Nat) :
    EvalTracks final .outOfFuel ((bound visits depths).eval fuel) ((bound visits depths).eval fuel) ∧
      ExecTracks final .outOfFuel ((bound visits depths).exec fuel)
        ((bound visits depths).exec fuel) := by
  have horderly (moment : Moment) (m : Machine) (hmoment : (bound visits depths).condition moment m) :
      moment.Orderly m := Moment.Expected.orderly hcovers hmoment
  exact Watch.eval_exec_tracks horderly (fun _ _ hmoment _ _ => hmoment) fuel

variable {fuel : Nat}

/-- Evaluation gets on, to a value that is there, and leaves the machine where it was. -/
theorem Machine.Situated.eval_advances {e : Expr} {value : Value} {m' : Machine}
    (hv : visits ⟨.expr e, r⟩) (h : m.Situated visits depths r.shapes) (hwithin : m.Within e.ids)
    (hvalue : eval fuel e m = .ok value m') :
    m.Advances m' ∧ value.Live m'.store ∧ m'.Situated visits depths r.shapes := by
  have hagrees := (Watch.bound_agrees hcovers fuel).1.expr hv h
  have htracks := (Watch.bound_tracks hcovers m.store fuel).1 hwithin
  have hsame := hagrees.same.trans hvalue
  exact ⟨after_of_ok hsame ▸ htracks.advances, htracks.ok hsame, (hagrees.ok hvalue).2⟩

/-- The values of arguments are there, and what `this` and `super` stood for they still stand for.
    -/
theorem Machine.Situated.all_advances {es : List Expr} {values : List Value} {m' : Machine}
    (hv : visits ⟨.exprs es, r⟩) (h : m.Situated visits depths r.shapes)
    (hwithin : m.Within (Expr.idsAll es)) (hvalues : all (eval fuel) es m = .ok values m') :
    m.Advances m' ∧ (∀ value ∈ values, value.Live m'.store) ∧ m'.Situated visits depths r.shapes := by
  have hagrees := agrees_all hcovers (Watch.bound_agrees hcovers fuel).1 hv h
  have htracks := tracks_all (Watch.bound_tracks hcovers m.store fuel).1 hwithin
  have hsame := hagrees.same.trans hvalues
  exact ⟨after_of_ok hsame ▸ htracks.advances, htracks.ok hsame, (hagrees.ok hvalues).2⟩

/-- So does a call of a closure, however it ends. -/
theorem Enterable.call_advances {c : Closure} {arguments : List Value}
    (h : Enterable visits depths c arguments m) (hready : c.Ready arguments m.store) (fuel line : Nat) :
    m.Advances ((callClosure (exec fuel) c arguments line).after m) := by
  have hagrees := agrees_callClosure hcovers (Watch.bound_agrees hcovers fuel).2 line h
  obtain ⟨role, r, hv, -⟩ := h.closure
  have htracks := tracks_callClosure (Watch.bound_tracks hcovers m.store fuel).2 line
    (hcovers.sound hv).proper hready
  have hafter : (callClosure ((Watch.bound visits depths).exec fuel) c arguments line).after m =
      (callClosure (exec fuel) c arguments line).after m := by
    unfold after
    rw [hagrees.same]
  exact hafter ▸ htracks.advances

end Covered

section Covered

variable (hcovers : Covers visits depths)
include hcovers

/-- At an occurrence of `this` the receiver of the method is found that the code is in. -/
theorem Machine.Situated.dispatches_this {ref : Ref} (hv : visits ⟨.expr (.this ref), r⟩)
    (h : m.Situated visits depths r.shapes) (hwithin : m.Within [ref.id]) :
    (Moment.evaluating (.this ref)).Dispatches m := by
  have hsound := hcovers.sound hv
  have hname : ref.mark.lexeme = "this" := hsound.proper
  obtain ⟨depth, hdepth⟩ := ClassRole.exists_this (hsound.placed.role ▸ hsound.role_of_this)
  obtain ⟨frame, hthis⟩ := h.firstThis hdepth
  obtain ⟨classId, definition, receiver, hruns, hreceiver⟩ :=
    h.runsIn hwithin (List.mem_singleton_self _) hthis
  have hknown : m.depths[ref.id]? = some depth := by
    rw [h.known, hsound.recorded_before rfl rfl, hname, depth?_this_eq hsound.placed.regular, hdepth]
  refine ⟨depth, classId, definition, receiver, hknown, hruns, fun fuel => ?_⟩
  show Run.read ref m = _
  have hlookUp : m.lookUp ref = .ok (.instance receiver) := by
    simp [Machine.lookUp, hknown, hname, hreceiver]
  unfold Run.read
  rw [hlookUp]
  rfl

/-- At an occurrence of `super` the look-up starts right above the class that the code is in. -/
theorem Machine.Situated.dispatches_super {ref : Ref} {method : Mark}
    (hv : visits ⟨.expr (.super ref method), r⟩) (h : m.Situated visits depths r.shapes)
    (hwithin : m.Within [ref.id]) : (Moment.evaluating (.super ref method)).Dispatches m := by
  have hsound := hcovers.sound hv
  have hname : ref.mark.lexeme = "super" := hsound.proper
  obtain ⟨depth, hdepth, hsuper⟩ :=
    ClassRole.exists_super (hsound.placed.role ▸ hsound.role_of_super)
  obtain ⟨frame, hthis⟩ := h.firstThis hdepth
  obtain ⟨outer, houter, houterKind⟩ := h.frame_at (getElem?_of_findIdx? hsuper)
  obtain ⟨classId, definition, receiver, hruns, hreceiver⟩ :=
    h.runsIn hwithin (List.mem_singleton_self _) hthis
  obtain ⟨record, parent, above, hrecord, hparent, habove, hslot⟩ :=
    hruns.superclass hwithin.rooted houter houterKind
  have hknown : m.depths[ref.id]? = some (depth + 1) := by
    rw [h.known, hsound.recorded_before rfl rfl, hname, depth?_super_eq hsound.placed.regular, hsuper]
  refine ⟨depth, classId, definition, receiver, record, parent, _, hknown, hruns, hrecord, hparent,
    hwithin.rooted.nearest habove method.lexeme, fun fuel => ?_⟩
  exact superMethod_delivers (superTarget_eq hknown hslot hreceiver)

/-- At a property the look-up starts at the class of the object, and a method is bound to it. -/
theorem Machine.Situated.dispatches_get {object : Expr} {name : Mark}
    (hv : visits ⟨.expr (.get object name), r⟩) (h : m.Situated visits depths r.shapes)
    (hwithin : m.Within object.ids) : (Moment.evaluating (.get object name)).Dispatches m := by
  intro fuel receiver m' hobject
  have hpart : visits ⟨.expr object, r⟩ := hcovers.part hv (by simp [Visit.parts, Expr.parts])
  obtain ⟨hadvances, ⟨i, hi⟩, -⟩ := h.eval_advances hcovers hpart hwithin hobject
  have hget : eval (fuel + 1) (.get object name) m = property (.instance receiver) name m' := by
    show (eval fuel object >>= fun value => property value name) m = _
    rw [bind_apply, hobject]
  rw [hget]
  refine ⟨i, hi, fun value hfield => property_of_field hi hfield, fun hfield => ?_⟩
  obtain ⟨record, hrecord⟩ := hadvances.rooted.instances hi
  exact ⟨_, hadvances.rooted.nearest hrecord name.lexeme, property_delivers hi hfield⟩

end Covered

/-- A class that is made has the methods of its declaration, and stands right below its superclass.
    -/
theorem madeFrom_of_makeClass {fuel id : Nat} {name : Mark} {superclassRef : Option Ref}
    {methods : List Definition} {m' : Machine}
    (h : makeClass (eval fuel) name superclassRef methods m = .ok id m') :
    ∃ record, m'.store.classes[id]? = some record ∧ record.MadeFrom fuel superclassRef methods m := by
  cases superclassRef with
  | none =>
    rw [makeClass_none] at h
    obtain ⟨record, hrecord, hhead, hmethods⟩ := exists_of_makeBelow h
    exact ⟨record, hrecord, hmethods, fun _ => hhead, nofun⟩
  | some ref =>
    rw [makeClass_some] at h
    obtain ⟨parent, m₁, hparent, h⟩ := bind_eq_ok_iff.mp h
    obtain ⟨record, hrecord, hhead, hmethods⟩ := exists_of_makeBelow h
    refine ⟨record, hrecord, hmethods, nofun, fun ref' href => ?_⟩
    obtain rfl := Option.some.inj href
    exact ⟨parent, m₁, superclass_eq_ok_iff.mp hparent, hhead⟩

/-- To enter a closure dispatches nothing. -/
theorem dispatches_entering (c : Closure) (arguments : List Value) :
    (Moment.entering c arguments).Dispatches m := by
  rintro method receiver ⟨frame, rfl, hkind, hslot⟩
  have hsecures := Store.secures_newFrame m.store .function
    (some ⟨.call method.code, frame :: method.chain⟩)
  refine ⟨frame, ⟨rfl, hsecures.kinds hkind, fun {inner other} hinner hat hthis => ?_⟩,
    hsecures.implicit Store.not_isPlain_this hslot⟩
  obtain rfl : inner = 0 := by omega
  obtain rfl : m.store.frames.size = other := Option.some.inj hat
  rw [Store.kind?_newFrame, if_pos rfl] at hthis
  cases hthis

/-- Wherever binding has been, and with what a run brings along, methods are dispatched as they should. -/
theorem Moment.Expected.dispatches (hcovers : Covers visits depths) {moment : Moment}
    (h : moment.Expected visits depths m) (hprepared : moment.Prepared m) : moment.Dispatches m := by
  cases moment with
  | evaluating e =>
    obtain ⟨⟨node, r⟩, hv, he, hm⟩ := h
    cases node with
    | expr e' =>
      obtain rfl := Option.some.inj he
      cases e' with
      | this ref => exact hm.dispatches_this hcovers hv (hprepared.part (by simp [Expr.ids]))
      | super ref method => exact hm.dispatches_super hcovers hv (hprepared.part (by simp [Expr.ids]))
      | get object name => exact hm.dispatches_get hcovers hv (hprepared.part (by simp [Expr.ids]))
      | _ => trivial
    | superclass name parent =>
      obtain rfl := Option.some.inj he
      trivial
    | _ => cases he
  | executing s =>
    cases s with
    | «class» name superclassRef methods => exact fun _ _ _ hmade => madeFrom_of_makeClass hmade
    | _ => trivial
  | entering c arguments => exact dispatches_entering c arguments

end Lox
