import Lox.Proofs.Store.Heap

namespace Lox

/-- The store after has the value for the name in the frame, and is otherwise the store before. -/
structure Store.Gives (s s' : Store) (owner : Nat) (name : String) (value : Value) : Prop where
  given : s'.slot? owner name = some (.set value)
  slots : ∀ frame key, ¬ (frame = owner ∧ key = name) → s'.slot? frame key = s.slot? frame key
  kinds : ∀ frame, s'.kind? frame = s.kind? frame
  functions : s'.functions = s.functions
  classes : s'.classes = s.classes
  instances : s'.instances = s.instances

/-- A slot that is set in a frame with the name gives the variable its value and touches nothing
    else. -/
theorem Store.gives_setSlot {s : Store} {owner : Nat} {name : String} (hhas : s.Has owner name)
    (value : Value) : s.Gives (s.setSlot owner name (.set value)) owner name value where
  given := by simp [slot?_setSlot, kind?_isSome_of_has hhas]
  slots frame key hother := by
    rw [slot?_setSlot, if_neg]
    rintro ⟨rfl, rfl, _⟩
    exact hother ⟨rfl, rfl⟩
  kinds frame := kind?_setSlot ..
  functions := rfl
  classes := rfl
  instances := rfl

/-- A variable that gets a value leaves the names of every frame as they are. -/
theorem Store.Gives.has_iff {s s' : Store} {owner : Nat} {name : String} {value : Value}
    (hgives : s.Gives s' owner name value) (hhas : s.Has owner name) (frame : Nat) (key : String) :
    s'.Has frame key ↔ s.Has frame key := by
  by_cases hsame : frame = owner ∧ key = name
  · obtain ⟨rfl, rfl⟩ := hsame
    exact iff_of_true (by simp [Has, hgives.given]) hhas
  · unfold Has
    rw [hgives.slots frame key hsame]

namespace Heap

/-- Only the names that frames have decide which of them is the nearest. -/
theorem Nearest.with_store {h : Heap} {store : Store} {frame depth owner : Nat} {name : String}
    (hnames : ∀ frame, store.Has frame name ↔ h.store.Has frame name) :
    Nearest { h with store } frame name depth owner ↔ h.Nearest frame name depth owner := by
  have hup : ∀ frame d, up { h with store } frame d = h.up frame d := by
    intro frame d
    induction d generalizing frame with
    | zero => rfl
    | succ d ih =>
      simp only [up, ih]
      rfl
  constructor
  · rintro ⟨hlink, hhas, hleast⟩
    exact ⟨hup _ _ ▸ hlink, (hnames _).mp hhas,
      fun d hd other hother hhas => hleast d hd other (hup _ _ ▸ hother) ((hnames _).mpr hhas)⟩
  · rintro ⟨hlink, hhas, hleast⟩
    exact ⟨(hup _ _).symm ▸ hlink, (hnames _).mpr hhas,
      fun d hd other hother hhas => hleast d hd other (hup _ _ ▸ hother) ((hnames _).mp hhas)⟩

/-- A search reads the slot of the nearest frame with the name, and fails if there is no value yet.
    -/
theorem Linked.get_of_slot {h : Heap} (hlinked : h.Linked) {frame depth owner : Nat}
    {name : String} (hnearest : h.Nearest frame name depth owner) :
    h.store.get (h.chain frame) name =
      match h.store.slot? owner name with
      | none => .error (.undefinedVariable name)
      | some .unset => .error (.uninitializedVariable name)
      | some (.set value) => .ok value := by
  have howner := hlinked.owner?_eq_some_iff.mpr ⟨depth, hnearest⟩
  cases hslot : h.store.slot? owner name with
  | none => simp [Store.get, howner, hslot]
  | some slot => cases slot <;> simp [Store.get, howner, hslot]

/-- A look-up at a depth reads the slot of the frame so many links up, and takes a missing value for
    nil. -/
theorem Linked.getAt?_eq {h : Heap} (hlinked : h.Linked) (frame depth : Nat) (name : String) :
    h.store.getAt? (h.chain frame) depth name =
      (h.up frame depth).bind fun owner => (h.store.slot? owner name).map Slot.value := by
  rw [Store.getAt?, hlinked.ownerAt?_eq]
  cases h.up frame depth with
  | none => rfl
  | some owner => cases hslot : h.store.slot? owner name <;> simp [Option.filter, hslot]

/-- Every read but that of the variable itself is what it was before the assignment. -/
theorem Linked.get_eq_of_gives {h : Heap} (hlinked : h.Linked) {store : Store} {owner : Nat}
    {name : String} {value : Value} (hgives : h.store.Gives store owner name value)
    (hhas : h.store.Has owner name) (hstore : Linked { h with store }) {frame : Nat} {key : String}
    (hother : key = name → ∀ depth, ¬ h.Nearest frame name depth owner) :
    store.get (h.chain frame) key = h.store.get (h.chain frame) key := by
  have hnames := hgives.has_iff hhas
  cases howner : h.store.owner? (h.chain frame) key with
  | none =>
    have hnone : store.owner? (h.chain frame) key = none := by
      rw [hlinked.owner?_eq_none_iff] at howner
      rw [Store.owner?, List.find?_eq_none]
      intro found hmem
      obtain ⟨depth, hlink⟩ := List.getElem?_of_mem hmem
      rw [← hlinked.up_eq] at hlink
      exact fun hfound => howner depth found hlink ((hnames found key).mp hfound)
    rw [Store.get, Store.get, howner, hnone]
    rfl
  | some found =>
    obtain ⟨depth, hnearest⟩ := hlinked.owner?_eq_some_iff.mp howner
    have hnearest' := (Nearest.with_store (fun frame => hnames frame key)).mpr hnearest
    have hslot : store.slot? found key = h.store.slot? found key := by
      apply hgives.slots
      rintro ⟨rfl, rfl⟩
      exact hother rfl depth hnearest
    have hget := hstore.get_of_slot hnearest'
    rw [hlinked.get_of_slot hnearest, ← hslot]
    exact hget

/-- A name that no frame around has: both accesses by search fail, and nothing changes. -/
structure Unfound (h : Heap) (frame : Nat) (name : String) : Prop where
  unbound : ∀ depth owner, h.up frame depth = some owner → ¬ h.store.Has owner name
  get : h.store.get (h.chain frame) name = .error (.undefinedVariable name)
  assign : ∀ value,
    h.store.assign (h.chain frame) name value = .error (.undefinedVariable name)
  kept : ∀ value, h.step (.assign frame name value) = h

/-- The assignment of a value by search is the assignment at the depth of the nearest frame. It
    gives the value to the name there, for all that have the nearest frame with the name there, and
    for no others. -/
structure Assigned (h : Heap) (frame : Nat) (name : String) (depth owner : Nat) (value : Value)
    (store : Store) : Prop where
  search : h.store.assign (h.chain frame) name value = .ok store
  direct : h.store.assignAt? (h.chain frame) depth name value = some store
  step : h.step (.assign frame name value) = { h with store }
  gives : h.store.Gives store owner name value
  seen : ∀ reader d, h.Nearest reader name d owner →
    store.get (h.chain reader) name = .ok value ∧
      store.getAt? (h.chain reader) d name = some value
  unseen : ∀ reader key, (key = name → ∀ d, ¬ h.Nearest reader name d owner) →
    store.get (h.chain reader) key = h.store.get (h.chain reader) key

/-- A name whose nearest frame is so many links up, in the heap that a history leads to. -/
structure Found (steps : List Step) (frame : Nat) (name : String) (depth owner : Nat) : Prop where
  nearest : (run steps).Nearest frame name depth owner
  uninitialized :
    (run steps).store.get ((run steps).chain frame) name = .error (.uninitializedVariable name) ↔
      LastWritten steps owner name .unset
  initialized : ¬ LastWritten steps owner name .unset → ∃ value,
    LastWritten steps owner name (.set value) ∧
      (run steps).store.get ((run steps).chain frame) name = .ok value ∧
      (run steps).store.getAt? ((run steps).chain frame) depth name = some value
  assigned : ∀ value, ∃ store, (run steps).Assigned frame name depth owner value store

/-- What an access so many links up concerns: the frame there, if it has the name. -/
structure Direct (h : Heap) (frame depth : Nat) (name : String) : Prop where
  get : h.store.getAt? (h.chain frame) depth name =
    (h.up frame depth).bind fun owner => (h.store.slot? owner name).map Slot.value
  assign : ∀ owner, h.up frame depth = some owner → h.store.Has owner name → ∀ value, ∃ store,
    h.store.assignAt? (h.chain frame) depth name value = some store ∧
      h.step (.assignAt frame depth name value) = { h with store } ∧
      h.store.Gives store owner name value
  none : (∀ owner, h.up frame depth = some owner → ¬ h.store.Has owner name) →
    h.store.getAt? (h.chain frame) depth name = none ∧
      ∀ value, h.store.assignAt? (h.chain frame) depth name value = none ∧
        h.step (.assignAt frame depth name value) = h

/-- Without a frame that has the name every access by search fails, and so does every one at a
    depth. -/
theorem Linked.unfound {h : Heap} (hlinked : h.Linked) {frame : Nat} {name : String}
    (hnone : h.store.owner? (h.chain frame) name = none) : h.Unfound frame name := by
  have hassign : ∀ value,
      h.store.assign (h.chain frame) name value = .error (.undefinedVariable name) :=
    fun value => by rw [Store.assign, hnone]
  exact {
    unbound := hlinked.owner?_eq_none_iff.mp hnone
    get := by rw [Store.get, hnone, Option.bind_none]
    assign := hassign
    kept := fun value => by rw [Heap.step, hassign] }

/-- An assignment by search and one at the depth of the nearest frame come to the same. -/
theorem Linked.assigned {h : Heap} (hlinked : h.Linked) {frame depth owner : Nat} {name : String}
    (hnearest : h.Nearest frame name depth owner) (value : Value) :
    h.Assigned frame name depth owner value (h.store.setSlot owner name (.set value)) := by
  have hgives := Store.gives_setSlot hnearest.has value
  have hstore := hlinked.with_store (Store.size_setSlot h.store owner name (.set value))
  have hnames := hgives.has_iff hnearest.has
  exact {
    search := hlinked.store_assign hnearest value
    direct := hlinked.store_assignAt? hnearest.link hnearest.has value
    step := by rw [Heap.step, hlinked.store_assign hnearest value]
    gives := hgives
    seen := by
      intro reader d hreader
      have hreader' := (Nearest.with_store (fun frame => hnames frame name)).mpr hreader
      have hget := hstore.get_of_slot hreader'
      have hgetAt := hstore.getAt?_eq reader d name
      rw [hreader'.link] at hgetAt
      simp only [hgives.given, Option.bind_some, Option.map_some] at hget hgetAt
      exact ⟨hget, hgetAt⟩
    unseen := fun reader key hother =>
      hlinked.get_eq_of_gives hgives hnearest.has hstore hother }

/-- Once there is a nearest frame, all accesses by search are those at its depth. -/
theorem found_of_nearest {steps : List Step} {frame depth owner : Nat} {name : String}
    (hnearest : (run steps).Nearest frame name depth owner) :
    Found steps frame name depth owner := by
  have hlinked := linked_run steps
  have hget := hlinked.get_of_slot hnearest
  have hgetAt := hlinked.getAt?_eq frame depth name
  rw [hnearest.link, Option.bind_some] at hgetAt
  have hassigned := hlinked.assigned hnearest
  obtain ⟨slot, hslot⟩ := Option.isSome_iff_exists.mp hnearest.has
  rw [hslot] at hget hgetAt
  cases slot with
  | unset =>
    have hunset := slot?_run.mp hslot
    exact {
      nearest := hnearest
      uninitialized := iff_of_true hget hunset
      initialized := fun hnot => absurd hunset hnot
      assigned := fun value => ⟨_, hassigned value⟩ }
  | set value =>
    have hset := slot?_run.mp hslot
    refine {
      nearest := hnearest
      uninitialized := iff_of_false (by simp [hget]) fun hunset => ?_
      initialized := fun _ => ⟨value, hset, hget, hgetAt⟩
      assigned := fun value => ⟨_, hassigned value⟩ }
    rw [slot?_run.mpr hunset] at hslot
    cases hslot

/-- An access at a depth concerns the frame there and no other. -/
theorem Linked.direct {h : Heap} (hlinked : h.Linked) (frame depth : Nat) (name : String) :
    h.Direct frame depth name where
  get := hlinked.getAt?_eq frame depth name
  assign owner hlink hhas value :=
    have hassign := hlinked.store_assignAt? hlink hhas value
    ⟨_, hassign, by rw [Heap.step, hassign], Store.gives_setSlot hhas value⟩
  none hnone := by
    have howner : h.store.ownerAt? (h.chain frame) depth name = Option.none := by
      rw [Option.eq_none_iff_forall_ne_some]
      intro owner howner
      obtain ⟨hlink, hhas⟩ := Store.ownerAt?_eq_some_iff.mp howner
      exact hnone owner ((hlinked.up_eq _ _).trans hlink) hhas
    have hassign : ∀ value, h.store.assignAt? (h.chain frame) depth name value = Option.none :=
      fun value => by rw [Store.assignAt?, howner, Option.map_none]
    exact ⟨by rw [Store.getAt?, howner, Option.bind_none, Option.map_none],
      fun value => ⟨hassign value, by rw [Heap.step, hassign]⟩⟩

/-- Whatever a host has done to its frames, an access by search from any of them fails where no
    frame around has the name, and otherwise is the access by depth at the nearest that has it. It
    finds the name without a value just when the last that was done to it there was to declare it.
    An access by depth concerns the frame at that depth, whatever lies before it. -/
theorem search_meets_depth (steps : List Step) (frame : Nat) (name : String) :
    ((run steps).Unfound frame name ∨ ∃ depth owner, Found steps frame name depth owner) ∧
      ∀ depth, (run steps).Direct frame depth name := by
  have hlinked := linked_run steps
  refine ⟨?_, fun depth => hlinked.direct frame depth name⟩
  cases howner : (run steps).store.owner? ((run steps).chain frame) name with
  | none => exact .inl (hlinked.unfound howner)
  | some owner =>
    obtain ⟨depth, hnearest⟩ := hlinked.owner?_eq_some_iff.mp howner
    exact .inr ⟨depth, owner, found_of_nearest hnearest⟩

/-- An assignment behind a frame that hides the name is seen where nothing hides it. -/
example :
    let h := run [.root .global, .child .block 0, .child .block 0, .define 0 "a" (.bool true),
      .declare 1 "a", .assignAt 1 1 "a" .nil]
    h.store.get (h.chain 2) "a" = .ok .nil ∧
      h.store.get (h.chain 1) "a" = .error (.uninitializedVariable "a") := by
  decide

end Heap

end Lox
