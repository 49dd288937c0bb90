import Mathlib.Data.List.Induction
import Lox.Proofs.Store.Growth

namespace Lox

theorem Store.size_setSlot (s : Store) (frame : Nat) (name : String) (slot : Slot) :
    (s.setSlot frame name slot).frames.size = s.frames.size := by
  simp [Store.setSlot]

/-- Only a frame of the store has names. -/
theorem Store.kind?_isSome_of_has {s : Store} {owner : Nat} {name : String} (hhas : s.Has owner name) :
    (s.kind? owner).isSome := by
  unfold Store.Has Store.slot? at hhas
  cases hframe : s.frames[owner]? with
  | none => simp [hframe] at hhas
  | some f => simp [Store.kind?, hframe]

/-- The store of some frames, with the chain of each of them under its number. -/
structure Heap where
  store : Store
  chains : Array Chain

namespace Heap

/-- What a host does to frames. Assignments search for the name, or go outwards by a number of
    links. -/
inductive Step where
  | root (kind : FrameKind)
  | child (kind : FrameKind) (outer : Nat)
  | define (frame : Nat) (name : String) (value : Value)
  | declare (frame : Nat) (name : String)
  | assign (frame : Nat) (name : String) (value : Value)
  | assignAt (frame depth : Nat) (name : String) (value : Value)
deriving DecidableEq, Repr

/-- The heap before any step. -/
def empty : Heap :=
  ⟨.empty, #[]⟩

/-- No chain at all, where there is no such frame. -/
def chain (h : Heap) (frame : Nat) : Chain :=
  h.chains[frame]?.getD []

/-- A new frame, inside the frames of a chain. -/
def addFrame (h : Heap) (kind : FrameKind) (outer : Chain) : Heap where
  store := (h.store.newFrame kind).2
  chains := h.chains.push ((h.store.newFrame kind).1 :: outer)

/-- An assignment that does not succeed changes nothing. -/
def step (h : Heap) : Step → Heap
  | .root kind => h.addFrame kind []
  | .child kind outer => h.addFrame kind (h.chain outer)
  | .define frame name value => { h with store := h.store.define (h.chain frame) name value }
  | .declare frame name => { h with store := h.store.declare (h.chain frame) name }
  | .assign frame name value =>
    match h.store.assign (h.chain frame) name value with
    | .ok store => { h with store }
    | .error _ => h
  | .assignAt frame depth name value =>
    match h.store.assignAt? (h.chain frame) depth name value with
    | some store => { h with store }
    | none => h

/-- The heap that a history leads to. -/
def run (steps : List Step) : Heap :=
  steps.foldl step empty

theorem run_concat (steps : List Step) (last : Step) :
    run (steps ++ [last]) = (run steps).step last := by
  simp [run]

/-- The frame around a frame. -/
def enclosing? (h : Heap) (frame : Nat) : Option Nat :=
  (h.chain frame)[1]?

/-- The frame so many links up from a frame. -/
def up (h : Heap) (frame : Nat) : Nat → Option Nat
  | 0 => if frame < h.chains.size then some frame else none
  | depth + 1 => (h.enclosing? frame).bind fun outer => h.up outer depth

/-- Every frame has its own chain, which goes on as the chain of an older frame or ends there. -/
structure Linked (h : Heap) : Prop where
  size : h.chains.size = h.store.frames.size
  links : ∀ {frame : Nat} {chain}, h.chains[frame]? = some chain →
    ∃ outer, chain = frame :: outer ∧ (outer = [] ∨ ∃ i < frame, h.chains[i]? = some outer)

theorem linked_empty : empty.Linked where
  size := rfl
  links h := by simp [empty] at h

/-- Only new frames bring new chains. -/
theorem Linked.with_store {h : Heap} (hlinked : h.Linked) {store : Store}
    (hsize : store.frames.size = h.store.frames.size) : Linked { h with store } where
  size := hlinked.size.trans hsize.symm
  links := hlinked.links

/-- A frame that is made by itself or inside another one is linked to what is around it. -/
theorem Linked.addFrame {h : Heap} (hlinked : h.Linked) (kind : FrameKind) {outer : Chain}
    (houter : outer = [] ∨ ∃ i : Nat, h.chains[i]? = some outer) : (h.addFrame kind outer).Linked where
  size := by simp [Heap.addFrame, Store.newFrame, hlinked.size]
  links {frame chain} hchain := by
    -- a chain that was there stands where it stood
    have hkept : ∀ {i : Nat} {c : Chain}, h.chains[i]? = some c →
        i < h.chains.size ∧ (h.addFrame kind outer).chains[i]? = some c := by
      intro i c hi
      obtain ⟨hlt, _⟩ := Array.getElem?_eq_some_iff.mp hi
      exact ⟨hlt, by rw [Heap.addFrame, Array.getElem?_push_lt hlt, ← hi,
        Array.getElem?_eq_getElem hlt]⟩
    rw [Heap.addFrame, Array.getElem?_push] at hchain
    split at hchain
    · obtain rfl := Option.some.inj hchain
      rename_i hframe
      refine ⟨outer, by simp [Store.newFrame, hframe, hlinked.size], houter.imp_right ?_⟩
      rintro ⟨i, hi⟩
      exact ⟨i, hframe ▸ (hkept hi).1, (hkept hi).2⟩
    · obtain ⟨outer', rfl, hnil | ⟨i, hlt, hi⟩⟩ := hlinked.links hchain
      · exact ⟨outer', rfl, .inl hnil⟩
      · exact ⟨outer', rfl, .inr ⟨i, hlt, (hkept hi).2⟩⟩

/-- What stands under a number is the chain of a frame, or no chain at all. -/
theorem chain_eq_nil_or_mem (h : Heap) (frame : Nat) :
    h.chain frame = [] ∨ ∃ i : Nat, h.chains[i]? = some (h.chain frame) := by
  unfold chain
  cases hchain : h.chains[frame]? with
  | none => exact .inl rfl
  | some c => exact .inr ⟨frame, hchain⟩

/-- Every step keeps the links, whether it succeeds or not. -/
theorem Linked.step {h : Heap} (hlinked : h.Linked) (next : Step) : (h.step next).Linked := by
  cases next with
  | root kind => exact hlinked.addFrame kind (.inl rfl)
  | child kind outer => exact hlinked.addFrame kind (h.chain_eq_nil_or_mem outer)
  | define frame name value =>
    refine hlinked.with_store ?_
    unfold Store.define
    split
    · rfl
    · exact Store.size_setSlot ..
  | declare frame name =>
    refine hlinked.with_store ?_
    unfold Store.declare
    split
    · rfl
    · exact Store.size_setSlot ..
  | assign frame name value =>
    unfold Heap.step
    cases howner : h.store.owner? (h.chain frame) name with
    | none => simpa [Store.assign, howner] using hlinked
    | some owner => simpa [Store.assign, howner] using hlinked.with_store (Store.size_setSlot ..)
  | assignAt frame depth name value =>
    unfold Heap.step
    cases howner : h.store.ownerAt? (h.chain frame) depth name with
    | none => simpa [Store.assignAt?, howner] using hlinked
    | some owner => simpa [Store.assignAt?, howner] using hlinked.with_store (Store.size_setSlot ..)

/-- Every heap that a history leads to is linked. -/
theorem linked_run (steps : List Step) : (run steps).Linked := by
  induction steps using List.reverseRecOn with
  | nil => exact linked_empty
  | append_singleton steps last ih =>
    rw [run_concat]
    exact ih.step last

/-- Links lead along the chain. -/
theorem Linked.up_eq {h : Heap} (hlinked : h.Linked) (frame depth : Nat) :
    h.up frame depth = (h.chain frame)[depth]? := by
  induction depth generalizing frame with
  | zero =>
    unfold up chain
    cases hchain : h.chains[frame]? with
    | none => simpa using hchain
    | some c =>
      obtain ⟨outer, rfl, _⟩ := hlinked.links hchain
      obtain ⟨hlt, _⟩ := Array.getElem?_eq_some_iff.mp hchain
      simp [hlt]
  | succ depth ih =>
    simp only [up, enclosing?, ih]
    cases hchain : h.chains[frame]? with
    | none => simp [chain, hchain]
    | some c =>
      obtain ⟨outer, rfl, rfl | ⟨i, _, hi⟩⟩ := hlinked.links hchain
      · simp [chain, hchain]
      · obtain ⟨outer', rfl, _⟩ := hlinked.links hi
        simp [chain, hchain, hi]

/-- The frame so many links up has the name, and none before it has. -/
structure Nearest (h : Heap) (frame : Nat) (name : String) (depth owner : Nat) : Prop where
  link : h.up frame depth = some owner
  has : h.store.Has owner name
  least : ∀ d < depth, ∀ other, h.up frame d = some other → ¬ h.store.Has other name

/-- A search finds the nearest frame with the name, and finds none only if there is none. -/
theorem Linked.owner?_eq_some_iff {h : Heap} (hlinked : h.Linked) {frame owner : Nat}
    {name : String} :
    h.store.owner? (h.chain frame) name = some owner ↔ ∃ depth, h.Nearest frame name depth owner := by
  rw [Store.owner?, List.find?_eq_some_iff_getElem]
  constructor
  · rintro ⟨hhas, depth, hlt, howner, hleast⟩
    refine ⟨depth, by rw [hlinked.up_eq, List.getElem?_eq_getElem hlt, howner], hhas, ?_⟩
    intro d hd other hother
    rw [hlinked.up_eq, List.getElem?_eq_getElem (Nat.lt_trans hd hlt)] at hother
    obtain rfl := Option.some.inj hother
    simpa [Store.Has] using hleast d hd
  · rintro ⟨depth, hlink, hhas, hleast⟩
    rw [hlinked.up_eq] at hlink
    obtain ⟨hlt, howner⟩ := List.getElem?_eq_some_iff.mp hlink
    refine ⟨hhas, depth, hlt, howner, fun d hd => ?_⟩
    have hno := hleast d hd _ ((hlinked.up_eq _ _).trans (List.getElem?_eq_getElem (Nat.lt_trans hd hlt)))
    simpa [Store.Has] using hno

/-- A search finds nothing just when no frame on the way up has the name. -/
theorem Linked.owner?_eq_none_iff {h : Heap} (hlinked : h.Linked) {frame : Nat} {name : String} :
    h.store.owner? (h.chain frame) name = none ↔
      ∀ depth owner, h.up frame depth = some owner → ¬ h.store.Has owner name := by
  rw [Store.owner?, List.find?_eq_none]
  constructor
  · intro hno depth owner hlink
    rw [hlinked.up_eq] at hlink
    exact hno owner (List.mem_of_getElem? hlink)
  · intro hno owner hmem
    obtain ⟨depth, hlink⟩ := List.getElem?_of_mem hmem
    exact hno depth owner ((hlinked.up_eq _ _).trans hlink)

/-- What lies at a depth is the frame so many links up, if it has the name. -/
theorem Linked.ownerAt?_eq {h : Heap} (hlinked : h.Linked) (frame depth : Nat) (name : String) :
    h.store.ownerAt? (h.chain frame) depth name =
      (h.up frame depth).filter fun owner => (h.store.slot? owner name).isSome := by
  rw [Store.ownerAt?, hlinked.up_eq]

/-- The step puts something under the name in the frame: a value, or the lack of one. -/
inductive Writes (h : Heap) : Step → Nat → String → Slot → Prop
  | define {frame : Nat} {name : String} {value : Value} (hframe : frame < h.chains.size) :
    Writes h (.define frame name value) frame name (.set value)
  | declare {frame : Nat} {name : String} (hframe : frame < h.chains.size) :
    Writes h (.declare frame name) frame name .unset
  | assign {frame depth owner : Nat} {name : String} {value : Value}
    (hnearest : h.Nearest frame name depth owner) :
    Writes h (.assign frame name value) owner name (.set value)
  | assignAt {frame depth owner : Nat} {name : String} {value : Value}
    (hlink : h.up frame depth = some owner) (hhas : h.store.Has owner name) :
    Writes h (.assignAt frame depth name value) owner name (.set value)

/-- The last step of a history that writes to the name in the frame puts the slot there. -/
def LastWritten (steps : List Step) (owner : Nat) (name : String) (slot : Slot) : Prop :=
  ∃ before step after, steps = before ++ step :: after ∧
    (run before).Writes step owner name slot ∧
    ∀ between later rest, after = between ++ later :: rest →
      ∀ other, ¬ (run (before ++ step :: between)).Writes later owner name other

/-- The last write of a longer history is the one of its last step, or an earlier one that the last
    step does not cover. -/
theorem lastWritten_concat {steps : List Step} {last : Step} {owner : Nat} {name : String}
    {slot : Slot} :
    LastWritten (steps ++ [last]) owner name slot ↔
      (run steps).Writes last owner name slot ∨
        (LastWritten steps owner name slot ∧
          ∀ other, ¬ (run steps).Writes last owner name other) := by
  constructor
  · rintro ⟨before, step, after, hsteps, hwrites, hlast⟩
    -- Either the last write is the new step, or it was there before and the step writes nothing.
    rcases List.eq_nil_or_concat after with rfl | ⟨after, final, rfl⟩
    · obtain ⟨rfl, hstep⟩ := List.append_inj' hsteps rfl
      obtain rfl : last = step := by simpa using hstep
      exact .inl hwrites
    · rw [List.concat_eq_append, ← List.cons_append, ← List.append_assoc] at hsteps
      obtain ⟨rfl, hfinal⟩ := List.append_inj' hsteps rfl
      obtain rfl : last = final := by simpa using hfinal
      refine .inr ⟨⟨before, step, after, rfl, hwrites, ?_⟩, hlast after last [] (by simp)⟩
      rintro between later rest rfl
      exact hlast between later (rest ++ [last]) (by simp)
  · rintro (hwrites | ⟨⟨before, step, after, rfl, hwrites, hlast⟩, hnot⟩)
    · exact ⟨steps, last, [], rfl, hwrites, by simp⟩
    · refine ⟨before, step, after ++ [last], by simp, hwrites, ?_⟩
      intro between later rest hrest
      rcases List.eq_nil_or_concat rest with rfl | ⟨rest, final, rfl⟩
      · obtain ⟨rfl, hlater⟩ := List.append_inj' hrest rfl
        obtain rfl : last = later := by simpa using hlater
        exact hnot
      · rw [List.concat_eq_append, ← List.cons_append, ← List.append_assoc] at hrest
        exact hlast between later rest (List.append_inj' hrest rfl).1

/-- A frame with a number of the heap is in the store. -/
theorem Linked.kind?_isSome {h : Heap} (hlinked : h.Linked) {frame : Nat}
    (hframe : frame < h.chains.size) : (h.store.kind? frame).isSome := by
  rw [hlinked.size] at hframe
  simp [Store.kind?, hframe]

/-- A frame comes first in its own chain. -/
theorem Linked.chain_eq_cons {h : Heap} (hlinked : h.Linked) {frame : Nat}
    (hframe : frame < h.chains.size) : ∃ outer, h.chain frame = frame :: outer := by
  obtain ⟨outer, hchain, _⟩ := hlinked.links (Array.getElem?_eq_getElem hframe)
  exact ⟨outer, by rw [chain, Array.getElem?_eq_getElem hframe, Option.getD_some, hchain]⟩

theorem chain_of_size_le {h : Heap} {frame : Nat} (hframe : h.chains.size ≤ frame) :
    h.chain frame = [] := by
  simp [chain, Array.getElem?_eq_none hframe]

/-- An assignment by search goes to the nearest frame with the name. -/
theorem Linked.store_assign {h : Heap} (hlinked : h.Linked) {frame depth owner : Nat}
    {name : String} (hnearest : h.Nearest frame name depth owner) (value : Value) :
    h.store.assign (h.chain frame) name value =
      .ok (h.store.setSlot owner name (.set value)) := by
  simp [Store.assign, hlinked.owner?_eq_some_iff.mpr ⟨depth, hnearest⟩]

/-- An assignment at a depth goes to the frame so many links up. -/
theorem Linked.store_assignAt? {h : Heap} (hlinked : h.Linked) {frame depth owner : Nat}
    {name : String} (hlink : h.up frame depth = some owner) (hhas : h.store.Has owner name)
    (value : Value) :
    h.store.assignAt? (h.chain frame) depth name value =
      some (h.store.setSlot owner name (.set value)) := by
  have hsome : (h.store.slot? owner name).isSome := hhas
  simp [Store.assignAt?, hlinked.ownerAt?_eq, hlink, Option.filter, hsome]

/-- What a step writes is there after it. -/
theorem Linked.slot?_step_of_writes {h : Heap} (hlinked : h.Linked) {next : Step} {owner : Nat}
    {name : String} {slot : Slot} (hwrites : h.Writes next owner name slot) :
    (h.step next).store.slot? owner name = some slot := by
  cases hwrites with
  | define hframe | declare hframe =>
    obtain ⟨outer, hchain⟩ := hlinked.chain_eq_cons hframe
    simp [Heap.step, hchain, Store.define, Store.declare, Store.slot?_setSlot,
      hlinked.kind?_isSome hframe]
  | assign hnearest =>
    simp [Heap.step, hlinked.store_assign hnearest, Store.slot?_setSlot,
      Store.kind?_isSome_of_has hnearest.has]
  | assignAt hlink hhas =>
    simp [Heap.step, hlinked.store_assignAt? hlink hhas, Store.slot?_setSlot,
      Store.kind?_isSome_of_has hhas]

/-- What a step does not write stays as it was. -/
theorem Linked.slot?_step_of_not_writes {h : Heap} (hlinked : h.Linked) {next : Step} {owner : Nat}
    {name : String} (hnot : ∀ slot, ¬ h.Writes next owner name slot) :
    (h.step next).store.slot? owner name = h.store.slot? owner name := by
  -- a slot that is set elsewhere leaves this one as it was
  have helsewhere : ∀ {frame key slot}, (frame = owner → key = name → False) →
      (h.store.setSlot frame key slot).slot? owner name = h.store.slot? owner name := by
    intro frame key slot hno
    rw [Store.slot?_setSlot, if_neg]
    rintro ⟨hframe, hkey, _⟩
    exact hno hframe hkey.symm
  cases next with
  | root kind => exact Store.slot?_newFrame ..
  | child kind outer => exact Store.slot?_newFrame ..
  | define frame key value =>
    rcases Nat.lt_or_ge frame h.chains.size with hframe | hframe
    · obtain ⟨outer, hchain⟩ := hlinked.chain_eq_cons hframe
      rw [Heap.step, hchain]
      refine helsewhere ?_
      rintro rfl rfl
      exact hnot _ (.define hframe)
    · rw [Heap.step, chain_of_size_le hframe]
      rfl
  | declare frame key =>
    rcases Nat.lt_or_ge frame h.chains.size with hframe | hframe
    · obtain ⟨outer, hchain⟩ := hlinked.chain_eq_cons hframe
      rw [Heap.step, hchain]
      refine helsewhere ?_
      rintro rfl rfl
      exact hnot _ (.declare hframe)
    · rw [Heap.step, chain_of_size_le hframe]
      rfl
  | assign frame key value =>
    cases howner : h.store.owner? (h.chain frame) key with
    | none => simp [Heap.step, Store.assign, howner]
    | some found =>
      obtain ⟨depth, hnearest⟩ := hlinked.owner?_eq_some_iff.mp howner
      simp only [Heap.step, hlinked.store_assign hnearest]
      refine helsewhere ?_
      rintro rfl rfl
      exact hnot _ (.assign hnearest)
  | assignAt frame depth key value =>
    cases howner : h.store.ownerAt? (h.chain frame) depth key with
    | none => simp [Heap.step, Store.assignAt?, howner]
    | some found =>
      obtain ⟨hlink, hhas⟩ := Store.ownerAt?_eq_some_iff.mp howner
      rw [← hlinked.up_eq] at hlink
      simp only [Heap.step, hlinked.store_assignAt? hlink hhas]
      refine helsewhere ?_
      rintro rfl rfl
      exact hnot _ (.assignAt hlink hhas)

/-- A frame holds for a name what the history wrote there last. -/
theorem slot?_run {steps : List Step} {owner : Nat} {name : String} {slot : Slot} :
    (run steps).store.slot? owner name = some slot ↔ LastWritten steps owner name slot := by
  induction steps using List.reverseRecOn with
  | nil => simp [run, empty, Store.empty, Store.slot?, LastWritten]
  | append_singleton steps last ih =>
    have hlinked := linked_run steps
    rw [run_concat, lastWritten_concat]
    by_cases hwrites : ∃ written, (run steps).Writes last owner name written
    · obtain ⟨written, hwrites⟩ := hwrites
      rw [hlinked.slot?_step_of_writes hwrites]
      constructor
      · rintro ⟨⟩
        exact .inl hwrites
      · rintro (hslot | ⟨_, hnot⟩)
        · rw [← hlinked.slot?_step_of_writes hwrites, hlinked.slot?_step_of_writes hslot]
        · exact absurd hwrites (hnot _)
    · have hnot : ∀ slot, ¬ (run steps).Writes last owner name slot := not_exists.mp hwrites
      rw [hlinked.slot?_step_of_not_writes hnot, ih]
      exact ⟨fun hlast => .inr ⟨hlast, hnot⟩, fun h => (h.resolve_left (hnot _)).1⟩

end Heap

end Lox
