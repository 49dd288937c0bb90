import Mathlib.Data.List.Forall2
import Lox.Evaluation.Basic
import Lox.Proofs.Alignment.Store
import Lox.Proofs.Store.Related

namespace Lox

/-- How a store is folded into one without the frames of rounds: for each of its frames the number
    there, or nothing for the frame of a round. -/
abbrev Folding := List (Option Nat)

namespace Folding

variable {F F' : Folding} {marks : List Bool} {chain chain' : Chain} {frame frame' depth : Nat}

/-- The frame is on both sides, on the second under the other number. -/
def Keeps (F : Folding) (frame frame' : Nat) : Prop :=
  F[frame]? = some (some frame')

/-- The frame is one of a round and is on one side only. -/
def Drops (F : Folding) (frame : Nat) : Prop :=
  F[frame]? = some none

/-- What has become of a frame is settled when it is made. -/
theorem getElem?_mono (h : F <+: F') {place : Option Nat} (hframe : F[frame]? = some place) :
    F'[frame]? = some place := by
  obtain ⟨hlt, rfl⟩ := List.getElem?_eq_some_iff.mp hframe
  exact List.prefix_iff_getElem?.mp h frame hlt

/-- What stands in a folding with one frame more stood there before, or is that of the last frame. -/
theorem getElem?_concat_cases {last place : Option Nat} (h : (F ++ [last])[frame]? = some place) :
    frame < F.length ∧ F[frame]? = some place ∨ frame = F.length ∧ place = last := by
  rcases Nat.lt_trichotomy frame F.length with hlt | rfl | hgt
  · rw [List.getElem?_append_left hlt] at h
    exact .inl ⟨hlt, h⟩
  · rw [List.getElem?_concat_length] at h
    exact .inr ⟨rfl, (Option.some.inj h).symm⟩
  · obtain ⟨hlt, -⟩ := List.getElem?_eq_some_iff.mp h
    rw [List.length_append, List.length_singleton] at hlt
    omega

theorem Keeps.mono (hF : F <+: F') (h : F.Keeps frame frame') : F'.Keeps frame frame' :=
  getElem?_mono hF h

theorem Drops.mono (hF : F <+: F') (h : F.Drops frame) : F'.Drops frame :=
  getElem?_mono hF h

/-- Two chains from the frame in view out to the global one, of which the marked frames are those of
    rounds. Where the first chain has such a frame, the second has the frame around it once more. -/
inductive InLine (F : Folding) : List Bool → Chain → Chain → Prop where
  | global : F.Keeps globalFrame globalFrame → InLine F [] .global .global
  | frame {marks : List Bool} {frame frame' : Nat} {chain chain' : Chain} :
      F.Keeps frame frame' → InLine F marks chain chain' →
      InLine F (false :: marks) (frame :: chain) (frame' :: chain')
  | round {marks : List Bool} {frame frame' : Nat} {chain chain' : Chain} :
      F.Drops frame → InLine F marks chain (frame' :: chain') →
      InLine F (true :: marks) (frame :: chain) (frame' :: frame' :: chain')

/-- Chains that are in line stay so when frames are added. -/
theorem InLine.mono (hF : F <+: F') (h : F.InLine marks chain chain') :
    F'.InLine marks chain chain' := by
  induction h with
  | global hkept => exact .global (hkept.mono hF)
  | frame hkept _ ih => exact .frame (hkept.mono hF) ih
  | round hdropped _ ih => exact .round (hdropped.mono hF) ih

/-- Where there is no round, the second chain has what is left of the frame of the first. -/
theorem InLine.at (h : F.InLine marks chain chain') (hmark : marks.getD depth false = false) :
    Option.Rel F.Keeps chain[depth]? chain'[depth]? := by
  induction h generalizing depth with
  | global hkept =>
    cases depth with
    | zero => exact .some hkept
    | succ depth => exact .none
  | frame hkept _ ih =>
    cases depth with
    | zero => exact .some hkept
    | succ depth => exact ih hmark
  | round _ _ ih =>
    cases depth with
    | zero => cases hmark
    | succ depth => exact ih hmark

/-- The second chain has a frame in view, as the first has. -/
theorem InLine.head (h : F.InLine marks chain chain') :
    ∃ frame rest frame' rest', chain = frame :: rest ∧ chain' = frame' :: rest' ∧
      (marks.headD false = false → F.Keeps frame frame') := by
  cases h with
  | global hkept => exact ⟨_, _, _, _, rfl, rfl, fun _ => hkept⟩
  | frame hkept => exact ⟨_, _, _, _, rfl, rfl, fun _ => hkept⟩
  | round => exact ⟨_, _, _, _, rfl, rfl, nofun⟩

/-- There is but one chain in line with another. -/
theorem InLine.unique {chain'' : Chain} (h : F.InLine marks chain chain')
    (h' : F.InLine marks chain chain'') : chain'' = chain' := by
  induction h generalizing chain'' with
  | global =>
    cases h'
    rfl
  | frame hkept _ ih =>
    cases h' with
    | frame hkept' hrest' =>
      rw [ih hrest', Option.some.inj (Option.some.inj (hkept'.symm.trans hkept))]
  | round _ _ ih =>
    cases h' with
    | round _ hrest' =>
      cases ih hrest'
      rfl

/-- The scopes around a place in a program, of which those of rounds are marked: blocks without a
    name. -/
def Placed (marks : List Bool) (shapes : List Shape) : Prop :=
  List.Forall₂ (fun round shape => round = true → ∃ body, shape = .opened (.block body)) marks shapes

variable {shapes : List Shape} {shape : Shape} {name : String}

theorem Placed.cons (h : Placed marks shapes) (shape : Shape) :
    Placed (false :: marks) (shape :: shapes) :=
  List.Forall₂.cons nofun h

theorem Placed.round (h : Placed marks shapes) (body : List Stmt) :
    Placed (true :: marks) (.opened (.block body) :: shapes) :=
  List.Forall₂.cons (fun _ => ⟨body, rfl⟩) h

/-- Only the innermost scope changes while a walk goes on, and only if it is not that of a round. -/
theorem Placed.modifyHead (h : Placed marks shapes) (hmark : marks.headD false = false)
    (change : Shape → Shape) : Placed marks (shapes.modifyHead change) := by
  cases h with
  | nil => exact .nil
  | cons _ hrest =>
    obtain rfl := hmark
    exact Placed.cons hrest _

/-- A scope that is no plain block, or has a name, is not that of a round. -/
theorem Placed.unmarked (h : Placed marks shapes) (hshape : shapes[depth]? = some shape)
    (hother : ∀ body, shape ≠ .opened (.block body)) : marks.getD depth false = false := by
  induction h generalizing depth with
  | nil => cases hshape
  | @cons round first marks shapes hround _ ih =>
    cases depth with
    | zero =>
      obtain rfl := Option.some.inj hshape
      cases round with
      | false => rfl
      | true =>
        obtain ⟨body, hbody⟩ := hround rfl
        exact (hother body hbody).elim
    | succ depth => exact ih hshape

/-- A name is never found in the scope of a round. -/
theorem Placed.unmarked_depth (h : Placed marks shapes)
    (hdepth : Shape.depth? shapes name = some depth) : marks.getD depth false = false := by
  obtain ⟨hlt, hstatus, -⟩ := List.findIdx?_eq_some_iff_getElem.mp hdepth
  refine h.unmarked (List.getElem?_eq_getElem hlt) fun body hblock => ?_
  rw [hblock] at hstatus
  cases hstatus

/-- Only blocks are scopes of rounds. -/
theorem Placed.unmarked_kind (h : Placed marks shapes) {kind : ScopeKind}
    (hkind : (shapes.map Shape.kind)[depth]? = some kind) (hother : kind ≠ .block) :
    marks.getD depth false = false := by
  rw [List.getElem?_map] at hkind
  obtain ⟨shape, hshape, rfl⟩ := Option.map_eq_some_iff.mp hkind
  refine h.unmarked hshape fun body hblock => hother ?_
  rw [hblock]
  rfl

end Folding

namespace Store

variable {F F' : Folding} {s s' : Store} {marks : List Bool} {chain chain' : Chain}
  {frame frame' depth : Nat} {name : String}

/-- The frames of the second store are those of the first without the frames of rounds, in the same
    order, though they may have been made for other pieces of program. The frames of rounds are blocks,
    and have no name. -/
structure FoldsFrames (F : Folding) (s s' : Store) : Prop where
  size : F.length = s.frames.size
  order : F.filterMap id = List.range s'.frames.size
  global : F.Keeps globalFrame globalFrame
  kept : ∀ {frame frame'}, F.Keeps frame frame' →
    s'.frames[frame']?.map Frame.withoutBirth = s.frames[frame]?.map Frame.withoutBirth
  dropped : ∀ {frame}, F.Drops frame →
    s.frames[frame]?.map Frame.withoutBirth = some ⟨.block, .empty, none⟩

/-- A slot is found in a frame, whatever the frame was made for. -/
theorem slot?_eq_bind (s : Store) (frame : Nat) (name : String) :
    s.slot? frame name =
      (s.frames[frame]?.map Frame.withoutBirth).bind fun f => f.slots.find? name := by
  unfold slot?
  cases s.frames[frame]? <;> rfl

/-- The frames after a slot is set, whatever they were made for. -/
theorem withoutBirth_setSlot (s : Store) (frame other : Nat) (name : String) (slot : Slot) :
    (s.setSlot frame name slot).frames[other]?.map Frame.withoutBirth =
      (s.frames[other]?.map Frame.withoutBirth).map fun f =>
        if frame = other then { f with slots := f.slots.insert name slot } else f := by
  simp only [setSlot, Array.getElem?_modify]
  by_cases hsame : frame = other
  · cases s.frames[other]? <;> simp [hsame, Frame.withoutBirth]
  · cases s.frames[other]? <;> simp [hsame]

/-- Entries that are the same stand at the same place, if there is each of them once. -/
private theorem eq_of_nodup_filterMap {F : Folding} (h : (F.filterMap id).Nodup) {i j a : Nat}
    (hi : F[i]? = some (some a)) (hj : F[j]? = some (some a)) : i = j := by
  have hmem {F : Folding} {k : Nat} (hk : F[k]? = some (some a)) : a ∈ F.filterMap id :=
    List.mem_filterMap.mpr ⟨some a, List.mem_of_getElem? hk, rfl⟩
  induction F generalizing i j with
  | nil => cases hi
  | cons place rest ih =>
    have hrest : (rest.filterMap id).Nodup := by
      cases place with
      | none => exact h
      | some b => exact (List.nodup_cons.mp h).2
    cases i with
    | zero =>
      cases j with
      | zero => rfl
      | succ j =>
        obtain rfl := Option.some.inj hi
        exact ((List.nodup_cons.mp h).1 (hmem hj)).elim
    | succ i =>
      cases j with
      | zero =>
        obtain rfl := Option.some.inj hj
        exact ((List.nodup_cons.mp h).1 (hmem hi)).elim
      | succ j => rw [ih hrest hi hj]

namespace FoldsFrames

variable (h : s.FoldsFrames F s')
include h

theorem injective {first second : Nat} (hfirst : F.Keeps first frame')
    (hsecond : F.Keeps second frame') : first = second :=
  eq_of_nodup_filterMap (h.order ▸ List.nodup_range) hfirst hsecond

theorem slot? (hkept : F.Keeps frame frame') (name : String) :
    s'.slot? frame' name = s.slot? frame name := by
  rw [slot?_eq_bind, slot?_eq_bind, h.kept hkept]

theorem isSome_kind? (hkept : F.Keeps frame frame') : (s.kind? frame).isSome := by
  obtain ⟨hlt, -⟩ := List.getElem?_eq_some_iff.mp hkept
  rw [h.size] at hlt
  simp [kind?, Array.getElem?_eq_getElem hlt]

/-- At a depth that is not that of a round the same is found. -/
theorem getAt? (hline : F.InLine marks chain chain') (hmark : marks.getD depth false = false)
    (name : String) : s'.getAt? chain' depth name = s.getAt? chain depth name := by
  unfold Store.getAt? Store.ownerAt?
  have hframe := hline.at hmark
  generalize chain[depth]? = found at hframe
  generalize chain'[depth]? = found' at hframe
  cases hframe with
  | none => rfl
  | @some frame frame' hkept =>
    rw [Option.filter_some, Option.filter_some, h.slot? hkept name]
    split
    · exact congrArg _ (h.slot? hkept name)
    · rfl

/-- The owner at a depth is on both sides, since it is not the frame of a round. -/
theorem ownerAt? (hline : F.InLine marks chain chain') (hmark : marks.getD depth false = false)
    (name : String) :
    Option.Rel F.Keeps (s.ownerAt? chain depth name) (s'.ownerAt? chain' depth name) := by
  unfold Store.ownerAt?
  have hframe := hline.at hmark
  generalize chain[depth]? = found at hframe
  generalize chain'[depth]? = found' at hframe
  cases hframe with
  | none => exact .none
  | @some frame frame' hkept =>
    rw [Option.filter_some, Option.filter_some, h.slot? hkept name]
    split
    · exact .some hkept
    · exact .none

/-- The owner of a global name is on both sides. -/
theorem owner?_global (name : String) :
    Option.Rel F.Keeps (s.owner? .global name) (s'.owner? .global name) := by
  unfold Store.owner? Chain.global
  rw [List.find?_cons, List.find?_cons, h.slot? h.global name]
  cases (s.slot? globalFrame name).isSome with
  | true => exact .some h.global
  | false => exact .none

/-- A global name has the same value on both sides. -/
theorem get_global (name : String) : s'.get .global name = s.get .global name := by
  have howner := h.owner?_global name
  unfold Store.get
  generalize s.owner? .global name = owner at howner
  generalize s'.owner? .global name = owner' at howner
  cases howner with
  | none => rfl
  | some hkept => rw [Option.bind_some, Option.bind_some, h.slot? hkept name]

/-- A slot may be set in a frame that is on both sides. -/
theorem setSlot (hkept : F.Keeps frame frame') (name : String) (slot : Slot) :
    (s.setSlot frame name slot).FoldsFrames F (s'.setSlot frame' name slot) where
  size := by simp [Store.setSlot, h.size]
  order := by
    rw [h.order]
    simp [Store.setSlot]
  global := h.global
  kept {other other'} hother := by
    have hsame : frame' = other' ↔ frame = other := by
      constructor
      · rintro rfl
        exact h.injective hkept hother
      · rintro rfl
        exact Option.some.inj (Option.some.inj (hkept.symm.trans hother))
    simp only [withoutBirth_setSlot, h.kept hother, hsame]
  dropped {other} hother := by
    have hne : frame ≠ other := by
      rintro rfl
      cases hkept.symm.trans hother
    simp only [withoutBirth_setSlot, h.dropped hother, if_neg hne, Option.map_some]

/-- A frame that both stores get. -/
theorem newFrame (kind : FrameKind) (birth birth' : Option Birth) :
    (s.newFrame kind birth).2.FoldsFrames (F ++ [some s'.frames.size]) (s'.newFrame kind birth').2 where
  size := by simp [Store.newFrame, h.size]
  order := by
    rw [List.filterMap_append, h.order]
    simp [Store.newFrame, List.range_succ]
  global := h.global.mono (List.prefix_append _ _)
  kept {other other'} hother := by
    rw [frames_newFrame, frames_newFrame]
    rcases Folding.getElem?_concat_cases hother with ⟨hlt, hold⟩ | ⟨rfl, hlast⟩
    · have hmem : other' ∈ F.filterMap id :=
        List.mem_filterMap.mpr ⟨some other', List.mem_of_getElem? hold, rfl⟩
      rw [h.order, List.mem_range] at hmem
      rw [h.size] at hlt
      rw [if_neg (Nat.ne_of_lt hmem), if_neg (Nat.ne_of_lt hlt), h.kept hold]
    · obtain rfl := Option.some.inj hlast
      rw [if_pos rfl, if_pos h.size]
      rfl
  dropped {other} hother := by
    rw [frames_newFrame]
    rcases Folding.getElem?_concat_cases hother with ⟨hlt, hold⟩ | ⟨-, hlast⟩
    · rw [h.size] at hlt
      rw [if_neg (Nat.ne_of_lt hlt), h.dropped hold]
    · cases hlast

/-- A frame that is made on both sides is kept. -/
theorem keeps_newFrame (kind : FrameKind) (birth birth' : Option Birth) :
    (F ++ [some s'.frames.size]).Keeps (s.newFrame kind birth).1 (s'.newFrame kind birth').1 := by
  unfold Folding.Keeps
  show (F ++ [some s'.frames.size])[s.frames.size]? = some (some s'.frames.size)
  rw [← h.size, List.getElem?_concat_length]

/-- The frame of a round, which only the first store gets. -/
theorem newRound (birth : Option Birth) :
    (s.newFrame .block birth).2.FoldsFrames (F ++ [none]) s' where
  size := by simp [Store.newFrame, h.size]
  order := by
    rw [List.filterMap_append, h.order]
    simp
  global := h.global.mono (List.prefix_append _ _)
  kept {other other'} hother := by
    rw [frames_newFrame]
    rcases Folding.getElem?_concat_cases hother with ⟨hlt, hold⟩ | ⟨-, hlast⟩
    · rw [h.size] at hlt
      rw [if_neg (Nat.ne_of_lt hlt), h.kept hold]
    · cases hlast
  dropped {other} hother := by
    rw [frames_newFrame]
    rcases Folding.getElem?_concat_cases hother with ⟨hlt, hold⟩ | ⟨rfl, -⟩
    · rw [h.size] at hlt
      rw [if_neg (Nat.ne_of_lt hlt), h.dropped hold]
    · rw [if_pos h.size]
      rfl

/-- A frame of a round is dropped. -/
theorem drops_newRound (birth : Option Birth) : (F ++ [none]).Drops (s.newFrame .block birth).1 := by
  unfold Folding.Drops
  show (F ++ [none])[s.frames.size]? = some none
  rw [← h.size, List.getElem?_concat_length]

end FoldsFrames

end Store

end Lox
