import Lox.Machine
import Lox.Proofs.Binding.Walk

namespace Lox

namespace Machine

variable {m : Machine} {resolutions : List Resolution} {id : Nat}

/-- A decision is known from then on; one for a global changes nothing. -/
theorem depths_note_single (m : Machine) (r : Resolution) (id : Nat) :
    (m.note [r]).depths[id]? = if r.id = id then r.depth <|> m.depths[id]? else m.depths[id]? := by
  unfold note
  cases hdepth : r.depth with
  | none => simp [hdepth]
  | some depth => simp [hdepth, Std.TreeMap.getElem?_insert]

/-- Nothing is noted where every decision is for a global. -/
theorem depths_note_of_none (h : ∀ r ∈ resolutions, r.id = id → r.depth = none) :
    (m.note resolutions).depths[id]? = m.depths[id]? := by
  induction resolutions generalizing m with
  | nil => rfl
  | cons r rest ih =>
    obtain ⟨hfirst, hrest⟩ := List.forall_mem_cons.mp h
    have hlater : (m.note (r :: rest)).depths[id]? = (m.note [r]).depths[id]? :=
      ih (m := m.note [r]) hrest
    rw [hlater, depths_note_single]
    split
    · rename_i hid
      rw [hfirst hid]
      rfl
    · rfl

/-- Nothing is noted about occurrences that were not decided. -/
theorem depths_note_of_not_mem (h : id ∉ resolutions.map Resolution.id) :
    (m.note resolutions).depths[id]? = m.depths[id]? :=
  depths_note_of_none fun _ hr hid => absurd (hid ▸ List.mem_map_of_mem hr) h

/-- What has been decided for occurrences with numbers of their own is known afterwards. -/
theorem depths_note (hnodup : (resolutions.map Resolution.id).Nodup) {r : Resolution}
    (hr : r ∈ resolutions) :
    (m.note resolutions).depths[r.id]? = (r.depth <|> m.depths[r.id]?) := by
  induction resolutions generalizing m with
  | nil => cases hr
  | cons first rest ih =>
    obtain ⟨hfirst, hnodup⟩ := List.nodup_cons.mp hnodup
    rcases List.mem_cons.mp hr with rfl | hrest
    · have hlast : (m.note (r :: rest)).depths[r.id]? = (m.note [r]).depths[r.id]? :=
        depths_note_of_not_mem (m := m.note [r]) hfirst
      rw [hlast, depths_note_single, if_pos rfl]
    · have hother : first.id ≠ r.id := fun hsame => hfirst (hsame ▸ List.mem_map_of_mem hrest)
      have hlater := ih (m := m.note [first]) hnodup hrest
      rwa [depths_note_single, if_neg hother] at hlater

end Machine

/-- What binding decides about a program is about the occurrences in it, each one at most once. -/
theorem resolve_ids (program : List Stmt) :
    ((resolve program).resolutions.map Resolution.id).Sublist (Stmt.idsAll program) := by
  obtain ⟨added, hadded, hids⟩ := (Stmt.resolveAll_onward program .start).resolutions
  have hall : (resolve program).resolutions = added :=
    (congrArg List.reverse hadded).trans (by simp [Resolver.start])
  exact hall ▸ hids

end Lox
