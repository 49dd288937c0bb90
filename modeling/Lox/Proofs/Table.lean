import Lox.Table
import Mathlib.Data.List.Nodup

namespace Lox

namespace Table

variable {α β : Type}

/-- The same names with other values. -/
def map (g : α → β) (t : Table α) : Table β :=
  ⟨t.entries.map fun (name, value) => (name, g value)⟩

/-- A look-up in a changed table finds the changed value. -/
theorem find?_map (g : α → β) (t : Table α) (name : String) :
    (t.map g).find? name = (t.find? name).map g := by
  obtain ⟨entries⟩ := t
  change (entries.map fun (name, value) => (name, g value)).lookup name = (entries.lookup name).map g
  induction entries with
  | nil => rfl
  | cons entry rest ih =>
    rw [List.map_cons, List.lookup_cons, List.lookup_cons]
    cases name == entry.1 with
    | true => rfl
    | false => exact ih

theorem map_map {γ : Type} (g : α → β) (h : β → γ) (t : Table α) :
    (t.map g).map h = t.map fun value => h (g value) :=
  congrArg Table.mk (List.map_map)

/-- The induction behind `map_insert`, where the name may stand anywhere in the table. -/
theorem map_put (g : α → β) (name : String) (value : α) (entries : List (String × α)) :
    (put name value entries).map (fun (name, value) => (name, g value)) =
      put name (g value) (entries.map fun (name, value) => (name, g value)) := by
  induction entries with
  | nil => rfl
  | cons entry rest ih =>
    simp only [put, List.map_cons]
    split
    · rfl
    · rw [List.map_cons, ih]

theorem map_insert (g : α → β) (t : Table α) (name : String) (value : α) :
    (t.insert name value).map g = (t.map g).insert name (g value) :=
  congrArg Table.mk (map_put g name value t.entries)

/-- A change goes through the making of a table. -/
theorem map_ofList (g : α → β) (entries : List (String × α)) :
    (ofList entries).map g = ofList (entries.map fun (name, value) => (name, g value)) := by
  suffices h : ∀ t : Table α,
      (entries.foldl (fun t (name, value) => t.insert name value) t).map g =
        (entries.map fun (name, value) => (name, g value)).foldl
          (fun t (name, value) => t.insert name value) (t.map g) from h .empty
  induction entries with
  | nil => exact fun t => rfl
  | cons entry rest ih =>
    intro t
    simp only [List.map_cons, List.foldl_cons]
    rw [ih, map_insert]

/-- A change of values that leaves every one of the table alone leaves the table alone. -/
theorem map_eq_self {g : α → α} {t : Table α}
    (h : ∀ entry ∈ t.entries, g entry.2 = entry.2) : t.map g = t := by
  obtain ⟨entries⟩ := t
  have hentries : (entries.map fun (name, value) => (name, g value)) = entries.map id :=
    List.map_congr_left fun entry hentry => congrArg (entry.1, ·) (h entry hentry)
  rw [map, hentries, List.map_id]

/-- What is inserted into related tables under one name keeps them related. -/
theorem rel_insert {R : α → β → Prop} {t : Table α} {t' : Table β}
    (h : ∀ name, Option.Rel R (t.find? name) (t'.find? name)) (key : String) {a : α} {b : β} (hab : R a b)
    (name : String) : Option.Rel R ((t.insert key a).find? name) ((t'.insert key b).find? name) := by
  rw [find?_insert, find?_insert]
  split
  · exact .some hab
  · exact h name

/-- Insertion keeps the names of a table apart. -/
theorem nodup_insert {t : Table α} (h : t.names.Nodup) (name : String) (value : α) :
    (t.insert name value).names.Nodup := by
  rw [names_insert]
  split
  · exact h
  · rename_i hnew
    exact List.nodup_append_comm.mp (List.nodup_cons.mpr ⟨hnew, h⟩)

/-- Where the names are apart, look-ups find just the entries. -/
theorem mem_entries {t : Table α} (h : t.names.Nodup) {name : String} {value : α} :
    (name, value) ∈ t.entries ↔ t.find? name = some value := by
  obtain ⟨entries⟩ := t
  induction entries with
  | nil => simp [find?]
  | cons entry rest ih =>
    obtain ⟨first, old⟩ := entry
    obtain ⟨hfirst, hrest⟩ := List.nodup_cons.mp h
    have hfind : find? ⟨(first, old) :: rest⟩ name =
        if name = first then some old else find? ⟨rest⟩ name := by
      by_cases hname : name = first
      · simp [find?, hname]
      · simp [find?, hname, List.lookup_cons, beq_eq_false_iff_ne.mpr hname]
    rw [hfind, List.mem_cons, ih hrest]
    split
    · rename_i hname
      subst hname
      have hnone : find? ⟨rest⟩ name ≠ some value := fun hsome =>
        hfirst (List.mem_map.mpr ⟨_, (ih hrest).mpr hsome, rfl⟩)
      simp [hnone, eq_comm]
    · rename_i hname
      simp [hname]

end Table

end Lox
