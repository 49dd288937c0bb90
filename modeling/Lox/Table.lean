
namespace Lox

/-- A table from names to values, which keeps the order in which the names came in. A name stands in
    it once. -/
structure Table (α : Type) where
  entries : List (String × α)
deriving DecidableEq, Repr

namespace Table

variable {α : Type}

/-- The table without a name. -/
def empty : Table α :=
  ⟨[]⟩

/-- The value of a name, if the table has it. -/
def find? (t : Table α) (name : String) : Option α :=
  t.entries.lookup name

/-- The names of a table in their order. -/
def names (t : Table α) : List String :=
  t.entries.map (·.1)

/-- Whether a table has a name. -/
def contains (t : Table α) (name : String) : Bool :=
  (t.find? name).isSome

/-- Puts the value in the place of the name, or at the end if the name is new. -/
def put (name : String) (value : α) : List (String × α) → List (String × α)
  | [] => [(name, value)]
  | (other, old) :: rest =>
    if name = other then (name, value) :: rest else (other, old) :: put name value rest

/-- Gives a name a value. A name that is new comes last; one that is not keeps its place. -/
def insert (t : Table α) (name : String) (value : α) : Table α :=
  ⟨put name value t.entries⟩

/-- Of equal names the last value counts. -/
def ofList (entries : List (String × α)) : Table α :=
  entries.foldl (fun t (name, value) => t.insert name value) empty

@[simp] theorem find?_empty (name : String) : (empty : Table α).find? name = none := rfl

private theorem lookup_cons_of_ne {name other : String} (value : α) (rest : List (String × α))
    (h : name ≠ other) : ((other, value) :: rest).lookup name = rest.lookup name := by
  simp [List.lookup_cons, beq_eq_false_iff_ne.mpr h]

private theorem lookup_put (name other : String) (value : α) (entries : List (String × α)) :
    (put name value entries).lookup other =
      if other = name then some value else entries.lookup other := by
  induction entries with
  | nil =>
    by_cases h : other = name
    · simp [put, h]
    · simp [put, lookup_cons_of_ne value [] h, h]
  | cons entry rest ih =>
    obtain ⟨first, old⟩ := entry
    by_cases hf : name = first
    · subst hf
      by_cases h : other = name
      · simp [put, h]
      · simp [put, lookup_cons_of_ne _ rest h, h]
    · by_cases h : other = first
      · subst h
        simp [put, hf, Ne.symm hf]
      · simp [put, hf, lookup_cons_of_ne old _ h, ih]

theorem find?_insert (t : Table α) (name other : String) (value : α) :
    (t.insert name value).find? other = if other = name then some value else t.find? other :=
  lookup_put name other value t.entries

theorem find?_insert_of_ne (t : Table α) {name other : String} (value : α) (h : other ≠ name) :
    (t.insert name value).find? other = t.find? other := by
  simp [find?_insert, h]

/-- A name that is put in twice keeps its first place. -/
private theorem names_put (name : String) (value : α) (entries : List (String × α)) :
    (put name value entries).map (·.1) =
      if name ∈ entries.map (·.1) then entries.map (·.1) else entries.map (·.1) ++ [name] := by
  induction entries with
  | nil => simp [put]
  | cons entry rest ih =>
    obtain ⟨first, old⟩ := entry
    by_cases hf : name = first
    · simp [put, hf]
    · simp only [put, hf, if_false, List.map_cons, List.mem_cons, false_or, ih]
      split <;> simp

theorem names_insert (t : Table α) (name : String) (value : α) :
    (t.insert name value).names = if name ∈ t.names then t.names else t.names ++ [name] :=
  names_put name value t.entries

/-- The induction behind `mem_of_find?_ofList`: what is found was in the table before or is an
    entry. -/
private theorem mem_of_find?_foldl {entries : List (String × α)} {t : Table α} {name : String}
    {value : α}
    (h : (entries.foldl (fun t (name, value) => t.insert name value) t).find? name = some value) :
    (name, value) ∈ entries ∨ t.find? name = some value := by
  induction entries generalizing t with
  | nil => exact .inr h
  | cons entry rest ih =>
    obtain ⟨first, old⟩ := entry
    rcases ih h with hrest | hhead
    · exact .inl (List.mem_cons_of_mem _ hrest)
    · rw [find?_insert] at hhead
      split at hhead
      · rename_i hname
        obtain rfl := Option.some.inj hhead
        exact .inl (hname ▸ List.mem_cons_self)
      · exact .inr hhead

/-- What a table of entries has under a name is one of the entries. -/
theorem mem_of_find?_ofList {entries : List (String × α)} {name : String} {value : α}
    (h : (ofList entries).find? name = some value) : (name, value) ∈ entries := by
  rcases mem_of_find?_foldl h with hmem | hnone
  · exact hmem
  · cases hnone

end Table

end Lox
