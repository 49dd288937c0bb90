import Lox.Proofs.Renaming.Tree
import Lox.Proofs.Binding.Visit

namespace Lox

open Resolver

namespace Renaming

variable {ρ : Renaming} {renamed : Bool} {name other : String}

/-- The name that is not there: the new one, or the old one once it is renamed. -/
def absent (ρ : Renaming) (renamed : Bool) : String :=
  if renamed then ρ.old else ρ.new

theorem name_of_ne (h : name ≠ ρ.old) : ρ.name renamed name = name := by
  simp [Renaming.name, h]

/-- What becomes of a name leaves names apart, as long as it is not the new one. -/
theorem name_inj (hname : name ≠ ρ.new) (hother : other ≠ ρ.new) :
    ρ.name renamed name = ρ.name renamed other ↔ name = other := by
  unfold Renaming.name
  by_cases h : name = ρ.old <;> by_cases h' : other = ρ.old <;> cases renamed <;>
    simp_all [eq_comm]

/-- The name that a variable has somewhere is not the one that is absent there. -/
theorem name_ne_absent (hname : name ≠ ρ.new) : ρ.name renamed name ≠ ρ.absent renamed := by
  unfold Renaming.name absent
  have hne := ρ.ne
  by_cases h : name = ρ.old <;> cases renamed <;> simp_all [eq_comm]

/-- A name that is apart from both stays. -/
theorem name_of_apart (h : ρ.Apart renamed name) : ρ.name renamed name = name := by
  cases renamed with
  | false => exact ρ.name_false name
  | true => exact name_of_ne (h rfl).1

theorem mark_of_apart {mark : Mark} (h : ρ.Apart renamed mark.lexeme) : ρ.mark renamed mark = mark := by
  rw [Renaming.mark, name_of_apart h]

theorem free_of_apart (h : ρ.Apart renamed name) : ρ.Free renamed name :=
  fun hrenamed => (h hrenamed).2

theorem ref_of_apart {marks : List Bool} {ref : Ref} (h : ρ.Apart (ρ.isRenamed marks ref) ref.mark.lexeme) :
    ρ.ref marks ref = ref := by
  rw [Renaming.ref, mark_of_apart h]

/-- A name of the language's own is neither the old nor the new one. -/
theorem apart_own (h : ¬IsPlain name) : ρ.Apart renamed name :=
  fun _ => ⟨fun hold => h (hold ▸ ρ.old_plain), fun hnew => h (hnew ▸ ρ.new_plain)⟩

/-- In another scope a name becomes the same, or what is not there. -/
theorem name_cases (renamed other : Bool) (name : String) :
    ρ.name other name = ρ.name renamed name ∨ ρ.name other name = ρ.absent renamed := by
  unfold Renaming.name absent
  by_cases h : name = ρ.old <;> cases renamed <;> cases other <;> simp [h]

end Renaming

/-- A scope without the new name, and that scope with the old name changed if it is renamed. -/
structure Scope.Alike (ρ : Renaming) (renamed : Bool) (s s' : Scope) : Prop where
  find : ∀ {name}, name ≠ ρ.new → s'.locals.find? (ρ.name renamed name) = s.locals.find? name
  absent : s'.locals.find? (ρ.absent renamed) = none

/-- Scope by scope, by which of them are renamed. -/
inductive Scope.AllAlike (ρ : Renaming) : List Bool → List Scope → List Scope → Prop
  | nil : AllAlike ρ [] [] []
  | cons {renamed marks s s' scopes scopes'} (h : s.Alike ρ renamed s')
    (hrest : AllAlike ρ marks scopes scopes') :
    AllAlike ρ (renamed :: marks) (s :: scopes) (s' :: scopes')

namespace Scope

variable {ρ : Renaming} {renamed : Bool} {marks : List Bool} {s s' : Scope} {scopes scopes' : List Scope}
  {name : String}

theorem alike_opened (opening opening' : Opening) :
    (opened opening).Alike ρ renamed (opened opening') :=
  ⟨fun _ => rfl, rfl⟩

/-- A name may be inserted on both sides, as it is called there. -/
theorem Alike.insert (h : s.Alike ρ renamed s') (hname : name ≠ ρ.new) (l : Local) :
    Alike ρ renamed { s with locals := s.locals.insert name l }
      { s' with locals := s'.locals.insert (ρ.name renamed name) l } := by
  refine ⟨fun {other} hother => ?_, ?_⟩
  · simp only [Table.find?_insert, Renaming.name_inj hother hname, h.find hother]
  · rw [Table.find?_insert_of_ne _ _ (Renaming.name_ne_absent hname).symm]
    exact h.absent

/-- What is known about a name may be changed on both sides. -/
theorem Alike.update (h : s.Alike ρ renamed s') (hname : name ≠ ρ.new) (change : Local → Local) :
    (s.update name change).Alike ρ renamed (s'.update (ρ.name renamed name) change) := by
  unfold Scope.update
  rw [h.find hname]
  cases s.locals.find? name with
  | none => exact h
  | some l => exact h.insert hname (change l)

/-- A scope has a name if the other one has it as it is called there. -/
theorem Alike.contains (h : s.Alike ρ renamed s') (hname : name ≠ ρ.new) :
    s'.locals.contains (ρ.name renamed name) = s.locals.contains name := by
  unfold Table.contains
  rw [h.find hname]

/-- What a scope does not have it does not have either as what becomes of it in another scope. -/
theorem Alike.find?_eq_none (h : s.Alike ρ renamed s') (hname : name ≠ ρ.new)
    (hnone : s.locals.find? name = none) (other : Bool) : s'.locals.find? (ρ.name other name) = none := by
  rcases Renaming.name_cases renamed other name with hsame | habsent
  · rw [hsame, h.find hname, hnone]
  · rw [habsent, h.absent]

/-- A read may be noted on both sides, so many scopes out. -/
theorem AllAlike.modify_update (h : AllAlike ρ marks scopes scopes') (hname : name ≠ ρ.new)
    (change : Local → Local) (depth : Nat) :
    AllAlike ρ marks (scopes.modify depth fun s => s.update name change)
      (scopes'.modify depth fun s => s.update (ρ.name (marks.getD depth false) name) change) := by
  induction h generalizing depth with
  | nil => cases depth <;> exact .nil
  | cons h hrest ih =>
    cases depth with
    | zero => exact .cons (h.update hname change) hrest
    | succ depth => exact .cons h (ih depth)

end Scope

namespace Renaming

variable {ρ : Renaming} {marks : List Bool} {scopes scopes' : List Scope} {ref : Ref}

theorem isRenamed_of_none (h : ρ.depths[ref.id]? = none) : ρ.isRenamed marks ref = false := by
  unfold isRenamed
  rw [h]

/-- An occurrence is renamed if its variable is so in the scope at its depth. -/
theorem isRenamed_of_some {depth : Nat} (h : ρ.depths[ref.id]? = some depth) :
    ρ.isRenamed marks ref = marks.getD depth false := by
  unfold isRenamed
  rw [h]

/-- An occurrence that is decided so is renamed if the scope at the depth has its variable renamed.
    -/
theorem isRenamed_of_depth? {ref : Ref} {depth : Option Nat} (h : ρ.depths[ref.id]? = depth) :
    ρ.isRenamed marks ref = (depth.map fun d => marks.getD d false).getD false := by
  unfold isRenamed
  rw [h]
  cases depth <;> rfl

/-- A name is in the first scope, or one further out than in the others. -/
private theorem depth?_cons (scope : Scope) (scopes : List Scope) (name : String) :
    depth? (scope :: scopes) name =
      if scope.locals.contains name then some 0 else (depth? scopes name).map (· + 1) := by
  simp [depth?, List.findIdx?_cons]

/-- A name is as far out as what becomes of it in its scope. -/
theorem depth?_name (h : Scope.AllAlike ρ marks scopes scopes') {name : String} (hname : name ≠ ρ.new) :
    depth? scopes' (ρ.name (((depth? scopes name).map fun d => marks.getD d false).getD false) name) =
      depth? scopes name := by
  induction h with
  | nil => rfl
  | @cons renamed marks s s' scopes scopes' h hrest ih =>
    rw [depth?_cons, depth?_cons]
    by_cases hcontains : s.locals.contains name
    · rw [if_pos hcontains]
      exact if_pos ((h.contains hname).trans hcontains)
    · have hnone : s.locals.find? name = none := by simpa [Table.contains] using hcontains
      have hfurther (other : Bool) : s'.locals.contains (ρ.name other name) = false := by
        unfold Table.contains
        rw [h.find?_eq_none hname hnone]
        rfl
      rw [if_neg hcontains, if_neg (by simp [hfurther]), Option.map_map]
      exact congrArg (Option.map (· + 1)) ih

/-- An occurrence is found at the same depth by the name that its variable has there. -/
theorem depth?_ref (h : Scope.AllAlike ρ marks scopes scopes') (hname : ref.mark.lexeme ≠ ρ.new)
    (hdepth : ρ.depths[ref.id]? = depth? scopes ref.mark.lexeme) :
    depth? scopes' (ρ.ref marks ref).mark.lexeme = depth? scopes ref.mark.lexeme := by
  have hlexeme : (ρ.ref marks ref).mark.lexeme = ρ.name (ρ.isRenamed marks ref) ref.mark.lexeme := rfl
  rw [hlexeme, isRenamed_of_depth? hdepth, depth?_name h hname]

end Renaming

end Lox
