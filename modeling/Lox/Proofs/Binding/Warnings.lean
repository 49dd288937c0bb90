import Lox.Binding.Scope
import Lox.Proofs.Table
import Mathlib.Data.List.Sort
import Mathlib.Data.String.Basic

namespace Lox

namespace Warning

/-- The strict order by line, and by name on one line. -/
def Before (a b : Warning) : Prop :=
  a.line < b.line ∨ a.line = b.line ∧ a.name < b.name

theorem le_iff {a b : Warning} : a.le b ↔ a.line < b.line ∨ a.line = b.line ∧ a.name ≤ b.name := by
  simp [le]

/-- Warnings in order that differ are in strict order. -/
theorem before_of_le {a b : Warning} (h : a.le b) (hne : a ≠ b) : a.Before b := by
  rcases le_iff.mp h with hline | ⟨hline, hname⟩
  · exact .inl hline
  · refine .inr ⟨hline, lt_of_le_of_ne hname fun hsame => hne ?_⟩
    rw [Warning.mk.injEq]
    exact ⟨hline, hsame⟩

instance : Std.Total fun a b : Warning => a.le b where
  total a b := by
    simp only [le_iff]
    rcases lt_trichotomy a.line b.line with hlt | heq | hgt
    · exact .inl (.inl hlt)
    · exact (le_total a.name b.name).imp (.inr ⟨heq, ·⟩) (.inr ⟨heq.symm, ·⟩)
    · exact .inr (.inl hgt)

instance : IsTrans Warning fun a b => a.le b where
  trans a b c hab hbc := by
    rw [le_iff] at hab hbc ⊢
    rcases hab with hab | ⟨hab, hnames⟩
    · rcases hbc with hbc | ⟨hbc, _⟩
      · exact .inl (hab.trans hbc)
      · exact .inl (hbc ▸ hab)
    · rcases hbc with hbc | ⟨hbc, hnames'⟩
      · exact .inl (hab ▸ hbc)
      · exact .inr ⟨hab.trans hbc, hnames.trans hnames'⟩

instance : Std.Antisymm fun a b : Warning => a.le b where
  antisymm a b hab hba := by
    rw [le_iff] at hab hba
    rw [Warning.mk.injEq]
    rcases hab with hab | ⟨hab, hnames⟩
    · exact absurd hba (by omega)
    · rcases hba with hba | ⟨_, hnames'⟩
      · exact absurd hba (by omega)
      · exact ⟨hab, le_antisymm hnames hnames'⟩

/-- To place a warning is to insert it in order. -/
theorem place_eq (w : Warning) (ws : List Warning) :
    w.place ws = ws.orderedInsert (fun a b => a.le b) w := by
  induction ws with
  | nil => rfl
  | cons first rest ih => simp [place, List.orderedInsert_cons, ih]

/-- Warnings are sorted by insertion. -/
theorem sort_eq (ws : List Warning) : sort ws = ws.insertionSort (fun a b => a.le b) := by
  induction ws with
  | nil => rfl
  | cons w rest ih =>
    rw [List.insertionSort_cons, ← ih, ← place_eq]
    rfl

theorem sort_perm (ws : List Warning) : (sort ws).Perm ws :=
  sort_eq ws ▸ List.perm_insertionSort _ ws

theorem pairwise_sort (ws : List Warning) : (sort ws).Pairwise fun a b => a.le b :=
  sort_eq ws ▸ List.pairwise_insertionSort _ ws

/-- Sorting forgets the order of before. -/
theorem sort_eq_of_perm {ws ws' : List Warning} (h : ws.Perm ws') : sort ws = sort ws' :=
  (((sort_perm ws).trans h).trans (sort_perm ws').symm).eq_of_pairwise' (pairwise_sort ws) (pairwise_sort ws')

end Warning

namespace Scope

variable {s : Scope}

/-- The same names in another order give the same warnings. -/
theorem warnings_eq_of_perm {entries : List (String × Local)} (h : entries.Perm s.locals.entries) :
    ({ s with locals := ⟨entries⟩ } : Scope).warnings = s.warnings :=
  Warning.sort_eq_of_perm ((h.filter _).map _)

/-- A scope warns of just those of its names that are declared and not read. -/
theorem mem_warnings (h : s.locals.names.Nodup) {w : Warning} :
    w ∈ s.warnings ↔ ∃ l, s.locals.find? w.name = some l ∧ l.isUnused ∧ l.line = w.line := by
  unfold warnings
  rw [(Warning.sort_perm _).mem_iff, List.mem_map]
  constructor
  · rintro ⟨⟨name, l⟩, hmem, rfl⟩
    obtain ⟨hentry, hunused⟩ := List.mem_filter.mp hmem
    exact ⟨l, (Table.mem_entries h).mp hentry, hunused, rfl⟩
  · rintro ⟨l, hfind, hunused, hline⟩
    exact ⟨(w.name, l), List.mem_filter.mpr ⟨(Table.mem_entries h).mpr hfind, hunused⟩,
      congrArg (Warning.mk · w.name) hline⟩

/-- No two warnings about a scope are the same, as they are about different names. -/
theorem nodup_warnings (h : s.locals.names.Nodup) : s.warnings.Nodup := by
  unfold warnings
  rw [(Warning.sort_perm _).nodup_iff]
  refine List.Nodup.of_map Warning.name ?_
  rw [List.map_map]
  exact h.sublist (List.filter_sublist.map Prod.fst)

theorem pairwise_warnings (h : s.locals.names.Nodup) : s.warnings.Pairwise Warning.Before :=
  ((Warning.pairwise_sort _).and (nodup_warnings h)).imp fun ⟨hle, hne⟩ => Warning.before_of_le hle hne

end Scope

end Lox
