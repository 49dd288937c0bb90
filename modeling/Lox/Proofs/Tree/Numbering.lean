import Lox.Proofs.Tree.Form

namespace Lox

/-- These numbers are all different, and from `lo` up to but not including `hi`. -/
structure Fresh (lo hi : Nat) (ids : List Nat) : Prop where
  nodup : ids.Nodup
  bounds : ∀ id ∈ ids, lo ≤ id ∧ id < hi

namespace Fresh

variable {lo mid hi : Nat} {ids others : List Nat}

theorem nil : Fresh lo hi [] :=
  ⟨.nil, by simp⟩

theorem single {id : Nat} (hlo : lo ≤ id) (hhi : id < hi) : Fresh lo hi [id] :=
  ⟨by simp, by simpa using ⟨hlo, hhi⟩⟩

/-- Numbers that are fresh in a range are so in a wider one. -/
theorem mono {lo' hi' : Nat} (h : Fresh lo hi ids) (hlo : lo' ≤ lo) (hhi : hi ≤ hi') :
    Fresh lo' hi' ids where
  nodup := h.nodup
  bounds id hid := by
    have := h.bounds id hid
    omega

/-- Numbers that are fresh in two ranges, one behind the other, are fresh together. -/
theorem append (h : Fresh lo mid ids) (h' : Fresh mid hi others) (hlo : lo ≤ mid) (hhi : mid ≤ hi) :
    Fresh lo hi (ids ++ others) where
  nodup := by
    refine List.nodup_append.mpr ⟨h.nodup, h'.nodup, fun a ha b hb => ?_⟩
    have := (h.bounds a ha).2
    have := (h'.bounds b hb).1
    omega
  bounds id hid := by
    rcases List.mem_append.mp hid with hid | hid
    · have := h.bounds id hid
      omega
    · have := h'.bounds id hid
      omega

theorem perm (h : Fresh lo hi ids) (hperm : ids.Perm others) : Fresh lo hi others :=
  ⟨hperm.nodup_iff.mp h.nodup, fun id hid => h.bounds id (hperm.mem_iff.mpr hid)⟩

/-- What is numbered later may stand in front. -/
theorem prepend (h : Fresh lo mid ids) (h' : Fresh mid hi others) (hlo : lo ≤ mid) (hhi : mid ≤ hi) :
    Fresh lo hi (others ++ ids) :=
  (h.append h' hlo hhi).perm List.perm_append_comm

end Fresh

/-- A proper expression with numbers in this range. -/
def Expr.Numbered (e : Expr) (lo hi : Nat) : Prop :=
  e.Proper ∧ Fresh lo hi e.ids

/-- The code of a function is proper, and its occurrences are numbered in a range. -/
def Lambda.Numbered (code : Lambda) (lo hi : Nat) : Prop :=
  code.Proper ∧ Fresh lo hi code.ids

/-- The code of a definition is proper, and its occurrences are numbered in a range. -/
def Definition.Numbered (d : Definition) (lo hi : Nat) : Prop :=
  d.code.Proper ∧ Fresh lo hi d.code.ids

/-- The statement is proper, and its occurrences are numbered in a range. -/
def Stmt.Numbered (s : Stmt) (lo hi : Nat) : Prop :=
  s.Proper ∧ Fresh lo hi s.ids

/-- Items with numbers in a range one after the other. -/
def Spread {α : Type} (item : α → Nat → Nat → Prop) : List α → Nat → Nat → Prop
  | [], lo, hi => lo ≤ hi
  | x :: rest, lo, hi => ∃ mid, lo ≤ mid ∧ mid ≤ hi ∧ item x lo mid ∧ Spread item rest mid hi

variable {lo hi : Nat}

/-- What holds of the items of a row, wherever their ranges are, holds of all of them. -/
theorem Spread.all {α : Type} {P : α → Prop} {xs : List α} (h : Spread (fun x _ _ => P x) xs lo hi) :
    ∀ x ∈ xs, P x := by
  induction xs generalizing lo with
  | nil => nofun
  | cons x rest ih =>
    obtain ⟨mid, _, _, hx, hrest⟩ := h
    exact List.forall_mem_cons.mpr ⟨hx, ih hrest⟩

/-- Numbers may be left out in front. -/
theorem Spread.below {α : Type} {item : α → Nat → Nat → Prop} {xs : List α} {lo' : Nat}
    (h : Spread item xs lo hi) (hlo : lo' ≤ lo)
    (hmono : ∀ {x mid}, item x lo mid → item x lo' mid) : Spread item xs lo' hi := by
  cases xs with
  | nil => exact Nat.le_trans hlo h
  | cons x rest =>
    obtain ⟨mid, hmid, hhi, hx, hrest⟩ := h
    exact ⟨mid, Nat.le_trans hlo hmid, hhi, hmono hx, hrest⟩

/-- What is in a list behind the items that came before, last first, has numbers in a range. -/
def Behind {α : Type} (item : α → Nat → Nat → Prop) (before xs : List α) (lo hi : Nat) : Prop :=
  ∃ added, xs = before.reverse ++ added ∧ Spread item added lo hi

namespace Behind

variable {α : Type} {item : α → Nat → Nat → Prop} {before xs : List α}

theorem nil (before : List α) (n : Nat) : Behind item before before.reverse n n :=
  ⟨[], by simp, Nat.le_refl n⟩

/-- An item that is read behind others takes the next range. -/
theorem cons {x : α} {mid : Nat} (h : Behind item (x :: before) xs mid hi) (hx : item x lo mid)
    (hlo : lo ≤ mid) (hhi : mid ≤ hi) : Behind item before xs lo hi := by
  obtain ⟨added, rfl, hspread⟩ := h
  exact ⟨x :: added, by simp, mid, hlo, hhi, hx, hspread⟩

/-- Items behind others are there for a range that starts earlier, too. -/
theorem below {lo' : Nat} (h : Behind item before xs lo hi) (hlo : lo' ≤ lo)
    (hmono : ∀ {x mid}, item x lo mid → item x lo' mid) : Behind item before xs lo' hi := by
  obtain ⟨added, hadded, hspread⟩ := h
  exact ⟨added, hadded, hspread.below hlo hmono⟩

theorem spread (h : Behind item [] xs lo hi) : Spread item xs lo hi := by
  obtain ⟨added, rfl, hspread⟩ := h
  exact hspread

end Behind

theorem Expr.Numbered.mono {e : Expr} {lo' hi' : Nat} (h : e.Numbered lo hi) (hlo : lo' ≤ lo)
    (hhi : hi ≤ hi') : e.Numbered lo' hi' :=
  ⟨h.1, h.2.mono hlo hhi⟩

theorem Lambda.Numbered.mono {code : Lambda} {lo' hi' : Nat} (h : code.Numbered lo hi)
    (hlo : lo' ≤ lo) (hhi : hi ≤ hi') : code.Numbered lo' hi' :=
  ⟨h.1, h.2.mono hlo hhi⟩

theorem Definition.Numbered.mono {d : Definition} {lo' hi' : Nat} (h : d.Numbered lo hi)
    (hlo : lo' ≤ lo) (hhi : hi ≤ hi') : d.Numbered lo' hi' :=
  ⟨h.1, h.2.mono hlo hhi⟩

theorem Stmt.Numbered.mono {s : Stmt} {lo' hi' : Nat} (h : s.Numbered lo hi) (hlo : lo' ≤ lo)
    (hhi : hi ≤ hi') : s.Numbered lo' hi' :=
  ⟨h.1, h.2.mono hlo hhi⟩

/-- Numbered expressions in a row are proper, and their occurrences are fresh together. -/
theorem Spread.exprs {es : List Expr} (h : Spread Expr.Numbered es lo hi) :
    Expr.AllProper es ∧ Fresh lo hi (Expr.idsAll es) := by
  induction es generalizing lo with
  | nil => exact ⟨trivial, .nil⟩
  | cons e rest ih =>
    obtain ⟨mid, hlo, hhi, ⟨hproper, hfresh⟩, hrest⟩ := h
    obtain ⟨hothers, hids⟩ := ih hrest
    exact ⟨⟨hproper, hothers⟩, hfresh.append hids hlo hhi⟩

/-- Numbered definitions in a row are proper, and their occurrences are fresh together. -/
theorem Spread.definitions {ds : List Definition} (h : Spread Definition.Numbered ds lo hi) :
    Definition.AllProper ds ∧ Fresh lo hi (Definition.idsAll ds) := by
  induction ds generalizing lo with
  | nil => exact ⟨trivial, .nil⟩
  | cons d rest ih =>
    obtain ⟨mid, hlo, hhi, hd, hrest⟩ := h
    obtain ⟨name, code⟩ := d
    obtain ⟨hothers, hids⟩ := ih hrest
    exact ⟨⟨hd.1, hothers⟩, hd.2.append hids hlo hhi⟩

/-- Numbered statements in a row are proper, and their occurrences are fresh together. -/
theorem Spread.stmts {body : List Stmt} (h : Spread Stmt.Numbered body lo hi) :
    Stmt.AllProper body ∧ Fresh lo hi (Stmt.idsAll body) := by
  induction body generalizing lo with
  | nil => exact ⟨trivial, .nil⟩
  | cons s rest ih =>
    obtain ⟨mid, hlo, hhi, ⟨hproper, hfresh⟩, hrest⟩ := h
    obtain ⟨hothers, hids⟩ := ih hrest
    exact ⟨⟨hproper, hothers⟩, hfresh.append hids hlo hhi⟩

end Lox
