import Lox.Proofs.Binding.Visit
import Mathlib.Data.List.Nodup
import Mathlib.Data.List.Pairwise
import Mathlib.Logic.Relation

namespace Lox

/-- The numbers of the occurrences in a node. -/
def Node.ids : Node → List Nat
  | expr e => e.ids
  | exprs es => Expr.idsAll es
  | .code _ c => c.ids
  | methods definitions => Definition.idsAll definitions
  | superclass _ parent => [parent.id]
  | stmt s => s.ids
  | stmts body => Stmt.idsAll body

/-- The numbers in an expression's node are those of the expression. -/
theorem Node.ids_of_expression? {node : Node} {e : Expr} (h : node.expression? = some e) :
    node.ids = e.ids := by
  cases node with
  | expr e' =>
    obtain rfl := Option.some.inj h
    rfl
  | superclass name parent =>
    obtain rfl := Option.some.inj h
    rfl
  | _ => cases h

/-- The size of what the walk still has before it in a node. -/
noncomputable def Node.size : Node → Nat
  | expr e => sizeOf e
  | exprs es => sizeOf es
  | .code _ c => sizeOf c
  | methods definitions => sizeOf definitions
  | superclass _ parent => sizeOf parent
  | stmt s => sizeOf s
  | stmts body => sizeOf body

namespace Visit

/-- The walk comes from one node to the other on its way down. -/
abbrev Reaches : Visit → Visit → Prop :=
  Relation.ReflTransGen fun v w => w ∈ v.parts

variable {v w p q : Visit} {id : Nat} {e : Expr}

/-- The parts of a node divide up the occurrences in it. -/
theorem ids_parts (v : Visit) : (v.parts.flatMap fun p => p.node.ids).Sublist v.node.ids := by
  obtain ⟨node, r⟩ := v
  cases node with
  | expr e => cases e <;> simp [parts, Expr.parts, Node.ids, Expr.ids]
  | exprs es => cases es <;> simp [parts, Node.ids, Expr.idsAll]
  | code role c =>
    obtain ⟨params, body⟩ := c
    simp [parts, Node.ids, Lambda.ids]
  | methods definitions =>
    cases definitions with
    | nil => simp [parts]
    | cons definition rest =>
      obtain ⟨name, c⟩ := definition
      simp [parts, Node.ids, Definition.idsAll]
  | superclass name parent => simp [parts, Node.ids]
  | stmts body => cases body <;> simp [parts, Node.ids, Stmt.idsAll]
  | stmt s =>
    cases s with
    | var name initial => cases initial <;> simp [parts, Stmt.parts, Node.ids, Stmt.ids]
    | function definition =>
      obtain ⟨name, c⟩ := definition
      simp [parts, Stmt.parts, Node.ids, Stmt.ids]
    | «class» name parent methods => cases parent <;> simp [parts, Stmt.parts, Node.ids, Stmt.ids]
    | «if» condition yes no => cases no <;> simp [parts, Stmt.parts, Node.ids, Stmt.ids]
    | «return» keyword value => cases value <;> simp [parts, Stmt.parts, Node.ids, Stmt.ids]
    | _ => simp [parts, Stmt.parts, Node.ids, Stmt.ids]

/-- A part is smaller than the node that it is a part of. -/
theorem size_parts (v : Visit) : ∀ p ∈ v.parts, p.node.size < v.node.size := by
  obtain ⟨node, r⟩ := v
  cases node with
  | expr e => cases e <;> simp [parts, Expr.parts, Node.size] <;> omega
  | exprs es =>
    cases es with
    | nil => simp [parts]
    | cons e rest =>
      simp [parts, Node.size]
      omega
  | code role c =>
    obtain ⟨params, body⟩ := c
    intro p hp
    obtain rfl := List.mem_singleton.mp hp
    have hsize := Lambda.mk.sizeOf_spec params body
    show sizeOf body < sizeOf (Lambda.mk params body)
    omega
  | methods definitions =>
    cases definitions with
    | nil => simp [parts]
    | cons definition rest =>
      obtain ⟨name, c⟩ := definition
      simp [parts, Node.size]
      omega
  | superclass name parent => simp [parts]
  | stmts body =>
    cases body with
    | nil => simp [parts]
    | cons s rest =>
      simp [parts, Node.size]
      omega
  | stmt s =>
    cases s with
    | var name initial =>
      cases initial with
      | none => simp [parts, Stmt.parts]
      | some initial =>
        simp [parts, Stmt.parts, Node.size]
        omega
    | function definition =>
      obtain ⟨name, c⟩ := definition
      simp [parts, Stmt.parts, Node.size]
      omega
    | «class» name parent methods =>
      cases parent with
      | none => simp [parts, Stmt.parts, Node.size]
      | some parent =>
        simp [parts, Stmt.parts, Node.size]
        omega
    | «if» condition yes no => cases no <;> simp [parts, Stmt.parts, Node.size] <;> omega
    | «return» keyword value =>
      cases value with
      | none => simp [parts, Stmt.parts]
      | some value =>
        simp [parts, Stmt.parts, Node.size]
        omega
    | _ => simp [parts, Stmt.parts, Node.size] <;> omega

/-- What is reached from a node is no larger than it. -/
theorem Reaches.size_le (h : v.Reaches w) : w.node.size ≤ v.node.size := by
  induction h with
  | refl => exact Nat.le_refl _
  | tail _ hpart ih => exact Nat.le_trans (Nat.le_of_lt (size_parts _ _ hpart)) ih

/-- The numbers in what is reached are numbers in the node. -/
theorem Reaches.ids_subset (h : v.Reaches w) : w.node.ids ⊆ v.node.ids := by
  induction h with
  | refl => exact List.Subset.refl _
  | tail _ hpart ih =>
    refine fun id hid => ih ((ids_parts _).subset ?_)
    exact List.mem_flatMap.mpr ⟨_, hpart, hid⟩

/-- Different parts have different occurrences in them. -/
theorem eq_of_mem_ids {α : Type} {ids : α → List Nat} {items : List α}
    (hnodup : (items.flatMap ids).Nodup) {a b : α} (ha : a ∈ items) (hb : b ∈ items)
    (hid : id ∈ ids a) (hid' : id ∈ ids b) : a = b := by
  by_contra hne
  have hdisjoint := (List.nodup_flatMap.mp hnodup).2
  have : Std.Symm (Function.onFun List.Disjoint ids) := ⟨fun _ _ h _ hx hy => h hy hx⟩
  exact hdisjoint.forall ha hb hne hid hid'

/-- Of two nodes with the same occurrence in them, one is inside the other. -/
theorem Reaches.nested (hv : p.Reaches v) (hw : p.Reaches w) (hnodup : p.node.ids.Nodup)
    (hid : id ∈ v.node.ids) (hid' : id ∈ w.node.ids) : v.Reaches w ∨ w.Reaches v := by
  induction hv using Relation.ReflTransGen.head_induction_on with
  | refl => exact .inl hw
  | @head p q hq hv ih =>
    rcases hw.cases_head with rfl | ⟨q', hq', hw'⟩
    · exact .inr (.head hq hv)
    · have hparts : (p.parts.flatMap fun q => q.node.ids).Nodup := (ids_parts p).nodup hnodup
      obtain rfl := eq_of_mem_ids hparts hq hq' (ids_subset hv hid) (ids_subset hw' hid')
      exact ih hw' ((List.nodup_flatMap.mp hparts).1 q hq)

/-- An expression is not inside itself. -/
theorem Reaches.eq_of_expression? (h : v.Reaches w) (hv : v.node.expression? = some e)
    (hw : w.node.expression? = some e) : v = w := by
  rcases h.cases_head with rfl | ⟨p, hp, hrest⟩
  · rfl
  have hlt : w.node.size < v.node.size := Nat.lt_of_le_of_lt (size_le hrest) (size_parts v p hp)
  obtain ⟨node, r⟩ := v
  obtain ⟨node', r'⟩ := w
  cases node with
  | expr e' =>
    obtain rfl := Option.some.inj hv
    cases node' with
    | expr e'' =>
      obtain rfl := Option.some.inj hw
      exact absurd hlt (Nat.lt_irrefl _)
    | superclass name parent =>
      obtain rfl := Option.some.inj hw
      cases hp
    | _ => cases hw
  | superclass name parent => cases hp
  | _ => cases hv

end Visit

/-- A visit is inside the program whose walk comes there. -/
theorem Visited.reached {programs : List (List Stmt)} {v : Visit} (h : Visited programs v) :
    ∃ program ∈ programs, Visit.Reaches ⟨.stmts program, .start⟩ v := by
  induction h with
  | program hprogram => exact ⟨_, hprogram, .refl⟩
  | part _ hw ih =>
    obtain ⟨program, hprogram, hreaches⟩ := ih
    exact ⟨program, hprogram, hreaches.tail hw⟩

/-- An expression with an occurrence in it is visited just once. -/
theorem Visited.unique {programs : List (List Stmt)} (hnodup : (programs.flatMap Stmt.idsAll).Nodup)
    {v w : Visit} (hv : Visited programs v) (hw : Visited programs w) {e : Expr}
    (hve : v.node.expression? = some e) (hwe : w.node.expression? = some e) (hids : e.ids ≠ []) :
    v = w := by
  obtain ⟨id, hid⟩ := List.exists_mem_of_ne_nil _ hids
  have hidv : id ∈ v.node.ids := Node.ids_of_expression? hve ▸ hid
  have hidw : id ∈ w.node.ids := Node.ids_of_expression? hwe ▸ hid
  obtain ⟨program, hprogram, hreaches⟩ := hv.reached
  obtain ⟨program', hprogram', hreaches'⟩ := hw.reached
  obtain rfl := Visit.eq_of_mem_ids hnodup hprogram hprogram'
    (hreaches.ids_subset hidv) (hreaches'.ids_subset hidw)
  rcases hreaches.nested hreaches' ((List.nodup_flatMap.mp hnodup).1 program hprogram) hidv hidw with
    h | h
  · exact h.eq_of_expression? hve hwe
  · exact (h.eq_of_expression? hwe hve).symm

end Lox
