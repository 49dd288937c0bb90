import Lox.Machine
import Lox.Proofs.Binding.Part

namespace Lox

open Resolver

/-- The walk finds no error up to the end of the node. -/
def Visit.Clean (v : Visit) : Prop :=
  ∀ e, Finding.error e ∉ v.after.findings

theorem Visit.Clean.part {v w : Visit} (h : v.Clean) (hw : w ∈ v.parts) : w.Clean :=
  fun e he => h e ((Visit.partOf hw).further.findings.subset he)

/-- A program that binding accepts is walked without an error. -/
theorem Visit.clean_program {program : List Stmt} (h : (resolve program).errors = []) :
    Visit.Clean ⟨.stmts program, .start⟩ := by
  intro e he
  have hmem : e ∈ (resolve program).errors :=
    List.mem_filterMap.mpr ⟨.error e, List.mem_reverse.mpr he, rfl⟩
  rw [h] at hmem
  cases hmem

/-- Wherever accepted programs are visited there is no error. -/
theorem Visited.clean {programs : List (List Stmt)}
    (h : ∀ program ∈ programs, (resolve program).errors = []) {v : Visit}
    (hv : Visited programs v) : v.Clean := by
  induction hv with
  | program hprogram => exact Visit.clean_program (h _ hprogram)
  | part _ hw ih => exact ih.part hw

/-- The walk finds no error up to the end of the node, what it decides is what a run knows, and the
    node is a proper one where it stands. -/
structure Visit.Sound (depths : Std.TreeMap Nat Nat) (v : Visit) : Prop where
  clean : v.Clean
  noted : ∀ resolution ∈ v.after.resolutions, depths[resolution.id]? = resolution.depth
  proper : v.node.Proper
  placed : v.before.Placed

variable {depths : Std.TreeMap Nat Nat}

/-- What a run knows about a node it knows about the parts of the node. -/
theorem Visit.Sound.part {v w : Visit} (h : v.Sound depths) (hw : w ∈ v.parts) :
    w.Sound depths := by
  have hpart := Visit.partOf hw
  exact ⟨h.clean.part hw,
    fun resolution hres => h.noted resolution (hpart.further.resolutions.subset hres),
    hpart.proper h.proper, hpart.placed h.proper h.placed⟩

/-- The occurrence of a name that an expression itself is. -/
def Expr.ref? : Expr → Option Ref
  | .name ref | .assign ref _ | .this ref | .super ref _ => some ref
  | _ => none

/-- A read is known as it was decided. -/
private theorem noted_read {r : Resolver} {ref : Ref} {after : Resolver}
    (hafter : after = r.read ref)
    (h : ∀ resolution ∈ after.resolutions, depths[resolution.id]? = resolution.depth) :
    depths[ref.id]? = depth? r.scopes ref.mark.lexeme := by
  subst hafter
  have hsuffix := (onward_use (r.resolve ref) ref.mark.lexeme).extends.resolutions
  exact h ⟨ref.mark.lexeme, ref.id, depth? r.scopes ref.mark.lexeme⟩
    (hsuffix.subset List.mem_cons_self)

private theorem scopes_errorIf (r : Resolver) (condition : Prop) [Decidable condition]
    (cause : ScopeCause) (mark : Mark) :
    (if condition then r.error cause mark else r).scopes = r.scopes := by
  split <;> rfl

/-- A read of a name is known as it was decided, in its own initializer or not. -/
private theorem noted_readName {r : Resolver} {ref : Ref}
    (h : ∀ resolution ∈ (r.readName ref).resolutions, depths[resolution.id]? = resolution.depth) :
    depths[ref.id]? = depth? r.scopes ref.mark.lexeme := by
  have hread := noted_read rfl h
  rwa [scopes_errorIf] at hread

/-- Where there is no error, a class is around `this`. -/
theorem Visit.Sound.role_of_this {ref : Ref} {r : Resolver}
    (h : Visit.Sound depths ⟨.expr (.this ref), r⟩) : r.classRole ≠ .none := by
  intro hnone
  have herror : .error ⟨.thisOutsideClass, ref.mark⟩ ∈ (r.readThis ref).findings := by
    simp [readThis, hnone, Resolver.error]
  exact h.clean _ herror

/-- Where there is no error, a class with a superclass is around `super`. -/
theorem Visit.Sound.role_of_super {ref : Ref} {method : Mark} {r : Resolver}
    (h : Visit.Sound depths ⟨.expr (.super ref method), r⟩) : r.classRole = .derived := by
  have hsuffix (r : Resolver) := (onward_read r ref).extends.findings
  cases hrole : r.classRole with
  | derived => rfl
  | none =>
    refine absurd ?_ (h.clean ⟨.superOutsideClass, ref.mark⟩)
    have hread : (Expr.super ref method).resolve r =
        (r.error .superOutsideClass ref.mark).read ref := by
      simp [Expr.resolve, readSuper, hrole]
    show _ ∈ ((Expr.super ref method).resolve r).findings
    rw [hread]
    exact (hsuffix _).subset List.mem_cons_self
  | base =>
    refine absurd ?_ (h.clean ⟨.superWithoutSuperclass, ref.mark⟩)
    have hread : (Expr.super ref method).resolve r =
        (r.error .superWithoutSuperclass ref.mark).read ref := by
      simp [Expr.resolve, readSuper, hrole]
    show _ ∈ ((Expr.super ref method).resolve r).findings
    rw [hread]
    exact (hsuffix _).subset List.mem_cons_self

/-- The depth that a run knows for an occurrence is that of the first scope with the name among those
    in which the walk came to the occurrence. -/
theorem Visit.Sound.recorded {v : Visit} {e : Expr} {ref : Ref} (h : v.Sound depths)
    (he : v.node.expression? = some e) (href : e.ref? = some ref) :
    depths[ref.id]? = depth? v.scopes ref.mark.lexeme := by
  obtain ⟨node, r⟩ := v
  cases node with
  | expr e' =>
    obtain rfl := Option.some.inj he
    cases e' with
    | name other =>
      obtain rfl := Option.some.inj href
      exact noted_readName h.noted
    -- The value is walked first, and leaves the scopes in which the name is looked up as they were.
    | assign other value =>
      obtain rfl := Option.some.inj href
      have hnoted : depths[other.id]? = depth? (value.resolve r).scopes other.mark.lexeme :=
        h.noted ⟨other.mark.lexeme, other.id, depth? (value.resolve r).scopes other.mark.lexeme⟩
          List.mem_cons_self
      rw [hnoted, depth?_scopes, (value.resolve_onward r).shapes_eq, ← depth?_scopes]
      rfl
    | this other =>
      obtain rfl := Option.some.inj href
      refine noted_read (r := r) ?_ h.noted
      simp [after, Node.resolve, Expr.resolve, readThis, h.role_of_this]
    | super other method =>
      obtain rfl := Option.some.inj href
      refine noted_read (r := r) ?_ h.noted
      simp [after, Node.resolve, Expr.resolve, readSuper, h.role_of_super]
    | _ => cases href
  | superclass name parent =>
    obtain rfl := Option.some.inj he
    obtain rfl := Option.some.inj href
    have hread := noted_readName h.noted
    dsimp only at hread
    rwa [scopes_errorIf] at hread
  | _ => cases he

/-- A class is not its own superclass. -/
theorem Visit.Sound.superclass_ne {name : Mark} {parent : Ref} {r : Resolver}
    (h : Visit.Sound depths ⟨.superclass name parent, r⟩) : parent.mark.lexeme ≠ name.lexeme := by
  intro hsame
  refine absurd ?_ (h.clean ⟨.selfInheritance, parent.mark⟩)
  have hread : (r.enterClass name).readSuperclass name parent =
      ({ (r.enterClass name).error .selfInheritance parent.mark with
        classRole := .derived }).readName parent := by
    simp [readSuperclass, hsame]
  show _ ∈ ((r.enterClass name).readSuperclass name parent).findings
  rw [hread]
  exact (onward_readName _ parent).findings.subset List.mem_cons_self

/-- What an occurrence finds does not depend on the name of the class whose superclass it may be. -/
theorem Visit.Sound.status_scopes {v : Visit} {e : Expr} {ref : Ref} (h : v.Sound depths)
    (he : v.node.expression? = some e) (href : e.ref? = some ref) (depth : Nat) :
    ((v.scopes.map Scope.shape)[depth]?.bind fun shape => shape.status ref.mark.lexeme) =
      v.before.shapes[depth]?.bind fun shape => shape.status ref.mark.lexeme := by
  obtain ⟨node, r⟩ := v
  cases node with
  | superclass name parent =>
    obtain rfl := Option.some.inj he
    obtain rfl := Option.some.inj href
    have hne := h.superclass_ne
    show ((r.enterClass name).shapes[depth]?.bind fun shape => shape.status parent.mark.lexeme) = _
    rw [shapes_enterClass]
    cases hshapes : r.shapes with
    | nil => simp
    | cons shape rest =>
      cases depth with
      | zero => simp [Shape.settle, hne]
      | succ depth => simp
  | _ => rfl

/-- The scopes at an occurrence are those in which the walk comes to the node. -/
theorem Visit.openings_scopes (v : Visit) :
    v.scopes.map Scope.opening = v.before.shapes.map Shape.opening := by
  obtain ⟨node, r⟩ := v
  cases node with
  | superclass name parent =>
    show (r.enterClass name).scopes.map Scope.opening = _
    rw [← opening_shapes, shapes_enterClass]
    cases r.shapes <;> rfl
  | _ => exact (opening_shapes r).symm

/-- A run knows of every occurrence how far out the scope with its name is. -/
theorem Visit.Sound.recorded_before {v : Visit} {e : Expr} {ref : Ref} (h : v.Sound depths)
    (he : v.node.expression? = some e) (href : e.ref? = some ref) :
    depths[ref.id]? = Shape.depth? v.before.shapes ref.mark.lexeme := by
  rw [h.recorded he href]
  obtain ⟨node, r⟩ := v
  cases node with
  | superclass name parent =>
    obtain rfl := Option.some.inj he
    obtain rfl := Option.some.inj href
    have hne := h.superclass_ne
    show depth? (r.enterClass name).scopes parent.mark.lexeme = _
    rw [depth?_scopes, shapes_enterClass]
    cases hshapes : r.shapes with
    | nil => simp
    | cons shape rest => simp [Shape.depth?, Shape.settle, List.findIdx?_cons, hne]
  | _ => exact depth?_scopes r _

end Lox
