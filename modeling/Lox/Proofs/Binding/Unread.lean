import Lox.Proofs.Binding.Usage
import Lox.Proofs.Grammar.Naming

namespace Lox

open Grammar (readSource)

/-- Warnings about unused names are exact. For the program of a source, with errors or without, each scope
    has its warnings, in the order in which the scopes close: by line and name, those about just the names
    that are first declared there as variables, functions or classes and that no read resolves to. Reads are
    bound as static scoping says, wherever they are, and each of them counts in the scope that it resolves to.
    In which order a scope keeps its names makes no difference. -/
theorem unread_names_warned (source : String) (firstId : Nat) :
    let program := (readSource source firstId).parsed.program
    let outline := Stmt.outlineAll program
    (∃ lists, (resolve program).warnings = lists.flatten ∧
      List.Forall₂ Extent.Warned (Landmark.extentsAll [] outline) lists) ∧
    (∀ o ∈ Landmark.readsAll [] outline, o.resolution ∈ (resolve program).resolutions ∧
      ∀ level, o.ResolvesAt level →
        ∃ x ∈ Landmark.extentsAll [] outline, x.around.length = level ∧ o ∈ x.reads) ∧
    ∀ (s : Scope) (entries : List (String × Local)), entries.Perm s.locals.entries →
      ({ s with locals := ⟨entries⟩ } : Scope).warnings = s.warnings := by
  intro program outline
  have hobserves := resolve_observes (Grammar.allNamed_readSource source firstId)
  obtain ⟨lists, hlists, hwarned⟩ := hobserves.warned
  refine ⟨⟨lists, ?_, hlists⟩, fun o ho => ⟨?_, fun level hlevel => ?_⟩, fun s entries hperm => ?_⟩
  · have hreverse : (resolve program).warnings = (Stmt.resolveAll program .start).warned.reverse :=
      List.filterMap_reverse
    rw [hreverse, hwarned]
    simp [Resolver.warned, Resolver.start]
  · exact List.mem_reverse.mpr (hobserves.decided o ho)
  · exact Landmark.exists_extentAll outline ho hlevel (Nat.zero_le level)
  · exact Scope.warnings_eq_of_perm hperm

/-- The function reads itself, and an initializer reads `a`. What is only assigned to is not read, and there
    is no warning about the parameter or about `this`. -/
theorem unread_names_warned_in_block :
    let source := "\x7bvar b=1;\nvar a=2;fun f(p)\x7breturn f;\x7d\n" ++
      "var c=a;b=3;class D\x7bm()\x7bvar b=this;\x7d\x7d\x7d"
    let program := (readSource source 0).parsed.program
    let outline := Stmt.outlineAll program
    let read : Occurrence := ⟨⟨1, ⟨"a", 3⟩⟩, [⟨.block, ["c", "f", "a", "b"]⟩]⟩
    let unread : Local := ⟨1, .declared, true, false⟩
    let s : Scope := ⟨.block [], ⟨[("b", unread), ("a", unread)]⟩⟩
    (resolve program).warnings = [⟨3, "b"⟩, ⟨1, "b"⟩, ⟨3, "D"⟩, ⟨3, "c"⟩] ∧
      (∃ lists, (resolve program).warnings = lists.flatten ∧
        List.Forall₂ Extent.Warned (Landmark.extentsAll [] outline) lists) ∧
      (∃ x ∈ Landmark.extentsAll [] outline, x.around.length = 0 ∧ read ∈ x.reads) ∧
      ({ s with locals := ⟨s.locals.entries.reverse⟩ } : Scope).warnings = s.warnings := by
  intro source program outline read unread s
  obtain ⟨hlists, hreads, horder⟩ := unread_names_warned source 0
  have hread : read ∈ Landmark.readsAll [] outline := by decide +kernel
  exact ⟨by decide +kernel, hlists, (hreads read hread).2 0 ⟨0, by decide, rfl⟩,
    horder s _ (List.reverse_perm _)⟩

end Lox
