import Lox.Proofs.Binding.Visit
import Lox.Proofs.Tree.Rendering

namespace Lox

/-- The names of variables that a node itself brings in or mentions. -/
def Node.mentions : Node → List String
  | expr (.name ref) | expr (.assign ref _) => [ref.mark.lexeme]
  | .code _ c => c.params.map Mark.lexeme
  | superclass _ parent => [parent.mark.lexeme]
  | stmt s => s.declares
  | _ => []

/-- The tokens of a node. -/
def Node.tokens : Node → List Token
  | expr e => e.tokens
  | exprs es => commaSeparated (Expr.tokensEach es)
  | .code _ c => c.tokens
  | methods definitions => Definition.tokensAll definitions
  | superclass _ parent => [parent.mark.identifier]
  | stmt s => s.tokens
  | stmts body => Stmt.tokensAll body

/-- The tokens of an item are among those of the list. -/
theorem mem_commaSeparated {rows : List (List Token)} {row : List Token} (hrow : row ∈ rows) {token : Token}
    (htoken : token ∈ row) : token ∈ commaSeparated rows := by
  induction rows with
  | nil => cases hrow
  | cons first rest ih =>
    cases rest with
    | nil => rwa [List.mem_singleton.mp hrow] at htoken
    | cons second rest =>
      refine List.mem_append.mpr ?_
      rcases List.mem_cons.mp hrow with rfl | hrow
      · exact .inl htoken
      · exact .inr (List.mem_cons_of_mem _ (ih hrow))

theorem mem_commaSeparated_cons {first : List Token} {rest : List (List Token)} {token : Token}
    (h : token ∈ first ∨ token ∈ commaSeparated rest) : token ∈ commaSeparated (first :: rest) := by
  cases rest with
  | nil => simpa [commaSeparated] using h
  | cons second rest => 
    simp only [commaSeparated, List.mem_append, List.mem_cons] at h ⊢
    exact h.imp_right .inr

/-- The tokens of a part are among those of the expression. -/
theorem Expr.tokens_of_part {e : Expr} {r : Resolver} {w : Visit} (h : w ∈ e.parts r) :
    w.node.tokens ⊆ e.tokens := by
  intro token htoken
  cases e <;> simp only [Expr.parts, List.mem_cons, List.not_mem_nil, or_false] at h <;>
    (try rcases h with rfl | rfl | rfl) <;> simp_all [Expr.tokens, Node.tokens]

/-- The tokens of a part are among those of the statement. -/
theorem Stmt.tokens_of_part {s : Stmt} {r : Resolver} {w : Visit} (h : w ∈ s.parts r) :
    w.node.tokens ⊆ s.tokens := by
  intro token htoken
  cases s with
  | function definition =>
    obtain ⟨name, code⟩ := definition
    obtain rfl := List.mem_singleton.mp h
    simp_all [Stmt.tokens, Node.tokens]
  | var name part | «class» name part | «if» condition yes part | «return» name part =>
    cases part <;> simp only [Stmt.parts, List.mem_cons, List.not_mem_nil, or_false] at h <;>
      (try rcases h with rfl | rfl | rfl) <;> simp_all [Stmt.tokens, Node.tokens]
  | _ =>
    simp only [Stmt.parts, List.mem_cons, List.not_mem_nil, or_false] at h <;>
      (try rcases h with rfl | rfl) <;> simp_all [Stmt.tokens, Node.tokens]

/-- A node has the tokens of its parts. -/
theorem Visit.tokens_of_part {v w : Visit} (h : w ∈ v.parts) : w.node.tokens ⊆ v.node.tokens := by
  obtain ⟨node, r⟩ := v
  intro token htoken
  cases node with
  | expr e => exact Expr.tokens_of_part h htoken
  | stmt s => exact Stmt.tokens_of_part h htoken
  | superclass name parent => cases h
  | code role code =>
    obtain ⟨params, body⟩ := code
    obtain rfl := List.mem_singleton.mp h
    simp_all [Node.tokens, Lambda.tokens]
  | exprs es =>
    cases es with
    | nil => cases h
    | cons e rest =>
      simp only [Visit.parts, List.mem_cons, List.not_mem_nil, or_false] at h
      rcases h with rfl | rfl
      · exact mem_commaSeparated_cons (.inl htoken)
      · exact mem_commaSeparated_cons (.inr htoken)
  | methods ds =>
    cases ds with
    | nil => cases h
    | cons d rest =>
      obtain ⟨name, code⟩ := d
      simp only [Visit.parts, List.mem_cons, List.not_mem_nil, or_false] at h
      rcases h with rfl | rfl <;> simp_all [Node.tokens, Definition.tokensAll]
  | stmts body =>
    cases body with
    | nil => cases h
    | cons s rest =>
      simp only [Visit.parts, List.mem_cons, List.not_mem_nil, or_false] at h
      rcases h with rfl | rfl <;> simp_all [Node.tokens, Stmt.tokensAll]

/-- A name that is declared stands in the statement. -/
theorem Stmt.token_of_declares {s : Stmt} {name : String} (h : name ∈ s.declares) :
    ∃ mark : Mark, mark.identifier ∈ s.tokens ∧ mark.lexeme = name := by
  cases s with
  | var mark initial =>
    refine ⟨mark, ?_, (List.mem_singleton.mp h).symm⟩
    cases initial <;> simp [Stmt.tokens]
  | function definition =>
    obtain ⟨mark, code⟩ := definition
    exact ⟨mark, by simp [Stmt.tokens], (List.mem_singleton.mp h).symm⟩
  | «class» mark superclass methods =>
    refine ⟨mark, ?_, (List.mem_singleton.mp h).symm⟩
    cases superclass <;> simp [Stmt.tokens]
  | «if» condition yes no =>
    cases no with
    | none =>
      obtain ⟨mark, hmark, hname⟩ := Stmt.token_of_declares (s := yes) h
      exact ⟨mark, by simp [Stmt.tokens, hmark], hname⟩
    | some no =>
      rcases List.mem_append.mp h with h | h
      · obtain ⟨mark, hmark, hname⟩ := Stmt.token_of_declares (s := yes) h
        exact ⟨mark, by simp [Stmt.tokens, hmark], hname⟩
      · obtain ⟨mark, hmark, hname⟩ := Stmt.token_of_declares (s := no) h
        exact ⟨mark, by simp [Stmt.tokens, hmark], hname⟩
  | «while» condition body =>
    obtain ⟨mark, hmark, hname⟩ := Stmt.token_of_declares (s := body) h
    exact ⟨mark, by simp [Stmt.tokens, hmark], hname⟩
  | _ => cases h
termination_by structural s

/-- What a node mentions stands among its tokens. -/
theorem Node.token_of_mentions {node : Node} {name : String} (h : name ∈ node.mentions) :
    ∃ mark : Mark, mark.identifier ∈ node.tokens ∧ mark.lexeme = name := by
  cases node with
  | expr e =>
    cases e with
    | name ref => exact ⟨ref.mark, List.mem_singleton_self _, (List.mem_singleton.mp h).symm⟩
    | assign ref value => exact ⟨ref.mark, List.mem_cons_self, (List.mem_singleton.mp h).symm⟩
    | _ => cases h
  | code role code =>
    obtain ⟨params, body⟩ := code
    obtain ⟨param, hparam, rfl⟩ := List.mem_map.mp h
    refine ⟨param, List.mem_cons_of_mem _ (List.mem_append.mpr (.inl ?_)), rfl⟩
    exact mem_commaSeparated (List.mem_map_of_mem hparam) (List.mem_singleton_self _)
  | superclass name parent => exact ⟨parent.mark, List.mem_singleton_self _, (List.mem_singleton.mp h).symm⟩
  | stmt s => exact Stmt.token_of_declares h
  | _ => cases h

/-- The name stands somewhere in the program, whatever for. -/
def Occurs (name : String) (program : List Stmt) : Prop :=
  ∃ token ∈ Stmt.tokensAll program, token.kind = .identifier ∧ token.lexeme = name

instance (name : String) (program : List Stmt) : Decidable (Occurs name program) :=
  inferInstanceAs (Decidable (∃ token ∈ Stmt.tokensAll program,
    token.kind = .identifier ∧ token.lexeme = name))

/-- What a program visits has its tokens in the program. -/
theorem Visited.tokens {program : List Stmt} {v : Visit} (hv : Visited [program] v) :
    v.node.tokens ⊆ Stmt.tokensAll program := by
  induction hv with
  | program hprogram =>
    rw [List.mem_singleton.mp hprogram]
    exact List.Subset.refl _
  | part _ hw ih => exact List.Subset.trans (Visit.tokens_of_part hw) ih

/-- What is mentioned wherever a walk comes to stands in the program. -/
theorem Visited.occurs {program : List Stmt} {v : Visit} (hv : Visited [program] v) {name : String}
    (hname : name ∈ v.node.mentions) : Occurs name program := by
  obtain ⟨mark, hmark, hlexeme⟩ := Node.token_of_mentions hname
  exact ⟨mark.identifier, hv.tokens hmark, rfl, hlexeme⟩

end Lox
