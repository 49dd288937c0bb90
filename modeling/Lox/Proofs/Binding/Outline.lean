import Lox.Proofs.Binding.Lexical

namespace Lox

/-- A place in a program that matters to its local names. -/
inductive Landmark where
  | declare (name : Mark) (origin : Origin)
  | read (ref : Ref)
  /-- An occurrence of `this` or `super`. -/
  | receiver (ref : Ref)
  | scope (kind : ScopeKind) (inside : List Landmark)

/-- A class with the landmarks of its methods. A superclass is read outside of the scopes of the class. -/
def Landmark.ofClass (name : Mark) (superclass : Option Ref) (methods : List Landmark) : List Landmark :=
  let this := .scope .this (.declare ⟨"this", name.line⟩ .implicit :: methods)
  .declare name .declared ::
    match superclass with
    | none => [this]
    | some parent => [.read parent, .scope .super [.declare ⟨"super", name.line⟩ .implicit, this]]

mutual

/-- The landmarks in an expression, in the order of their binding. -/
def Expr.outline : Expr → List Landmark
  | .literal _ _ => []
  | .grouping inner => inner.outline
  | .unary _ _ right => right.outline
  | .binary _ _ left right => left.outline ++ right.outline
  | .unpaired _ _ right => right.outline
  | .logical _ _ left right => left.outline ++ right.outline
  | .conditional condition yes no => condition.outline ++ yes.outline ++ no.outline
  | .comma left right => left.outline ++ right.outline
  | .name ref => [.read ref]
  | .assign _ value => value.outline
  | .call callee _ arguments => callee.outline ++ Expr.outlineAll arguments
  | .get object _ => object.outline
  | .set object _ value => value.outline ++ object.outline
  | .this ref => [.receiver ref]
  | .super ref _ => [.receiver ref]
  | .lambda _ code => code.outline

/-- The landmarks of expressions in order. -/
def Expr.outlineAll : List Expr → List Landmark
  | [] => []
  | e :: rest => e.outline ++ Expr.outlineAll rest

/-- The parameters of a function and its body share one scope. -/
def Lambda.outline : Lambda → List Landmark
  | ⟨params, body⟩ =>
    [.scope .function (params.map (Landmark.declare · .parameter) ++ Stmt.outlineAll body)]

/-- The landmarks of the code of functions in order. -/
def Definition.outlineAll : List Definition → List Landmark
  | [] => []
  | ⟨_, code⟩ :: rest => code.outline ++ Definition.outlineAll rest

/-- A declaration comes before its own initializer, body, superclass and methods. -/
def Stmt.outline : Stmt → List Landmark
  | .expression value => value.outline
  | .print _ value => value.outline
  | .var name none => [.declare name .declared]
  | .var name (some initial) => .declare name .declared :: initial.outline
  | .function ⟨name, code⟩ => .declare name .declared :: code.outline
  | .class name superclass methods => Landmark.ofClass name superclass (Definition.outlineAll methods)
  | .block body => [.scope .block (Stmt.outlineAll body)]
  | .if condition yes none => condition.outline ++ yes.outline
  | .if condition yes (some no) => condition.outline ++ yes.outline ++ no.outline
  | .while condition body => condition.outline ++ body.outline
  | .return _ none => []
  | .return _ (some value) => value.outline
  | .break _ => []

/-- The landmarks of statements in order. -/
def Stmt.outlineAll : List Stmt → List Landmark
  | [] => []
  | s :: rest => s.outline ++ Stmt.outlineAll rest

end

/-- A scope of a program with the scopes around it, and all that is inside of it. -/
structure Extent where
  around : List Around
  kind : ScopeKind
  inside : List Landmark

namespace Landmark

/-- The line and the origin of the name, if the landmark declares it. -/
def declared? (name : String) : Landmark → Option (Nat × Origin)
  | declare mark origin => if mark.lexeme = name then some (mark.line, origin) else none
  | _ => none

/-- The line and the origin of the first declaration of the name in a scope with these landmarks. -/
def first? (name : String) (landmarks : List Landmark) : Option (Nat × Origin) :=
  landmarks.findSome? (declared? name)

/-- The scopes around what follows a landmark. -/
def past (around : List Around) : Landmark → List Around
  | declare name _ => Around.declare [name.lexeme] around
  | _ => around

/-- The surroundings behind landmarks, which are passed in order. -/
def pastAll (around : List Around) (landmarks : List Landmark) : List Around :=
  landmarks.foldl past around

mutual

/-- The reads of variables, each with the scopes around it. -/
def reads (around : List Around) : Landmark → List Occurrence
  | declare _ _ => []
  | read ref => [⟨ref, around⟩]
  | receiver _ => []
  | scope kind inside => readsAll (⟨kind, []⟩ :: around) inside

/-- The reads that landmarks in order tell. -/
def readsAll (around : List Around) : List Landmark → List Occurrence
  | [] => []
  | l :: rest => l.reads around ++ readsAll (l.past around) rest

end

mutual

/-- The scopes in the order in which they close. -/
def extents (around : List Around) : Landmark → List Extent
  | declare _ _ => []
  | read _ => []
  | receiver _ => []
  | scope kind inside => extentsAll (⟨kind, []⟩ :: around) inside ++ [⟨around, kind, inside⟩]

/-- The scopes that landmarks in order tell. -/
def extentsAll (around : List Around) : List Landmark → List Extent
  | [] => []
  | l :: rest => l.extents around ++ extentsAll (l.past around) rest

end

mutual

/-- Programs do not declare `this` or `super`, and these words are spelled like that. -/
def Named : Landmark → Prop
  | declare name origin => origin = .declared → name.Plain
  | read _ => True
  | receiver ref => ¬ ref.mark.Plain
  | scope _ inside => AllNamed inside

/-- All of the landmarks have names like others. -/
def AllNamed : List Landmark → Prop
  | [] => True
  | l :: rest => l.Named ∧ AllNamed rest

end

variable {around : List Around} {landmarks more : List Landmark} {name : String}

theorem first?_append :
    first? name (landmarks ++ more) = (first? name landmarks).or (first? name more) :=
  List.findSome?_append

/-- The reads of landmarks in two parts, of which the second stands behind the first. -/
theorem readsAll_append : readsAll around (landmarks ++ more) =
    readsAll around landmarks ++ readsAll (pastAll around landmarks) more := by
  induction landmarks generalizing around with
  | nil => rfl
  | cons l rest ih =>
    rw [List.cons_append, readsAll, ih, readsAll, List.append_assoc, pastAll, pastAll, List.foldl_cons]

/-- The scopes of landmarks in two parts, of which the second stands behind the first. -/
theorem extentsAll_append : extentsAll around (landmarks ++ more) =
    extentsAll around landmarks ++ extentsAll (pastAll around landmarks) more := by
  induction landmarks generalizing around with
  | nil => rfl
  | cons l rest ih =>
    rw [List.cons_append, extentsAll, ih, extentsAll, List.append_assoc, pastAll, pastAll, List.foldl_cons]

theorem allNamed_append : AllNamed (landmarks ++ more) ↔ AllNamed landmarks ∧ AllNamed more := by
  induction landmarks with
  | nil => simp [AllNamed]
  | cons l rest ih => rw [List.cons_append, AllNamed, ih, AllNamed, and_assoc]

/-- What holds of all landmarks holds of each. -/
theorem AllNamed.mem (h : AllNamed landmarks) {l : Landmark} (hl : l ∈ landmarks) : l.Named := by
  induction landmarks with
  | nil => cases hl
  | cons first rest ih =>
    rcases List.mem_cons.mp hl with rfl | hl
    · exact h.1
    · exact ih h.2 hl

/-- What is first declared as a variable, a function or a class has a name of programs. -/
theorem AllNamed.plain (h : AllNamed landmarks) {line : Nat}
    (hfirst : first? name landmarks = some (line, .declared)) : IsPlain name := by
  obtain ⟨l, hl, hdeclared⟩ := List.exists_of_findSome?_eq_some hfirst
  have hnamed := h.mem hl
  unfold declared? at hdeclared
  split at hdeclared
  · split at hdeclared
    · rename_i hname
      cases hdeclared
      exact hname ▸ hnamed rfl
    · cases hdeclared
  · cases hdeclared

end Landmark

namespace Extent

variable (x : Extent)

/-- The line and the origin of the name where it is first declared in the scope. -/
def first? (name : String) : Option (Nat × Origin) :=
  Landmark.first? name x.inside

/-- The reads in the scope, also in the functions and blocks in it. -/
def reads : List Occurrence :=
  Landmark.readsAll (⟨x.kind, []⟩ :: x.around) x.inside

end Extent

namespace Occurrence

/-- The nearest scope in which the name has been declared is the one that has `level` scopes around it. -/
def ResolvesAt (o : Occurrence) (level : Nat) : Prop :=
  ∃ depth, Around.depth? o.around o.ref.mark.lexeme = some depth ∧ o.around.length = level + depth + 1

/-- One of the reads is of the name, and resolves to the scope that has `level` scopes around it. -/
def ReadAt (os : List Occurrence) (level : Nat) (name : String) : Prop :=
  ∃ o ∈ os, o.ref.mark.lexeme = name ∧ o.ResolvesAt level

theorem readAt_nil (level : Nat) (name : String) : ¬ ReadAt [] level name := by
  simp [ReadAt]

theorem readAt_append {os others : List Occurrence} {level : Nat} {name : String} :
    ReadAt (os ++ others) level name ↔ ReadAt os level name ∨ ReadAt others level name := by
  simp only [ReadAt, List.mem_append, or_and_right, exists_or]

end Occurrence

/-- A landmark opens or declares a name, but it leaves the scopes around it what they are in number.
    -/
theorem Landmark.length_past (around : List Around) (l : Landmark) :
    (l.past around).length = around.length := by
  cases l with
  | declare name origin => cases around <;> rfl
  | _ => rfl

mutual

/-- A read that resolves to no scope around the landmark is a read in the scope that it resolves to. -/
theorem Landmark.exists_extent (l : Landmark) {around : List Around} {o : Occurrence} {level : Nat}
    (ho : o ∈ l.reads around) (hlevel : o.ResolvesAt level) (hle : around.length ≤ level) :
    ∃ x ∈ l.extents around, x.around.length = level ∧ o ∈ x.reads := by
  cases l with
  | declare name origin => cases ho
  | read ref =>
    obtain rfl := List.mem_singleton.mp ho
    obtain ⟨depth, _, hlength⟩ := hlevel
    dsimp only at hlength
    omega
  | receiver ref => cases ho
  | scope kind inside =>
    rcases Nat.eq_or_lt_of_le hle with rfl | hlt
    · exact ⟨⟨around, kind, inside⟩, List.mem_append_right _ List.mem_cons_self, rfl, ho⟩
    · obtain ⟨x, hx, hread⟩ := Landmark.exists_extentAll inside ho hlevel hlt
      exact ⟨x, List.mem_append_left _ hx, hread⟩

theorem Landmark.exists_extentAll (landmarks : List Landmark) {around : List Around} {o : Occurrence}
    {level : Nat} (ho : o ∈ readsAll around landmarks) (hlevel : o.ResolvesAt level)
    (hle : around.length ≤ level) :
    ∃ x ∈ extentsAll around landmarks, x.around.length = level ∧ o ∈ x.reads := by
  cases landmarks with
  | nil => cases ho
  | cons l rest =>
    rcases List.mem_append.mp ho with ho | ho
    · obtain ⟨x, hx, hread⟩ := l.exists_extent ho hlevel hle
      exact ⟨x, List.mem_append_left _ hx, hread⟩
    · obtain ⟨x, hx, hread⟩ := Landmark.exists_extentAll rest ho hlevel (l.length_past around ▸ hle)
      exact ⟨x, List.mem_append_right _ hx, hread⟩

end

/-- The name is first declared in the scope on that line, as a variable, a function or a class, and no read
    resolves to it. -/
def Extent.Unread (x : Extent) (w : Warning) : Prop :=
  x.first? w.name = some (w.line, .declared) ∧ ¬ Occurrence.ReadAt x.reads x.around.length w.name

end Lox
