import Lox.Evaluation.Basic
import Lox.Proofs.Run.Keeping

namespace Lox.Run

variable {eval : Expr → Run Value} {name : Mark} {ref : Ref} {methods : List Definition}
  {table : Table Closure} {c : Closure} {key : String} {id : Nat} {m m' : Machine}

/-- The methods that are made in these frames. -/
def methodsMade (chain : Chain) (methods : List Definition) : Table Closure :=
  .ofList (methods.map fun m =>
    (m.name.lexeme, ⟨some m.name.lexeme, m.code, chain, m.name.lexeme = initializerName⟩))

/-- The frame of a superclass that is made for these methods. -/
def superFrame (id : Nat) (methods : List Definition) (m : Machine) : Nat × Store :=
  m.store.newFrame .super (some ⟨.superclass methods id, m.chain⟩)

/-- The frame of a superclass, and the methods made inside it. -/
theorem methodsInside_some (id : Nat) (methods : List Definition) (m : Machine) :
    methodsInside (some id) methods m =
      .ok (methodsMade ((superFrame id methods m).1 :: m.chain) methods)
        { m with
          store := (superFrame id methods m).2.define ((superFrame id methods m).1 :: m.chain)
            "super" (.class id) } :=
  rfl

theorem methodsInside_none (methods : List Definition) (m : Machine) :
    methodsInside none methods m = .ok (methodsMade m.chain methods) m :=
  rfl

/-- Every method of a class comes from a definition of its name, with the frames it was made in. -/
theorem exists_of_methodsMade {chain : Chain} (h : (methodsMade chain methods).find? key = some c) :
    ∃ definition ∈ methods, definition.name.lexeme = key ∧ c.code = definition.code ∧
      c.chain = chain := by
  obtain ⟨definition, hmem, heq⟩ := List.mem_map.mp (Table.mem_of_find?_ofList h)
  cases heq
  exact ⟨definition, hmem, rfl, rfl, rfl⟩

/-- With a superclass or without, the methods are made of the definitions. -/
theorem exists_of_methodsInside {parent : Option Nat}
    (h : methodsInside parent methods m = .ok table m') (hfind : table.find? key = some c) :
    ∃ definition ∈ methods, definition.name.lexeme = key ∧ c.code = definition.code := by
  obtain ⟨chain, rfl⟩ : ∃ chain, table = methodsMade chain methods := by
    cases parent with
    | none =>
      rw [methodsInside_none] at h
      cases h
      exact ⟨m.chain, rfl⟩
    | some id =>
      rw [methodsInside_some] at h
      cases h
      exact ⟨_, rfl⟩
  obtain ⟨definition, hmem, hname, hcode, _⟩ := exists_of_methodsMade hfind
  exact ⟨definition, hmem, hname, hcode⟩

theorem head?_ancestors (parent : Option Nat) (s : Store) : (ancestors parent s).head? = parent := by
  cases parent <;> rfl

/-- Makes a class below this superclass, or one without a superclass. -/
def makeBelow (parent : Option Nat) (name : Mark) (methods : List Definition) : Run Nat := do
  define name.lexeme .nil
  let table ← methodsInside parent methods
  let above ← query (ancestors parent)
  allocate (·.newClass ⟨name.lexeme, above, table⟩)

theorem makeClass_none (eval : Expr → Run Value) (name : Mark) (methods : List Definition) :
    makeClass eval name none methods = makeBelow none name methods :=
  rfl

/-- A class with a superclass is made once the superclass is found. -/
theorem makeClass_some (eval : Expr → Run Value) (name : Mark) (ref : Ref)
    (methods : List Definition) :
    makeClass eval name (some ref) methods =
      superclass eval ref >>= fun id => makeBelow (some id) name methods :=
  bind_map_left some (superclass eval ref) fun parent => makeBelow parent name methods

/-- A superclass is found where its name stands for a class. -/
theorem superclass_eq_ok_iff :
    superclass eval ref m = .ok id m' ↔ eval (.name ref) m = .ok (.class id) m' := by
  refine bind_eq_ok_iff.trans ⟨?_, fun h => ⟨_, _, h, rfl⟩⟩
  rintro ⟨value, m₁, hvalue, hclass⟩
  cases value with
  | «class» id =>
    cases hclass
    exact hvalue
  | _ => cases hclass

/-- What has been made is right below the superclass, with methods that are made of the definitions. -/
theorem exists_of_makeBelow {parent : Option Nat} (h : makeBelow parent name methods m = .ok id m') :
    ∃ record, m'.store.classes[id]? = some record ∧ record.ancestors.head? = parent ∧
      ∀ key method, record.methods.find? key = some method →
        ∃ definition ∈ methods, definition.name.lexeme = key ∧ method.code = definition.code := by
  obtain ⟨_, m₁, _, h⟩ := bind_eq_ok_iff.mp h
  obtain ⟨table, m₂, htable, h⟩ := bind_eq_ok_iff.mp h
  obtain ⟨above, m₃, habove, h⟩ := bind_eq_ok_iff.mp h
  cases habove
  cases h
  exact ⟨_, Array.getElem?_push_size, head?_ancestors parent _,
    fun _ _ hfind => exists_of_methodsInside htable hfind⟩

end Lox.Run
