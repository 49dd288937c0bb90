import Lox.Proofs.Tree.Form

namespace Lox

/-- How the numbers of occurrences and the lines change. -/
structure Relabeling where
  id : Nat → Nat
  line : Nat → Nat

namespace Relabeling

/-- The occurrences keep their numbers. -/
def ofLine (line : Nat → Nat) : Relabeling :=
  ⟨fun id => id, line⟩

/-- Every label stays as it is. -/
def same : Relabeling :=
  .ofLine fun line => line

/-- All occurrences look alike, and the lines stay. -/
def sameId : Relabeling :=
  ⟨fun _ => 0, fun line => line⟩

/-- One change and then the other. -/
def andThen (f g : Relabeling) : Relabeling :=
  ⟨fun id => g.id (f.id id), fun line => g.line (f.line line)⟩

end Relabeling

/-- The mark on another line. -/
def Mark.relabel (f : Relabeling) (mark : Mark) : Mark :=
  ⟨mark.lexeme, f.line mark.line⟩

/-- The occurrence with another number and on another line. -/
def Ref.relabel (f : Relabeling) (ref : Ref) : Ref :=
  ⟨f.id ref.id, ref.mark.relabel f⟩

/-- The token on another line. -/
def Token.relabel (f : Relabeling) (token : Token) : Token :=
  ⟨token.toMark.relabel f, token.kind⟩

mutual

/-- The expression with other labels. Everything that an evaluation does not point at stays. -/
def Expr.relabel (f : Relabeling) : Expr → Expr
  | .literal value line => .literal value (f.line line)
  | .grouping inner => .grouping (inner.relabel f)
  | .unary op mark right => .unary op (mark.relabel f) (right.relabel f)
  | .binary op mark left right => .binary op (mark.relabel f) (left.relabel f) (right.relabel f)
  | .unpaired op mark right => .unpaired op (mark.relabel f) (right.relabel f)
  | .logical op mark left right => .logical op (mark.relabel f) (left.relabel f) (right.relabel f)
  | .conditional condition yes no =>
    .conditional (condition.relabel f) (yes.relabel f) (no.relabel f)
  | .comma left right => .comma (left.relabel f) (right.relabel f)
  | .name ref => .name (ref.relabel f)
  | .assign ref value => .assign (ref.relabel f) (value.relabel f)
  | .call callee paren arguments =>
    .call (callee.relabel f) (paren.relabel f) (Expr.relabelAll f arguments)
  | .get object property => .get (object.relabel f) (property.relabel f)
  | .set object property value => .set (object.relabel f) (property.relabel f) (value.relabel f)
  | .this ref => .this (ref.relabel f)
  | .super ref method => .super (ref.relabel f) (method.relabel f)
  | .lambda keyword code => .lambda (keyword.relabel f) (code.relabel f)

/-- The expressions with other labels. -/
def Expr.relabelAll (f : Relabeling) : List Expr → List Expr
  | [] => []
  | e :: rest => e.relabel f :: Expr.relabelAll f rest

/-- The code with other labels. -/
def Lambda.relabel (f : Relabeling) : Lambda → Lambda
  | ⟨params, body⟩ => ⟨params.map (Mark.relabel f), Stmt.relabelAll f body⟩

/-- The definition with other labels. -/
def Definition.relabel (f : Relabeling) : Definition → Definition
  | ⟨name, code⟩ => ⟨name.relabel f, code.relabel f⟩

/-- The definitions with other labels. -/
def Definition.relabelAll (f : Relabeling) : List Definition → List Definition
  | [] => []
  | d :: rest => d.relabel f :: Definition.relabelAll f rest

/-- The statement with other labels. -/
def Stmt.relabel (f : Relabeling) : Stmt → Stmt
  | .expression value => .expression (value.relabel f)
  | .print keyword value => .print (keyword.relabel f) (value.relabel f)
  | .var name none => .var (name.relabel f) none
  | .var name (some initial) => .var (name.relabel f) (some (initial.relabel f))
  | .function definition => .function (definition.relabel f)
  | .class name superclass methods =>
    .class (name.relabel f) (superclass.map (Ref.relabel f)) (Definition.relabelAll f methods)
  | .block body => .block (Stmt.relabelAll f body)
  | .if condition yes none => .if (condition.relabel f) (yes.relabel f) none
  | .if condition yes (some no) =>
    .if (condition.relabel f) (yes.relabel f) (some (no.relabel f))
  | .while condition body => .while (condition.relabel f) (body.relabel f)
  | .return keyword none => .return (keyword.relabel f) none
  | .return keyword (some value) => .return (keyword.relabel f) (some (value.relabel f))
  | .break keyword => .break (keyword.relabel f)

/-- The statements with other labels. -/
def Stmt.relabelAll (f : Relabeling) : List Stmt → List Stmt
  | [] => []
  | s :: rest => s.relabel f :: Stmt.relabelAll f rest

end

variable (f : Relabeling)

/-- To relabel a list is to relabel each of its items. -/
theorem Expr.relabelAll_eq_map (es : List Expr) : Expr.relabelAll f es = es.map (Expr.relabel f) := by
  induction es with
  | nil => rfl
  | cons e rest ih => exact congrArg (e.relabel f :: ·) ih

theorem Definition.relabelAll_eq_map (ds : List Definition) :
    Definition.relabelAll f ds = ds.map (Definition.relabel f) := by
  induction ds with
  | nil => rfl
  | cons d rest ih => exact congrArg (d.relabel f :: ·) ih

theorem Stmt.relabelAll_eq_map (body : List Stmt) :
    Stmt.relabelAll f body = body.map (Stmt.relabel f) := by
  induction body with
  | nil => rfl
  | cons s rest ih => exact congrArg (s.relabel f :: ·) ih

section Twice

variable (g : Relabeling)

mutual

/-- Labels that change twice might as well change once. -/
theorem Expr.relabel_relabel (e : Expr) : (e.relabel f).relabel g = e.relabel (f.andThen g) := by
  cases e with
  | literal value line => rfl
  | grouping inner => rw [Expr.relabel, Expr.relabel, inner.relabel_relabel, Expr.relabel]
  | unary op mark right | unpaired op mark right =>
    rw [Expr.relabel, Expr.relabel, right.relabel_relabel, Expr.relabel]
    rfl
  | binary op mark left right | logical op mark left right =>
    rw [Expr.relabel, Expr.relabel, left.relabel_relabel, right.relabel_relabel, Expr.relabel]
    rfl
  | conditional condition yes no =>
    rw [Expr.relabel, Expr.relabel, condition.relabel_relabel, yes.relabel_relabel, no.relabel_relabel,
      Expr.relabel]
  | comma left right =>
    rw [Expr.relabel, Expr.relabel, left.relabel_relabel, right.relabel_relabel, Expr.relabel]
  | name ref | this ref => rfl
  | super ref method => rfl
  | assign ref value =>
    rw [Expr.relabel, Expr.relabel, value.relabel_relabel, Expr.relabel]
    rfl
  | call callee paren arguments =>
    rw [Expr.relabel, Expr.relabel, callee.relabel_relabel, Expr.relabelAll_relabelAll arguments,
      Expr.relabel]
    rfl
  | get object property =>
    rw [Expr.relabel, Expr.relabel, object.relabel_relabel, Expr.relabel]
    rfl
  | set object property value =>
    rw [Expr.relabel, Expr.relabel, object.relabel_relabel, value.relabel_relabel, Expr.relabel]
    rfl
  | lambda keyword code =>
    rw [Expr.relabel, Expr.relabel, code.relabel_relabel, Expr.relabel]
    rfl

/-- A list of expressions whose labels change twice. -/
theorem Expr.relabelAll_relabelAll (es : List Expr) :
    Expr.relabelAll g (Expr.relabelAll f es) = Expr.relabelAll (f.andThen g) es := by
  cases es with
  | nil => rfl
  | cons e rest =>
    rw [Expr.relabelAll, Expr.relabelAll, e.relabel_relabel, Expr.relabelAll_relabelAll rest,
      Expr.relabelAll]

theorem Lambda.relabel_relabel (code : Lambda) :
    (code.relabel f).relabel g = code.relabel (f.andThen g) := by
  obtain ⟨params, body⟩ := code
  rw [Lambda.relabel, Lambda.relabel, List.map_map, Stmt.relabelAll_relabelAll body, Lambda.relabel]
  rfl

theorem Definition.relabelAll_relabelAll (ds : List Definition) :
    Definition.relabelAll g (Definition.relabelAll f ds) = Definition.relabelAll (f.andThen g) ds := by
  cases ds with
  | nil => rfl
  | cons d rest =>
    obtain ⟨name, code⟩ := d
    rw [Definition.relabelAll, Definition.relabelAll, Definition.relabel, Definition.relabel,
      code.relabel_relabel, Definition.relabelAll_relabelAll rest, Definition.relabelAll,
      Definition.relabel]
    rfl

/-- A statement whose labels change twice changes once by both changes together. -/
theorem Stmt.relabel_relabel (s : Stmt) : (s.relabel f).relabel g = s.relabel (f.andThen g) := by
  cases s with
  | expression value => rw [Stmt.relabel, Stmt.relabel, value.relabel_relabel, Stmt.relabel]
  | print keyword value =>
    rw [Stmt.relabel, Stmt.relabel, value.relabel_relabel, Stmt.relabel]
    rfl
  | var name initial =>
    cases initial with
    | none => rfl
    | some initial =>
      rw [Stmt.relabel, Stmt.relabel, initial.relabel_relabel, Stmt.relabel]
      rfl
  | function definition =>
    obtain ⟨name, code⟩ := definition
    rw [Stmt.relabel, Stmt.relabel, Definition.relabel, Definition.relabel, code.relabel_relabel,
      Stmt.relabel, Definition.relabel]
    rfl
  | «class» name superclass methods =>
    rw [Stmt.relabel, Stmt.relabel, Option.map_map, Definition.relabelAll_relabelAll methods,
      Stmt.relabel]
    rfl
  | block body => rw [Stmt.relabel, Stmt.relabel, Stmt.relabelAll_relabelAll body, Stmt.relabel]
  | «if» condition yes no =>
    cases no with
    | none =>
      rw [Stmt.relabel, Stmt.relabel, condition.relabel_relabel, yes.relabel_relabel, Stmt.relabel]
    | some no =>
      rw [Stmt.relabel, Stmt.relabel, condition.relabel_relabel, yes.relabel_relabel,
        no.relabel_relabel, Stmt.relabel]
  | «while» condition body =>
    rw [Stmt.relabel, Stmt.relabel, condition.relabel_relabel, body.relabel_relabel, Stmt.relabel]
  | «return» keyword value =>
    cases value with
    | none => rfl
    | some value =>
      rw [Stmt.relabel, Stmt.relabel, value.relabel_relabel, Stmt.relabel]
      rfl
  | «break» keyword => rfl

theorem Stmt.relabelAll_relabelAll (body : List Stmt) :
    Stmt.relabelAll g (Stmt.relabelAll f body) = Stmt.relabelAll (f.andThen g) body := by
  cases body with
  | nil => rfl
  | cons s rest =>
    rw [Stmt.relabelAll, Stmt.relabelAll, s.relabel_relabel, Stmt.relabelAll_relabelAll rest,
      Stmt.relabelAll]

end

end Twice

section Stay

variable {f}

theorem Mark.relabel_eq_self (hline : ∀ line, f.line line = line) (mark : Mark) :
    mark.relabel f = mark := by
  rw [relabel, hline]

theorem Ref.relabel_eq_self (hline : ∀ line, f.line line = line) {ref : Ref}
    (hid : f.id ref.id = ref.id) : ref.relabel f = ref := by
  rw [relabel, hid, Mark.relabel_eq_self hline]

mutual

/-- A tree whose labels all stay is the same. -/
theorem Expr.relabel_eq_self (hline : ∀ line, f.line line = line) (e : Expr)
    (hids : ∀ id ∈ e.ids, f.id id = id) : e.relabel f = e := by
  cases e with
  | literal value line => rw [Expr.relabel, hline]
  | grouping inner => rw [Expr.relabel, inner.relabel_eq_self hline hids]
  | unary op mark right | unpaired op mark right =>
    rw [Expr.relabel, mark.relabel_eq_self hline, right.relabel_eq_self hline hids]
  | binary op mark left right | logical op mark left right =>
    obtain ⟨hleft, hright⟩ := List.forall_mem_append.mp hids
    rw [Expr.relabel, mark.relabel_eq_self hline, left.relabel_eq_self hline hleft,
      right.relabel_eq_self hline hright]
  | conditional condition yes no =>
    obtain ⟨hboth, hno⟩ := List.forall_mem_append.mp hids
    obtain ⟨hcondition, hyes⟩ := List.forall_mem_append.mp hboth
    rw [Expr.relabel, condition.relabel_eq_self hline hcondition, yes.relabel_eq_self hline hyes,
      no.relabel_eq_self hline hno]
  | comma left right =>
    obtain ⟨hleft, hright⟩ := List.forall_mem_append.mp hids
    rw [Expr.relabel, left.relabel_eq_self hline hleft, right.relabel_eq_self hline hright]
  | name ref | this ref => rw [Expr.relabel, Ref.relabel_eq_self hline (hids ref.id List.mem_cons_self)]
  | assign ref value =>
    obtain ⟨hvalue, href⟩ := List.forall_mem_append.mp hids
    rw [Expr.relabel, Ref.relabel_eq_self hline (href ref.id List.mem_cons_self),
      value.relabel_eq_self hline hvalue]
  | call callee paren arguments =>
    obtain ⟨hcallee, harguments⟩ := List.forall_mem_append.mp hids
    rw [Expr.relabel, callee.relabel_eq_self hline hcallee, paren.relabel_eq_self hline,
      Expr.relabelAll_eq_self hline arguments harguments]
  | get object property =>
    rw [Expr.relabel, object.relabel_eq_self hline hids, property.relabel_eq_self hline]
  | set object property value =>
    obtain ⟨hvalue, hobject⟩ := List.forall_mem_append.mp hids
    rw [Expr.relabel, object.relabel_eq_self hline hobject, property.relabel_eq_self hline,
      value.relabel_eq_self hline hvalue]
  | super ref method =>
    rw [Expr.relabel, Ref.relabel_eq_self hline (hids ref.id List.mem_cons_self),
      method.relabel_eq_self hline]
  | lambda keyword code =>
    rw [Expr.relabel, keyword.relabel_eq_self hline, code.relabel_eq_self hline hids]

theorem Expr.relabelAll_eq_self (hline : ∀ line, f.line line = line) (es : List Expr)
    (hids : ∀ id ∈ Expr.idsAll es, f.id id = id) : Expr.relabelAll f es = es := by
  cases es with
  | nil => rfl
  | cons e rest =>
    obtain ⟨he, hrest⟩ := List.forall_mem_append.mp hids
    rw [Expr.relabelAll, e.relabel_eq_self hline he, Expr.relabelAll_eq_self hline rest hrest]

theorem Lambda.relabel_eq_self (hline : ∀ line, f.line line = line) (code : Lambda)
    (hids : ∀ id ∈ code.ids, f.id id = id) : code.relabel f = code := by
  obtain ⟨params, body⟩ := code
  have hparams : params.map (Mark.relabel f) = params :=
    List.map_id'' (Mark.relabel_eq_self hline) params
  rw [Lambda.relabel, hparams, Stmt.relabelAll_eq_self hline body hids]

theorem Definition.relabelAll_eq_self (hline : ∀ line, f.line line = line) (ds : List Definition)
    (hids : ∀ id ∈ Definition.idsAll ds, f.id id = id) : Definition.relabelAll f ds = ds := by
  cases ds with
  | nil => rfl
  | cons d rest =>
    obtain ⟨name, code⟩ := d
    obtain ⟨hcode, hrest⟩ := List.forall_mem_append.mp hids
    rw [Definition.relabelAll, Definition.relabel, name.relabel_eq_self hline,
      code.relabel_eq_self hline hcode, Definition.relabelAll_eq_self hline rest hrest]

/-- A statement stays if lines do and the numbers of its occurrences do. -/
theorem Stmt.relabel_eq_self (hline : ∀ line, f.line line = line) (s : Stmt)
    (hids : ∀ id ∈ s.ids, f.id id = id) : s.relabel f = s := by
  cases s with
  | expression value => rw [Stmt.relabel, value.relabel_eq_self hline hids]
  | print keyword value =>
    rw [Stmt.relabel, keyword.relabel_eq_self hline, value.relabel_eq_self hline hids]
  | var name initial =>
    cases initial with
    | none => rw [Stmt.relabel, name.relabel_eq_self hline]
    | some initial => rw [Stmt.relabel, name.relabel_eq_self hline, initial.relabel_eq_self hline hids]
  | function definition =>
    obtain ⟨name, code⟩ := definition
    rw [Stmt.relabel, Definition.relabel, name.relabel_eq_self hline, code.relabel_eq_self hline hids]
  | «class» name superclass methods =>
    cases superclass with
    | none =>
      rw [Stmt.relabel, name.relabel_eq_self hline, Definition.relabelAll_eq_self hline methods hids]
      rfl
    | some parent =>
      obtain ⟨hparent, hmethods⟩ := List.forall_mem_cons.mp hids
      rw [Stmt.relabel, name.relabel_eq_self hline, Definition.relabelAll_eq_self hline methods hmethods,
        Option.map_some, Ref.relabel_eq_self hline hparent]
  | block body => rw [Stmt.relabel, Stmt.relabelAll_eq_self hline body hids]
  | «if» condition yes no =>
    cases no with
    | none =>
      obtain ⟨hcondition, hyes⟩ := List.forall_mem_append.mp hids
      rw [Stmt.relabel, condition.relabel_eq_self hline hcondition, yes.relabel_eq_self hline hyes]
    | some no =>
      obtain ⟨hboth, hno⟩ := List.forall_mem_append.mp hids
      obtain ⟨hcondition, hyes⟩ := List.forall_mem_append.mp hboth
      rw [Stmt.relabel, condition.relabel_eq_self hline hcondition, yes.relabel_eq_self hline hyes,
        no.relabel_eq_self hline hno]
  | «while» condition body =>
    obtain ⟨hcondition, hbody⟩ := List.forall_mem_append.mp hids
    rw [Stmt.relabel, condition.relabel_eq_self hline hcondition, body.relabel_eq_self hline hbody]
  | «return» keyword value =>
    cases value with
    | none => rw [Stmt.relabel, keyword.relabel_eq_self hline]
    | some value => rw [Stmt.relabel, keyword.relabel_eq_self hline, value.relabel_eq_self hline hids]
  | «break» keyword => rw [Stmt.relabel, keyword.relabel_eq_self hline]

theorem Stmt.relabelAll_eq_self (hline : ∀ line, f.line line = line) (body : List Stmt)
    (hids : ∀ id ∈ Stmt.idsAll body, f.id id = id) : Stmt.relabelAll f body = body := by
  cases body with
  | nil => rfl
  | cons s rest =>
    obtain ⟨hs, hrest⟩ := List.forall_mem_append.mp hids
    rw [Stmt.relabelAll, s.relabel_eq_self hline hs, Stmt.relabelAll_eq_self hline rest hrest]

end

end Stay

theorem Stmt.relabel_same (s : Stmt) : s.relabel .same = s :=
  s.relabel_eq_self (fun _ => rfl) fun _ _ => rfl

theorem Stmt.relabelAll_same (body : List Stmt) : Stmt.relabelAll .same body = body :=
  Stmt.relabelAll_eq_self (fun _ => rfl) body fun _ _ => rfl

end Lox
