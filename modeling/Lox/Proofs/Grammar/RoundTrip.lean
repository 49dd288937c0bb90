import Lox.Proofs.Grammar.Canonical
import Lox.Proofs.Grammar.Completeness.Statement
import Lox.Proofs.Grammar.Relabeling
import Lox.Proofs.Grammar.Soundness.Statement
import Lox.Proofs.Tree.Rendering

namespace Lox

open Grammar

theorem Expr.height_of_same {read e : Expr} (h : read.relabel .sameId = e.relabel .sameId) :
    read.height = e.height := by
  rw [← height_relabel .sameId read, h, height_relabel]

theorem Stmt.isDeclaration_of_same {read s : Stmt} (h : read.relabel .sameId = s.relabel .sameId) :
    read.isDeclaration = s.isDeclaration := by
  rw [← isDeclaration_relabel .sameId read, h, isDeclaration_relabel]

/-- Parameters with commas between them are names. -/
theorem names_params (params : List Mark) :
    Names params (commaSeparated (params.map fun param => [param.identifier])) := by
  induction params with
  | nil => exact .nil
  | cons param rest ih =>
    cases rest with
    | nil => exact @Names.last param.identifier rfl
    | cons other rest => exact @Names.cons param.identifier _ _ _ rfl rfl (List.cons_ne_nil _ _) ih

mutual

/-- The tokens of an expression that respects the ladder say that expression. -/
theorem Expr.derived {c : Context} (e : Expr) (h : e.Canonical c) (lo : Nat) :
    ∃ read hi, Derives c (.expression read) e.tokens lo hi ∧
      read.relabel .sameId = e.relabel .sameId := by
  cases e with
  | literal value line =>
    exact ⟨.literal value line, lo, @Derives.literal _ ⟨⟨"", line⟩, value.kind⟩ _ _ rfl, rfl⟩
  | grouping inner =>
    obtain ⟨inner', hi, hinner, hsame⟩ := inner.derived h lo
    exact ⟨.grouping inner', hi, .grouping rfl hinner rfl, congrArg Expr.grouping hsame⟩
  | unary op mark right =>
    obtain ⟨right', hi, hright, hsame⟩ := right.derived h.1 lo
    refine ⟨.unary op mark right', hi, ?_, by simp only [Expr.relabel, hsame]⟩
    exact @Derives.unary _ ⟨mark, op.kind⟩ _ _ _ _ _ rfl hright (Expr.height_of_same hsame ▸ h.2)
  | binary op mark left right =>
    obtain ⟨hleft, hle, hright, hlt⟩ := h
    obtain ⟨left', mid, hleft', hsame⟩ := left.derived hleft lo
    obtain ⟨right', hi, hright', hsame'⟩ := right.derived hright mid
    refine ⟨.binary op mark left' right', hi, ?_, by simp only [Expr.relabel, hsame, hsame']⟩
    exact @Derives.binary _ ⟨mark, op.kind⟩ _ _ _ _ _ _ _ _ hleft' (Expr.height_of_same hsame ▸ hle) rfl
      hright' (Expr.height_of_same hsame' ▸ hlt)
  | unpaired op mark right => exact h.elim
  | logical op mark left right =>
    obtain ⟨hleft, hle, hright, hlt⟩ := h
    obtain ⟨left', mid, hleft', hsame⟩ := left.derived hleft lo
    obtain ⟨right', hi, hright', hsame'⟩ := right.derived hright mid
    refine ⟨.logical op mark left' right', hi, ?_, by simp only [Expr.relabel, hsame, hsame']⟩
    exact @Derives.logical _ ⟨mark, op.kind⟩ _ _ _ _ _ _ _ _ hleft' (Expr.height_of_same hsame ▸ hle) rfl
      hright' (Expr.height_of_same hsame' ▸ hlt)
  | conditional condition yes no =>
    obtain ⟨hcondition, hle, hyes, hno, hle'⟩ := h
    obtain ⟨condition', mid, hcondition', hsame⟩ := condition.derived hcondition lo
    obtain ⟨yes', mid', hyes', hsame'⟩ := yes.derived hyes mid
    obtain ⟨no', hi, hno', hsame''⟩ := no.derived hno mid'
    refine ⟨.conditional condition' yes' no', hi, ?_, by simp only [Expr.relabel, hsame, hsame', hsame'']⟩
    exact .conditional hcondition' (Expr.height_of_same hsame ▸ hle) rfl hyes' rfl hno'
      (Expr.height_of_same hsame'' ▸ hle')
  | comma left right =>
    obtain ⟨hcommas, hleft, hle, hright, hlt⟩ := h
    obtain ⟨left', mid, hleft', hsame⟩ := left.derived hleft lo
    obtain ⟨right', hi, hright', hsame'⟩ := right.derived hright mid
    refine ⟨.comma left' right', hi, ?_, by simp only [Expr.relabel, hsame, hsame']⟩
    exact .comma hcommas hleft' (Expr.height_of_same hsame ▸ hle) rfl hright'
      (Expr.height_of_same hsame' ▸ hlt)
  | name ref => exact ⟨.name ⟨lo, ref.mark⟩, lo + 1, @Derives.name _ ref.mark.identifier _ rfl, rfl⟩
  | assign ref value =>
    obtain ⟨value', mid, hvalue, hsame⟩ := value.derived h (lo + 1)
    refine ⟨.assign ⟨mid, ref.mark⟩ value', mid + 1, ?_, by simp only [Expr.relabel, hsame]; rfl⟩
    exact @Derives.assign _ ref.mark.identifier _ _ _ _ _ rfl rfl hvalue
  | call callee paren arguments =>
    obtain ⟨hcallee, hle, harguments, hlimit⟩ := h
    obtain ⟨callee', mid, hcallee', hsame⟩ := callee.derived hcallee lo
    obtain ⟨arguments', hi, harguments', hsame'⟩ := Expr.derivedEach arguments harguments mid
    refine ⟨.call callee' paren arguments', hi, ?_, by simp only [Expr.relabel, hsame, hsame']⟩
    -- What is read has as many arguments as the call, though not the same numbers on their names.
    have hlength := congrArg List.length hsame'
    rw [Expr.relabelAll_eq_map, Expr.relabelAll_eq_map, List.length_map, List.length_map] at hlength
    exact @Derives.call _ _ ⟨paren, .rightParen⟩ _ _ _ _ _ _ _ hcallee' (Expr.height_of_same hsame ▸ hle)
      rfl harguments' (hlength ▸ hlimit) rfl
  | get object property =>
    obtain ⟨object', hi, hobject, hsame⟩ := object.derived h.1 lo
    refine ⟨.get object' property, hi, ?_, by simp only [Expr.relabel, hsame]⟩
    exact @Derives.get _ _ property.identifier _ _ _ _ hobject (Expr.height_of_same hsame ▸ h.2) rfl rfl
  | set object property value =>
    obtain ⟨hobject, hle, hvalue⟩ := h
    obtain ⟨object', mid, hobject', hsame⟩ := object.derived hobject lo
    obtain ⟨value', hi, hvalue', hsame'⟩ := value.derived hvalue mid
    refine ⟨.set object' property value', hi, ?_, by simp only [Expr.relabel, hsame, hsame']⟩
    exact @Derives.set _ _ property.identifier _ _ _ _ _ _ _ _ hobject' (Expr.height_of_same hsame ▸ hle) rfl
      rfl rfl hvalue'
  | this ref => exact ⟨.this ⟨lo, ref.mark⟩, lo + 1, @Derives.this _ ⟨ref.mark, .this⟩ _ rfl, rfl⟩
  | super ref method =>
    exact ⟨.super ⟨lo, ref.mark⟩ method, lo + 1,
      @Derives.super _ ⟨ref.mark, .super⟩ _ method.identifier _ rfl rfl rfl, rfl⟩
  | lambda keyword code =>
    obtain ⟨code', hi, hcode, hsame⟩ := code.derived h lo
    exact ⟨.lambda keyword code', hi, @Derives.lambda _ ⟨keyword, .fun⟩ _ _ _ _ rfl hcode,
      by simp only [Expr.relabel, hsame]⟩

/-- The tokens of expressions with commas between them derive arguments that say the same. -/
theorem Expr.derivedEach {c : Context} (es : List Expr) (h : Expr.AllCanonical c es) (lo : Nat) :
    ∃ read hi, Derives c (.arguments read) (commaSeparated (Expr.tokensEach es)) lo hi ∧
      Expr.relabelAll .sameId read = Expr.relabelAll .sameId es := by
  cases es with
  | nil => exact ⟨[], lo, .noArguments, rfl⟩
  | cons e rest =>
    obtain ⟨e', mid, he, hsame⟩ := e.derived h.1 lo
    cases rest with
    | nil => exact ⟨[e'], mid, .lastArgument he, by simp only [Expr.relabelAll, hsame]⟩
    | cons other rest =>
      obtain ⟨read, hi, hread, hsame'⟩ := Expr.derivedEach (other :: rest) h.2 mid
      refine ⟨e' :: read, hi, .moreArguments he rfl ?_ hread, ?_⟩
      · rintro rfl
        cases hsame'
      · rw [Expr.relabelAll, hsame, hsame']
        rfl

/-- The tokens of code derive code that says the same. -/
theorem Lambda.derived {c : Context} (code : Lambda) (h : code.Canonical c) (lo : Nat) :
    ∃ read hi, Derives c (.code read) code.tokens lo hi ∧ read.relabel .sameId = code.relabel .sameId := by
  obtain ⟨params, body⟩ := code
  obtain ⟨body', hi, hbody, hsame⟩ := Stmt.derivedAll body h.2 lo
  exact ⟨⟨params, body'⟩, hi, .code rfl (names_params params) h.1 rfl rfl hbody rfl,
    by simp only [Lambda.relabel, hsame]⟩

theorem Definition.derivedAll {c : Context} (ds : List Definition) (h : Definition.AllCanonical c ds)
    (lo : Nat) :
    ∃ read hi, Derives c (.methods read) (Definition.tokensAll ds) lo hi ∧
      Definition.relabelAll .sameId read = Definition.relabelAll .sameId ds := by
  cases ds with
  | nil => exact ⟨[], lo, .noMethods, rfl⟩
  | cons d rest =>
    obtain ⟨name, code⟩ := d
    obtain ⟨code', mid, hcode, hsame⟩ := code.derived h.1 lo
    obtain ⟨rest', hi, hrest, hsame'⟩ := Definition.derivedAll rest h.2 mid
    exact ⟨⟨name, code'⟩ :: rest', hi, @Derives.method _ name.identifier _ _ _ _ _ _ _ rfl hcode hrest,
      by simp only [Definition.relabelAll, Definition.relabel, hsame, hsame']⟩

/-- The tokens of a statement derive one that says the same, and tell whether a branch is left over
    behind it. -/
theorem Stmt.derived {c : Context} (s : Stmt) (h : s.Canonical c) (lo : Nat) :
    ∃ read hi, Derives c (.statement s.unfinished read) s.tokens lo hi ∧
      read.relabel .sameId = s.relabel .sameId := by
  cases s with
  | expression value =>
    obtain ⟨value', hi, hvalue, hsame⟩ := value.derived h lo
    exact ⟨.expression value', hi, .expression hvalue rfl, by simp only [Stmt.relabel, hsame]⟩
  | print keyword value =>
    obtain ⟨value', hi, hvalue, hsame⟩ := value.derived h lo
    exact ⟨.print keyword value', hi, @Derives.print _ ⟨keyword, .print⟩ _ _ _ _ _ rfl hvalue rfl,
      by simp only [Stmt.relabel, hsame]⟩
  | var name initial =>
    cases initial with
    | none =>
      exact ⟨.var name none, lo, .var rfl (@Derives.uninitialized _ name.identifier _ _ rfl rfl), rfl⟩
    | some initial =>
      obtain ⟨initial', hi, hinitial, hsame⟩ := initial.derived h lo
      refine ⟨.var name (some initial'), hi, .var rfl ?_, by simp only [Stmt.relabel, hsame]⟩
      exact @Derives.initialized _ name.identifier _ _ _ _ _ _ rfl rfl hinitial rfl
  | function definition =>
    obtain ⟨name, code⟩ := definition
    obtain ⟨code', hi, hcode, hsame⟩ := code.derived h lo
    exact ⟨.function ⟨name, code'⟩, hi, @Derives.function _ _ name.identifier _ _ _ _ rfl rfl hcode,
      by simp only [Stmt.relabel, Definition.relabel, hsame]⟩
  | «class» name superclass methods =>
    cases superclass with
    | none =>
      obtain ⟨methods', hi, hmethods, hsame⟩ := Definition.derivedAll methods h lo
      refine ⟨.class name none methods', hi, ?_, by simp only [Stmt.relabel, hsame]⟩
      exact @Derives.class _ _ name.identifier _ _ _ _ _ _ rfl rfl rfl hmethods rfl
    | some parent =>
      obtain ⟨methods', hi, hmethods, hsame⟩ := Definition.derivedAll methods h (lo + 1)
      refine ⟨.class name (some ⟨lo, parent.mark⟩) methods', hi, ?_,
        by simp only [Stmt.relabel, hsame]; rfl⟩
      exact @Derives.subclass _ _ name.identifier _ parent.mark.identifier _ _ _ _ _ _ rfl rfl rfl rfl rfl
        hmethods rfl
  | block body =>
    obtain ⟨body', hi, hbody, hsame⟩ := Stmt.derivedAll body h lo
    exact ⟨.block body', hi, .block rfl hbody rfl, by simp only [Stmt.relabel, hsame]⟩
  | «if» condition yes no =>
    cases no with
    | none =>
      obtain ⟨hcondition, hyes, hplain⟩ := h
      obtain ⟨condition', mid, hcondition', hsame⟩ := condition.derived hcondition lo
      obtain ⟨yes', hi, hyes', hsame'⟩ := yes.derived hyes mid
      refine ⟨.if condition' yes' none, hi, ?_, by simp only [Stmt.relabel, hsame, hsame']⟩
      exact .if rfl rfl hcondition' rfl hyes' (Stmt.isDeclaration_of_same hsame' ▸ hplain)
    | some no =>
      obtain ⟨hcondition, hyes, hplain, hfinished, hno, hplain'⟩ := h
      obtain ⟨condition', mid, hcondition', hsame⟩ := condition.derived hcondition lo
      obtain ⟨yes', mid', hyes', hsame'⟩ := yes.derived hyes mid
      obtain ⟨no', hi, hno', hsame''⟩ := no.derived hno mid'
      -- Only behind a finished statement does the `else` go to this `if`.
      rw [hfinished] at hyes'
      refine ⟨.if condition' yes' (some no'), hi, ?_, by simp only [Stmt.relabel, hsame, hsame', hsame'']⟩
      exact .ifElse rfl rfl hcondition' rfl hyes' (Stmt.isDeclaration_of_same hsame' ▸ hplain) rfl hno'
        (Stmt.isDeclaration_of_same hsame'' ▸ hplain')
  | «while» condition body =>
    obtain ⟨hcondition, hbody, hplain⟩ := h
    obtain ⟨condition', mid, hcondition', hsame⟩ := condition.derived hcondition lo
    obtain ⟨body', hi, hbody', hsame'⟩ := body.derived hbody mid
    refine ⟨.while condition' body', hi, ?_, by simp only [Stmt.relabel, hsame, hsame']⟩
    exact .while rfl rfl hcondition' rfl hbody' (Stmt.isDeclaration_of_same hsame' ▸ hplain)
  | «return» keyword value =>
    cases value with
    | none =>
      exact ⟨.return keyword none, lo,
        @Derives.return _ ⟨keyword, .return⟩ _ _ _ _ _ rfl .noValue rfl, rfl⟩
    | some value =>
      obtain ⟨value', hi, hvalue, hsame⟩ := value.derived h lo
      refine ⟨.return keyword (some value'), hi, ?_, by simp only [Stmt.relabel, hsame]⟩
      exact @Derives.return _ ⟨keyword, .return⟩ _ _ _ _ _ rfl (.value hvalue) rfl
  | «break» keyword =>
    exact ⟨.break keyword, lo, @Derives.break _ ⟨keyword, .break⟩ _ _ rfl h rfl, rfl⟩

/-- The tokens of statements derive statements that say the same. -/
theorem Stmt.derivedAll {c : Context} (body : List Stmt) (h : Stmt.AllCanonical c body) (lo : Nat) :
    ∃ read hi, Derives c (.program read) (Stmt.tokensAll body) lo hi ∧
      Stmt.relabelAll .sameId read = Stmt.relabelAll .sameId body := by
  cases body with
  | nil => exact ⟨[], lo, .nil, rfl⟩
  | cons s rest =>
    obtain ⟨s', mid, hs, hsame⟩ := s.derived h.1 lo
    obtain ⟨rest', hi, hrest, hsame'⟩ := Stmt.derivedAll rest h.2 mid
    exact ⟨s' :: rest', hi, .cons hs hrest, by simp only [Stmt.relabelAll, hsame, hsame']⟩

end

namespace Grammar

/-- Names show the parameters that they are read as. -/
theorem Names.shows {params : List Mark} {ts : List Token} (h : Names params ts) :
    Shows (commaSeparated (params.map fun param => [param.identifier])) ts := by
  induction h with
  | nil => exact .nil
  | last hname => exact .kept hname .nil
  | @cons name _ params _ hname hcomma hmore _ ih =>
    cases params with
    | nil => exact absurd rfl hmore
    | cons other rest => exact .kept hname (.sign hcomma nofun ih)

/-- The phrase respects the ladder, and its tokens say what these do. -/
def Phrase.Rendered (c : Context) : Phrase → List Token → Prop
  | .expression e, ts => e.Canonical c ∧ Shows e.tokens ts
  | .arguments es, ts => Expr.AllCanonical c es ∧ Shows (commaSeparated (Expr.tokensEach es)) ts
  | .code f, ts => f.Canonical c ∧ Shows f.tokens ts
  | .value none, ts => ts = []
  | .value (some e), ts => e.Canonical c ∧ Shows e.tokens ts
  | .variable name e, ts =>
    (Stmt.var name e).Canonical c ∧ ∀ keyword : Token, keyword.kind = .var →
      Shows (Stmt.var name e).tokens (keyword :: ts)
  | .initial _, _ => True
  | .statement unfinished s, ts => s.unfinished = unfinished ∧ s.Canonical c ∧ Shows s.tokens ts
  | .program body, ts => Stmt.AllCanonical c body ∧ Shows (Stmt.tokensAll body) ts
  | .methods ds, ts => Definition.AllCanonical c ds ∧ Shows (Definition.tokensAll ds) ts

/-- Where no `for` stands, which leaves no trace in the tree, the tree says all that its tokens do. -/
theorem Derives.rendered {c : Context} {phrase : Phrase} {ts : List Token} {lo hi : Nat}
    (h : Derives c phrase ts lo hi) (hfor : ∀ token ∈ ts, token.kind ≠ .for) : phrase.Rendered c ts := by
  induction h with
  | literal hkind => exact ⟨trivial, .literal hkind⟩
  | grouping hleft _ hright ih =>
    simp only [List.forall_mem_cons, List.forall_mem_append] at hfor
    obtain ⟨hinner, hshows⟩ := ih hfor.2.1
    exact ⟨hinner, .sign hleft nofun (hshows.append (.sign hright nofun .nil))⟩
  | unary hkind _ hheight ih =>
    obtain ⟨hright, hshows⟩ := ih (List.forall_mem_cons.mp hfor).2
    exact ⟨⟨hright, hheight⟩, .kept hkind hshows⟩
  | binary _ hle hkind _ hlt ih ih' | logical _ hle hkind _ hlt ih ih' =>
    simp only [List.forall_mem_cons, List.forall_mem_append] at hfor
    obtain ⟨hleft, hshows⟩ := ih hfor.1
    obtain ⟨hright, hshows'⟩ := ih' hfor.2.2
    exact ⟨⟨hleft, hle, hright, hlt⟩, hshows.append (.kept hkind hshows')⟩
  | conditional _ hle hquestion _ hcolon _ hle' ih ih' ih'' =>
    simp only [List.forall_mem_cons, List.forall_mem_append] at hfor
    obtain ⟨hcondition, hshows⟩ := ih hfor.1
    obtain ⟨hyes, hshows'⟩ := ih' hfor.2.2.1
    obtain ⟨hno, hshows''⟩ := ih'' hfor.2.2.2.2
    exact ⟨⟨hcondition, hle, hyes, hno, hle'⟩,
      hshows.append (.sign hquestion nofun (hshows'.append (.sign hcolon nofun hshows'')))⟩
  | comma hcommas _ hle hkind _ hlt ih ih' =>
    simp only [List.forall_mem_cons, List.forall_mem_append] at hfor
    obtain ⟨hleft, hshows⟩ := ih hfor.1
    obtain ⟨hright, hshows'⟩ := ih' hfor.2.2
    exact ⟨⟨hcommas, hleft, hle, hright, hlt⟩, hshows.append (.sign hkind nofun hshows')⟩
  | name hkind => exact ⟨trivial, .kept hkind .nil⟩
  | assign htarget hequal _ ih =>
    simp only [List.forall_mem_cons] at hfor
    obtain ⟨hvalue, hshows⟩ := ih hfor.2.2
    exact ⟨hvalue, .kept htarget (.sign hequal nofun hshows)⟩
  | set _ hle hdot hproperty hequal _ ih ih' =>
    simp only [List.forall_mem_cons, List.forall_mem_append] at hfor
    obtain ⟨hobject, hshows⟩ := ih hfor.1
    obtain ⟨hvalue, hshows'⟩ := ih' hfor.2.2.2.2
    exact ⟨⟨hobject, hle, hvalue⟩,
      hshows.append (.sign hdot nofun (.kept hproperty (.sign hequal nofun hshows')))⟩
  | call _ hle hleft _ hlimit hright ih ih' =>
    simp only [List.forall_mem_cons, List.forall_mem_append] at hfor
    obtain ⟨hcallee, hshows⟩ := ih hfor.1
    obtain ⟨harguments, hshows'⟩ := ih' hfor.2.2.1
    exact ⟨⟨hcallee, hle, harguments, hlimit⟩,
      hshows.append (.sign hleft nofun (hshows'.append (.kept hright .nil)))⟩
  | get _ hle hdot hproperty ih =>
    simp only [List.forall_mem_append] at hfor
    obtain ⟨hobject, hshows⟩ := ih hfor.1
    exact ⟨⟨hobject, hle⟩, hshows.append (.sign hdot nofun (.kept hproperty .nil))⟩
  | this hkind => exact ⟨trivial, .kept hkind .nil⟩
  | super hkind hdot hmethod => exact ⟨trivial, .kept hkind (.sign hdot nofun (.kept hmethod .nil))⟩
  | lambda hkind _ ih =>
    obtain ⟨hcode, hshows⟩ := ih (List.forall_mem_cons.mp hfor).2
    exact ⟨hcode, .kept hkind hshows⟩
  | noArguments => exact ⟨trivial, .nil⟩
  | lastArgument _ ih =>
    obtain ⟨he, hshows⟩ := ih hfor
    exact ⟨⟨he, trivial⟩, hshows⟩
  | @moreArguments _ _ e es _ _ _ _ _ _ hcomma hne _ ih ih' =>
    simp only [List.forall_mem_cons, List.forall_mem_append] at hfor
    obtain ⟨he, hshows⟩ := ih hfor.1
    obtain ⟨hes, hshows'⟩ := ih' hfor.2.2
    -- Behind a comma there is one more argument, so the list that is rendered has a comma there
    -- too.
    cases es with
    | nil => exact absurd rfl hne
    | cons other rest => exact ⟨⟨he, hes⟩, hshows.append (.sign hcomma nofun hshows')⟩
  | code hleft hnames hlimit hright hbrace _ hclose ih =>
    simp only [List.forall_mem_cons, List.forall_mem_append] at hfor
    obtain ⟨hbody, hshows⟩ := ih hfor.2.2.2.2.1
    exact ⟨⟨hlimit, hbody⟩, .sign hleft nofun (hnames.shows.append
      (.sign hright nofun (.sign hbrace nofun (hshows.append (.sign hclose nofun .nil)))))⟩
  | noValue => exact rfl
  | value _ ih => exact ih hfor
  | expression _ hsemicolon ih =>
    simp only [List.forall_mem_append] at hfor
    obtain ⟨hvalue, hshows⟩ := ih hfor.1
    exact ⟨rfl, hvalue, hshows.append (.sign hsemicolon nofun .nil)⟩
  | print hkeyword _ hsemicolon ih =>
    simp only [List.forall_mem_cons, List.forall_mem_append] at hfor
    obtain ⟨hvalue, hshows⟩ := ih hfor.2.1
    exact ⟨rfl, hvalue, .kept hkeyword (hshows.append (.sign hsemicolon nofun .nil))⟩
  | uninitialized hname hsemicolon =>
    exact ⟨trivial, fun _ hkeyword => .sign hkeyword nofun (.kept hname (.sign hsemicolon nofun .nil))⟩
  | initialized hname hequal _ hsemicolon ih =>
    simp only [List.forall_mem_cons, List.forall_mem_append] at hfor
    obtain ⟨hvalue, hshows⟩ := ih hfor.2.2.1
    exact ⟨hvalue, fun _ hkeyword => .sign hkeyword nofun (.kept hname (.sign hequal nofun
      (hshows.append (.sign hsemicolon nofun .nil))))⟩
  | var hkeyword _ ih =>
    obtain ⟨hvariable, hshows⟩ := ih (List.forall_mem_cons.mp hfor).2
    exact ⟨rfl, hvariable, hshows _ hkeyword⟩
  | function hkeyword hname _ ih =>
    simp only [List.forall_mem_cons] at hfor
    obtain ⟨hcode, hshows⟩ := ih hfor.2.2
    exact ⟨rfl, hcode, .sign hkeyword nofun (.kept hname hshows)⟩
  | «class» hkeyword hname hbrace _ hclose ih =>
    simp only [List.forall_mem_cons, List.forall_mem_append] at hfor
    obtain ⟨hmethods, hshows⟩ := ih hfor.2.2.2.1
    exact ⟨rfl, hmethods, .sign hkeyword nofun (.kept hname (.sign hbrace nofun
      (hshows.append (.sign hclose nofun .nil))))⟩
  | subclass hkeyword hname hless hparent hbrace _ hclose ih =>
    simp only [List.forall_mem_cons, List.forall_mem_append] at hfor
    obtain ⟨hmethods, hshows⟩ := ih hfor.2.2.2.2.2.1
    exact ⟨rfl, hmethods, .sign hkeyword nofun (.kept hname (.sign hless nofun (.kept hparent
      (.sign hbrace nofun (hshows.append (.sign hclose nofun .nil))))))⟩
  | block hbrace _ hclose ih =>
    simp only [List.forall_mem_cons, List.forall_mem_append] at hfor
    obtain ⟨hbody, hshows⟩ := ih hfor.2.1
    exact ⟨rfl, hbody, .sign hbrace nofun (hshows.append (.sign hclose nofun .nil))⟩
  | «if» hkeyword hleft _ hright _ hplain ih ih' =>
    simp only [List.forall_mem_cons, List.forall_mem_append] at hfor
    obtain ⟨hcondition, hshows⟩ := ih hfor.2.2.1
    obtain ⟨_, hyes, hshows'⟩ := ih' hfor.2.2.2.2
    exact ⟨rfl, ⟨hcondition, hyes, hplain⟩, .sign hkeyword nofun (.sign hleft nofun
      (hshows.append (.sign hright nofun hshows')))⟩
  | ifElse hkeyword hleft _ hright _ hplain hmiddle _ hplain' ih ih' ih'' =>
    simp only [List.forall_mem_cons, List.forall_mem_append] at hfor
    obtain ⟨hcondition, hshows⟩ := ih hfor.2.2.1
    obtain ⟨hfinished, hyes, hshows'⟩ := ih' hfor.2.2.2.2.1
    obtain ⟨hunfinished, hno, hshows''⟩ := ih'' hfor.2.2.2.2.2.2
    exact ⟨hunfinished, ⟨hcondition, hyes, hplain, hfinished, hno, hplain'⟩, .sign hkeyword nofun
      (.sign hleft nofun (hshows.append (.sign hright nofun
        (hshows'.append (.sign hmiddle nofun hshows'')))))⟩
  | «while» hkeyword hleft _ hright _ hplain ih ih' =>
    simp only [List.forall_mem_cons, List.forall_mem_append] at hfor
    obtain ⟨hcondition, hshows⟩ := ih hfor.2.2.1
    obtain ⟨hunfinished, hbody, hshows'⟩ := ih' hfor.2.2.2.2
    exact ⟨hunfinished, ⟨hcondition, hbody, hplain⟩, .sign hkeyword nofun (.sign hleft nofun
      (hshows.append (.sign hright nofun hshows')))⟩
  | «for» hkeyword => exact absurd hkeyword (hfor _ List.mem_cons_self)
  | noInitial | varInitial | expressionInitial => trivial
  | @«return» _ _ _ value _ _ _ hkeyword _ hsemicolon ih =>
    simp only [List.forall_mem_cons, List.forall_mem_append] at hfor
    cases value with
    | none =>
      obtain rfl := ih hfor.2.1
      exact ⟨rfl, trivial, .kept hkeyword (.sign hsemicolon nofun .nil)⟩
    | some value =>
      obtain ⟨hvalue, hshows⟩ := ih hfor.2.1
      exact ⟨rfl, hvalue, .kept hkeyword (hshows.append (.sign hsemicolon nofun .nil))⟩
  | «break» hkeyword hloops hsemicolon =>
    exact ⟨rfl, hloops, .kept hkeyword (.sign hsemicolon nofun .nil)⟩
  | nil => exact ⟨trivial, .nil⟩
  | cons _ _ ih ih' =>
    obtain ⟨hfor, hfor'⟩ := List.forall_mem_append.mp hfor
    obtain ⟨_, hs, hshows⟩ := ih hfor
    obtain ⟨hbody, hshows'⟩ := ih' hfor'
    exact ⟨⟨hs, hbody⟩, hshows.append hshows'⟩
  | noMethods => exact ⟨trivial, .nil⟩
  | method hname _ _ ih ih' =>
    simp only [List.forall_mem_cons, List.forall_mem_append] at hfor
    obtain ⟨hcode, hshows⟩ := ih hfor.2.1
    obtain ⟨hmethods, hshows'⟩ := ih' hfor.2.2
    exact ⟨⟨hcode, hmethods⟩, .kept hname (hshows.append hshows')⟩

/-- There is no end among names. -/
theorem Names.not_end {params : List Mark} {ts : List Token} (h : Names params ts) :
    ∀ token ∈ ts, token.kind ≠ .eof := by
  induction h with
  | nil => nofun
  | last hname => simp [hname]
  | cons hname hcomma _ _ ih => simp_all

/-- The end of a source is no part of what it says. -/
theorem Derives.not_end {c : Context} {phrase : Phrase} {ts : List Token} {lo hi : Nat}
    (h : Derives c phrase ts lo hi) : ∀ token ∈ ts, token.kind ≠ .eof := by
  induction h with
  | @literal _ _ value _ hkind => rcases value with x | s | (_ | _) | _ <;> simp_all [Literal.kind]
  | @unary _ _ op _ _ _ _ hkind => cases op <;> simp_all [UnaryOp.kind]
  | @binary _ _ op _ _ _ _ _ _ _ _ _ hkind =>
    have hop : op.kind ≠ .eof := by cases op <;> nofun
    simp_all [or_imp]
  | @logical _ _ op _ _ _ _ _ _ _ _ _ hkind =>
    have hop : op.kind ≠ .eof := by cases op <;> nofun
    simp_all [or_imp]
  | code _ hnames =>
    have hparams := hnames.not_end
    simp_all [or_imp]
  | _ => simp_all [or_imp]

/-- A program that respects the ladder is read back from its tokens, whatever follows their end: without
    an error, declaration by declaration, and the same but for the numbers of its occurrences. -/
theorem parse_tokens (program : List Stmt) (hcanonical : Stmt.AllCanonical ⟨0, true⟩ program)
    (ending : List Token) (hending : ∀ token ∈ ending.head?, isEnd token = true) (firstId : Nat) :
    (parse (Stmt.tokensAll program ++ ending) firstId).errors = [] ∧
      ∃ read, (parse (Stmt.tokensAll program ++ ending) firstId).entries = read.map some ∧
        Stmt.relabelAll .sameId read = Stmt.relabelAll .sameId program := by
  obtain ⟨read, nextId, hderives, hsame⟩ := Stmt.derivedAll program hcanonical firstId
  have hbefore : (Stmt.tokensAll program ++ ending).takeWhile (fun token => !isEnd token) =
      Stmt.tokensAll program := by
    rw [List.takeWhile_append_of_pos fun token htoken => by
      simpa [isEnd] using hderives.not_end token htoken]
    cases ending with
    | nil => simp
    | cons first rest => simp [hending first rfl]
  rw [parse_of_derives (hbefore ▸ hderives)]
  exact ⟨rfl, read, rfl, hsame⟩

/-- `a and b, c ? d : e;`: a comma is tighter than a conditional here, and a conditional than an `and`. -/
theorem parse_tokens_of_comma_in_condition :
    let name (text : String) : Expr := .name ⟨0, ⟨text, 1⟩⟩
    let program : List Stmt := [.expression (.logical .and ⟨"and", 1⟩ (name "a")
      (.conditional (.comma (name "b") (name "c")) (name "d") (name "e")))]
    Stmt.AllCanonical ⟨0, true⟩ program ∧
      (parse (Stmt.tokensAll program ++ [TokenKind.eof.sign]) 0).errors = [] ∧
      ∃ read, (parse (Stmt.tokensAll program ++ [TokenKind.eof.sign]) 0).entries = read.map some ∧
        Stmt.relabelAll .sameId read = Stmt.relabelAll .sameId program := by
  intro name program
  have hcanonical : Stmt.AllCanonical ⟨0, true⟩ program :=
    ⟨⟨trivial, by decide, ⟨⟨rfl, trivial, by decide, trivial, by decide⟩, by decide, trivial, trivial,
      by decide⟩, by decide⟩, trivial⟩
  exact ⟨hcanonical, parse_tokens program hcanonical [TokenKind.eof.sign] (by simp [isEnd, TokenKind.sign]) 0⟩

/-- A list whose last item at most fails a test. -/
private theorem takeWhile_eq_filter {α : Type} {p : α → Bool} {xs : List α}
    (h : ∀ x ∈ xs.dropLast, p x = true) : xs.takeWhile p = xs.filter p := by
  induction xs with
  | nil => rfl
  | cons x rest ih =>
    cases rest with
    | nil => cases hx : p x <;> simp [hx]
    | cons y rest =>
      rw [List.dropLast_cons_cons] at h
      have hx := h x List.mem_cons_self
      rw [List.takeWhile_cons_of_pos hx, List.filter_cons_of_pos hx,
        ih fun z hz => h z (List.mem_cons_of_mem x hz)]

/-- What is read without an error from tokens without a `for` is complete, respects the ladder, and has
    just these tokens, in their order. -/
theorem tokens_of_parse (tokens : List Token) (firstId : Nat)
    (hfor : ∀ token ∈ tokens, token.kind ≠ .for)
    (hend : ∀ token ∈ tokens.dropLast, isEnd token = false)
    (herrors : (parse tokens firstId).errors = []) :
    ∃ program, (parse tokens firstId).entries = program.map some ∧
      Stmt.AllCanonical ⟨0, true⟩ program ∧
      (Stmt.tokensAll program).map Token.shown =
        (tokens.filter fun token => !isEnd token).map Token.shown := by
  obtain ⟨program, hentries, hderives⟩ := derives_of_parse herrors
  rw [takeWhile_eq_filter fun token htoken => by rw [hend token htoken]; rfl] at hderives
  obtain ⟨hcanonical, hshows⟩ := hderives.rendered fun token htoken =>
    hfor token (List.mem_filter.mp htoken).1
  exact ⟨program, hentries, hcanonical, hshows⟩

/-- `a.b = c;`: what stands before the `=` was read as an access before it became a target. -/
theorem tokens_of_parse_of_assignment :
    let tokens : List Token := [⟨⟨"a", 1⟩, .identifier⟩, ⟨⟨".", 1⟩, .dot⟩, ⟨⟨"b", 1⟩, .identifier⟩,
      ⟨⟨"=", 1⟩, .equal⟩, ⟨⟨"c", 1⟩, .identifier⟩, ⟨⟨";", 1⟩, .semicolon⟩, ⟨⟨"", 1⟩, .eof⟩]
    (parse tokens 0).errors = [] ∧
      ∃ program, (parse tokens 0).entries = program.map some ∧
        Stmt.AllCanonical ⟨0, true⟩ program ∧
        (Stmt.tokensAll program).map Token.shown =
          (tokens.filter fun token => !isEnd token).map Token.shown := by
  intro tokens
  have herrors : (parse tokens 0).errors = [] := rfl
  exact ⟨herrors, tokens_of_parse tokens 0 (by simp [tokens]) (by simp [tokens, isEnd]) herrors⟩

end Grammar

end Lox
