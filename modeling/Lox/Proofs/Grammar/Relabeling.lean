import Lox.Proofs.Grammar.Derivation
import Lox.Proofs.Tree.Relabeling

namespace Lox

variable (f : Relabeling)

/-- The site on its other line. -/
def Site.relabel (site : Site) : Site :=
  ⟨site.lexeme, f.line site.line⟩

/-- The error on its other line. -/
def SyntaxError.relabel (e : SyntaxError) : SyntaxError :=
  ⟨e.cause, e.site.relabel f⟩

theorem Expr.height_relabel (e : Expr) : (e.relabel f).height = e.height := by
  cases e <;> rfl

theorem Stmt.isDeclaration_relabel (s : Stmt) : (s.relabel f).isDeclaration = s.isDeclaration := by
  cases s with
  | var name initial => cases initial <;> rfl
  | «if» condition yes no => cases no <;> rfl
  | «return» keyword value => cases value <;> rfl
  | _ => rfl

theorem Stmt.relabel_var (name : Mark) (initial : Option Expr) :
    (Stmt.var name initial).relabel f = .var (name.relabel f) (initial.map (Expr.relabel f)) := by
  cases initial <;> rfl

theorem Stmt.relabel_return (keyword : Mark) (value : Option Expr) :
    (Stmt.return keyword value).relabel f =
      .return (keyword.relabel f) (value.map (Expr.relabel f)) := by
  cases value <;> rfl

namespace Grammar

/-- A round of a loop with other labels. -/
theorem Rules.iteration_relabel (increment : Option Expr) (body : Stmt) :
    (iteration increment body).relabel f =
      iteration (increment.map (Expr.relabel f)) (body.relabel f) := by
  cases increment <;> rfl

/-- A loop over clauses with other labels. -/
theorem Rules.forLoop_relabel (line : Nat) (initial : Option Stmt) (condition increment : Option Expr)
    (body : Stmt) :
    (forLoop line initial condition increment body).relabel f =
      forLoop (f.line line) (initial.map (Stmt.relabel f)) (condition.map (Expr.relabel f))
        (increment.map (Expr.relabel f)) (body.relabel f) := by
  have hloop (condition : Expr) : (Stmt.while condition (iteration increment body)).relabel f =
      .while (condition.relabel f) (iteration (increment.map (Expr.relabel f)) (body.relabel f)) := by
    rw [Stmt.relabel, iteration_relabel]
  cases initial with
  | none => cases condition <;> exact hloop _
  | some s =>
    have hblock (loop : Stmt) :
        (Stmt.block [s, loop]).relabel f = .block [s.relabel f, loop.relabel f] := rfl
    cases condition <;> exact (hblock _).trans (congrArg (fun loop => Stmt.block [_, loop]) (hloop _))

/-- The phrase with other labels. -/
def Phrase.relabel : Phrase → Phrase
  | expression e => expression (e.relabel f)
  | arguments es => arguments (Expr.relabelAll f es)
  | code c => code (c.relabel f)
  | value e => value (e.map (Expr.relabel f))
  | .variable name e => .variable (name.relabel f) (e.map (Expr.relabel f))
  | initial s => initial (s.map (Stmt.relabel f))
  | statement unfinished s => statement unfinished (s.relabel f)
  | program body => program (Stmt.relabelAll f body)
  | methods ds => methods (Definition.relabelAll f ds)

/-- Names on other lines are names with other labels. -/
theorem Names.relabel {params : List Mark} {ts : List Token} (h : Names params ts) :
    Names (params.map (Mark.relabel f)) (ts.map (Token.relabel f)) := by
  induction h with
  | nil => exact .nil
  | @last name hname => exact @Names.last (name.relabel f) hname
  | @cons name comma _ _ hname hcomma hmore _ ih =>
    exact @Names.cons (name.relabel f) (comma.relabel f) _ _ hname hcomma (by simpa using hmore) ih

variable {f}

/-- What tokens say, they say on other lines as well, with the numbers that begin elsewhere. -/
theorem Derives.relabel (hid : ∀ n, f.id (n + 1) = f.id n + 1) {c : Context} {phrase : Phrase}
    {ts : List Token} {lo hi : Nat} (h : Derives c phrase ts lo hi) :
    Derives c (phrase.relabel f) (ts.map (Token.relabel f)) (f.id lo) (f.id hi) := by
  have hheight (e : Expr) := e.height_relabel f
  have on {token : Token} {kind : TokenKind} (h : token.kind = kind) :
      (token.relabel f).kind = kind := h
  have hdeclaration (s : Stmt) := s.isDeclaration_relabel f
  induction h with
  | literal hkind => exact .literal (on hkind)
  | grouping hleft _ hright ih =>
    rw [List.map_cons, List.map_append]
    exact .grouping (on hleft) ih (on hright)
  | unary hkind _ hle ih => exact .unary (on hkind) ih (by rwa [hheight])
  | binary _ hle hkind _ hlt ih ih' =>
    rw [List.map_append]
    exact .binary ih (by rwa [hheight]) (on hkind) ih' (by rwa [hheight])
  | logical _ hle hkind _ hlt ih ih' =>
    rw [List.map_append]
    exact .logical ih (by rwa [hheight]) (on hkind) ih' (by rwa [hheight])
  | conditional _ hle hquestion _ hcolon _ hno ih ih' ih'' =>
    rw [List.map_append, List.map_cons, List.map_append]
    exact .conditional ih (by rwa [hheight]) (on hquestion) ih' (on hcolon) ih'' (by rwa [hheight])
  | comma hcommas _ hle hkind _ hlt ih ih' =>
    rw [List.map_append]
    exact .comma hcommas ih (by rwa [hheight]) (on hkind) ih' (by rwa [hheight])
  | name hkind =>
    rw [hid]
    exact .name (on hkind)
  | assign htarget hequal _ ih =>
    rw [hid] at ih ⊢
    exact .assign (on htarget) (on hequal) ih
  | set _ hle hdot hproperty hequal _ ih ih' =>
    rw [List.map_append]
    exact .set ih (by rwa [hheight]) (on hdot) (on hproperty) (on hequal) ih'
  | call _ hle hleft _ hlength hright ih ih' =>
    rw [List.map_append, List.map_cons, List.map_append]
    exact .call ih (by rwa [hheight]) (on hleft) ih'
      (by rwa [Expr.relabelAll_eq_map, List.length_map]) (on hright)
  | get _ hle hdot hproperty ih =>
    rw [List.map_append]
    exact .get ih (by rwa [hheight]) (on hdot) (on hproperty)
  | this hkind =>
    rw [hid]
    exact .this (on hkind)
  | super hkind hdot hmethod =>
    rw [hid]
    exact .super (on hkind) (on hdot) (on hmethod)
  | lambda hkind _ ih => exact .lambda (on hkind) ih
  | noArguments => exact .noArguments
  | lastArgument _ ih => exact .lastArgument ih
  | moreArguments _ hcomma hmore _ ih ih' =>
    rw [List.map_append]
    exact .moreArguments ih (on hcomma) (by simpa [Expr.relabelAll_eq_map] using hmore) ih'
  | code hleft hnames hlength hright hbrace _ hclose ih =>
    rw [List.map_cons, List.map_append, List.map_cons, List.map_cons, List.map_append]
    exact .code (on hleft) (hnames.relabel f) (by rwa [List.length_map]) (on hright) (on hbrace) ih
      (on hclose)
  | noValue => exact .noValue
  | value _ ih => exact .value ih
  | expression _ hsemicolon ih =>
    rw [List.map_append]
    exact .expression ih (on hsemicolon)
  | print hkeyword _ hsemicolon ih =>
    rw [List.map_cons, List.map_append]
    exact .print (on hkeyword) ih (on hsemicolon)
  | uninitialized hname hsemicolon => exact .uninitialized (on hname) (on hsemicolon)
  | initialized hname hequal _ hsemicolon ih =>
    rw [List.map_cons, List.map_cons, List.map_append]
    exact .initialized (on hname) (on hequal) ih (on hsemicolon)
  | var hkeyword _ ih =>
    rw [Phrase.relabel, Stmt.relabel_var]
    exact .var (on hkeyword) ih
  | function hkeyword hname _ ih => exact .function (on hkeyword) (on hname) ih
  | «class» hkeyword hname hbrace _ hclose ih =>
    rw [List.map_cons, List.map_cons, List.map_cons, List.map_append]
    exact .class (on hkeyword) (on hname) (on hbrace) ih (on hclose)
  | subclass hkeyword hname hless hparent hbrace _ hclose ih =>
    rw [hid] at ih
    rw [List.map_cons, List.map_cons, List.map_cons, List.map_cons, List.map_cons, List.map_append]
    exact .subclass (on hkeyword) (on hname) (on hless) (on hparent) (on hbrace) ih (on hclose)
  | block hbrace _ hclose ih =>
    rw [List.map_cons, List.map_append]
    exact .block (on hbrace) ih (on hclose)
  | «if» hkeyword hleft _ hright _ hyes ih ih' =>
    rw [List.map_cons, List.map_cons, List.map_append]
    exact .if (on hkeyword) (on hleft) ih (on hright) ih' (by rwa [hdeclaration])
  | ifElse hkeyword hleft _ hright _ hyes helse _ hno ih ih' ih'' =>
    rw [List.map_cons, List.map_cons, List.map_append, List.map_cons, List.map_append]
    exact .ifElse (on hkeyword) (on hleft) ih (on hright) ih' (by rwa [hdeclaration]) (on helse) ih''
      (by rwa [hdeclaration])
  | «while» hkeyword hleft _ hright _ hbody ih ih' =>
    rw [List.map_cons, List.map_cons, List.map_append]
    exact .while (on hkeyword) (on hleft) ih (on hright) ih' (by rwa [hdeclaration])
  | «for» hkeyword hleft _ _ hsemicolon _ hright _ hbody ih ih' ih'' ih₃ =>
    rw [List.map_cons, List.map_cons, List.map_append, List.map_append, List.map_cons, List.map_append,
      Phrase.relabel, Rules.forLoop_relabel]
    exact .for (on hkeyword) (on hleft) ih ih' (on hsemicolon) ih'' (on hright) ih₃ (by rwa [hdeclaration])
  | noInitial hsemicolon => exact .noInitial (on hsemicolon)
  | varInitial hkeyword _ ih =>
    rw [Phrase.relabel, Option.map_some, Stmt.relabel_var]
    exact .varInitial (on hkeyword) ih
  | expressionInitial _ hsemicolon ih =>
    rw [List.map_append]
    exact .expressionInitial ih (on hsemicolon)
  | «return» hkeyword _ hsemicolon ih =>
    rw [List.map_cons, List.map_append, Phrase.relabel, Stmt.relabel_return]
    exact .return (on hkeyword) ih (on hsemicolon)
  | «break» hkeyword hloops hsemicolon => exact .break (on hkeyword) hloops (on hsemicolon)
  | nil => exact .nil
  | cons _ _ ih ih' =>
    rw [List.map_append]
    exact .cons ih ih'
  | noMethods => exact .noMethods
  | method hname _ _ ih ih' =>
    rw [List.map_cons, List.map_append]
    exact .method (on hname) ih ih'

end Grammar

end Lox
