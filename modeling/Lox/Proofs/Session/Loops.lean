import Lox.Proofs.Grammar.Soundness.Statement
import Lox.Proofs.Rounds.Meaning
import Lox.Proofs.Run.Simulation
import Lox.Proofs.Session.Moments

namespace Lox

namespace Grammar

/-- What stands behind a `for`: in parentheses the initializer with its semicolon, the condition, a
    semicolon and the increment, each derived from the tokens in its place, and then the body. -/
inductive Clauses (c : Context) (initial : Option Stmt) (condition increment : Option Expr)
    (body : Stmt) : List Token → Prop
  | of {left semicolon right : Token} {ts ts' ts'' ts₃ : List Token} {unfinished : Bool}
      {lo mid mid' mid'' hi : Nat} (hleft : left.kind = .leftParen)
      (hinitial : Derives c.inLoop (.initial initial) ts lo mid)
      (hcondition : Derives c.inLoop (.value condition) ts' mid mid')
      (hsemicolon : semicolon.kind = .semicolon)
      (hincrement : Derives c.inLoop (.value increment) ts'' mid' mid'')
      (hright : right.kind = .rightParen)
      (hbody : Derives c.inLoop (.statement unfinished body) ts₃ mid'' hi) :
    Clauses c initial condition increment body
      (left :: (ts ++ (ts' ++ semicolon :: (ts'' ++ right :: ts₃))))

/-- A statement that begins with a `for` is made of the clauses and the body that stand behind it. -/
theorem Derives.forLoop {c : Context} {unfinished : Bool} {stmt : Stmt} {keyword : Token}
    {ts : List Token} {lo hi : Nat} (h : Derives c (.statement unfinished stmt) (keyword :: ts) lo hi)
    (hkeyword : keyword.kind = .for) :
    ∃ initial condition increment body,
      stmt = Rules.forLoop keyword.line initial condition increment body ∧
        body.isDeclaration = false ∧ Clauses c initial condition increment body ts := by
  generalize htokens : keyword :: ts = tokens at h
  cases h with
  | «for» _ hleft hinitial hcondition hsemicolon hincrement hright hbody hplain =>
    obtain ⟨rfl, rfl⟩ := List.cons.inj htokens
    exact ⟨_, _, _, _, rfl, hplain,
      .of hleft hinitial hcondition hsemicolon hincrement hright hbody⟩
  | expression hvalue _ =>
    obtain ⟨first, rest, rfl, hstart, -⟩ := hvalue.opens
    obtain ⟨rfl, -⟩ := List.cons.inj htokens
    rw [hkeyword] at hstart
    rcases hstart with hstart | ⟨hstart, -⟩ <;> cases hstart
  | print hkind | var hkind | function hkind | «class» hkind | subclass hkind | block hkind
  | «if» hkind | ifElse hkind | «while» hkind | «return» hkind | «break» hkind =>
    obtain ⟨rfl, -⟩ := List.cons.inj htokens
    cases hkeyword.symm.trans hkind

/-- What the parser makes of a `for`, with whatever clauses: they are those that it has read. -/
theorem Rules.exists_forLoop {count : Nat} {state after : State} {stmt : Stmt} {keyword : Token}
    {rest : List Token} (hread : (Rules.below count).statement state = .ok stmt after)
    (hnone : after.errors = []) (hrest : state.rest = keyword :: rest)
    (hcount : state.rest.length < count) (hkeyword : keyword.kind = .for) :
    ∃ initial condition increment body ts,
      stmt = forLoop keyword.line initial condition increment body ∧ body.isDeclaration = false ∧
        rest = ts ++ after.rest ∧ Clauses state.context initial condition increment body ts := by
  have hbound : state.rest.length < (Rules.below count).bound := by rwa [Rules.bound_below]
  obtain ⟨-, hcovers⟩ := (Rules.faithful_below count).statement.ok hread hnone
  obtain ⟨-, ts, htokens, ⟨unfinished, hderives, -⟩, -⟩ := hcovers hbound
  cases ts with
  | nil => exact absurd rfl hderives.statement_ne_nil
  | cons first ts =>
    obtain ⟨rfl, hbehind⟩ := List.cons.inj (hrest.symm.trans htokens)
    obtain ⟨initial, condition, increment, body, hstmt, hplain, hclauses⟩ := hderives.forLoop hkeyword
    exact ⟨initial, condition, increment, body, ts, hstmt, hplain, hbehind, hclauses⟩

end Grammar

/-- A frame that counts twice is still one: a name is found where it is found if the frame counts once. -/
theorem Store.owner?_twice (s : Store) (frame : Nat) (rest : Chain) (name : String) :
    s.owner? (frame :: frame :: rest) name = s.owner? (frame :: rest) name := by
  unfold Store.owner?
  rw [List.find?_cons, List.find?_cons]
  cases (s.slot? frame name).isSome <;> rfl

theorem Run.over_of_halt? {α : Type} {r : EStateM.Result Halt Machine α} (h : Run.halt? r = none) :
    Run.Over r := by
  rintro m rfl
  cases h

/-- What is asked of a loop where it begins. -/
def Moment.MeantLoop (m : Machine) : Moment → Prop
  | .executing stmt => ∀ line initial condition increment body,
      stmt = Grammar.Rules.forLoop line initial condition increment body → body.isDeclaration = false →
        ForLoopMeant line initial condition increment body m
  | _ => True

namespace Session

variable {programs : List (List Stmt)} {s : Session}

/-- The program is a loop with all its clauses that comes to its end with the given output. -/
def isLoopShowing (m : Machine) (printed : List Char) : List Stmt → Bool
  | [.block [initial, .while condition (.block [.block body, .expression increment])]] =>
    let stmt := Grammar.Rules.forLoop 1 (some initial) (some condition) (some increment) (.block body)
    let result := exec 40 stmt (m.note (resolve [stmt]).resolutions)
    (Run.halt? result).isNone && (Run.reached result).sink.pieces == printed
  | _ => false

/-- Loops mean what they say. Whatever the parser reads where a `for` stands, it is made of the initializer,
    the condition and the increment that stand behind it in this order, each of them there or not, and of
    the body behind these. And whatever a session runs, wherever it comes to such a loop: run as it is
    meant, with the initializer once in one new block, then in each round the condition, the body and,
    where that ends normally, the increment once, all of them in that one block, and until a break, the
    loop ends if and only if it ends in the syntax tree, with the same completion or error, and the
    machines are the same, output and all, but for a frame for each round of a loop with an increment,
    which is a block without a name. A frame that counts twice, as that of the loop does for the body and
    the increment then, makes no difference to what a name stands for. -/
theorem loops_mean_what_they_say (hs : Reached programs s) (mode : Mode) (fuel : Nat) (source : String) :
    (∀ {count state stmt after keyword rest},
      (Grammar.Rules.below count).statement state = .ok stmt after → after.errors = [] →
      state.rest = keyword :: rest → state.rest.length < count → keyword.kind = .for →
      ∃ initial condition increment body ts,
        stmt = Grammar.Rules.forLoop keyword.line initial condition increment body ∧
          body.isDeclaration = false ∧ rest = ts ++ after.rest ∧
          Grammar.Clauses state.context initial condition increment body ts) ∧
    (s.Always mode fuel source fun moment m => moment.MeantLoop m) ∧
    ∀ (store : Store) frame rest name,
      store.owner? (frame :: frame :: rest) name = store.owner? (frame :: rest) name := by
  refine ⟨Grammar.Rules.exists_forLoop, ?_, Store.owner?_twice⟩
  apply hs.always
  intro depths hcovers moment m hmoment
  cases moment with
  | executing stmt =>
    obtain ⟨r, hv, hm⟩ := hmoment
    rintro line initial condition increment body rfl hplain
    exact hm.forLoopMeant hcovers hv hplain
  | _ => trivial

/-- A closure of the body is what the increment takes from a call of the closure itself: both see the one
    variable of the loop, which the body has assigned. -/
theorem loops_mean_what_they_say_of_closure :
    let s := start .unlimited (.ticking 0)
    let source := "for (var f = nil; !f; f = f()) \x7b fun g() \x7b return f; \x7d f = g; print f(); \x7d"
    Reached [] s ∧ ∃ initial condition increment body,
      let stmt := Grammar.Rules.forLoop 1 (some initial) (some condition) (some increment) body
      let m := s.machine.note (resolve [stmt]).resolutions
      s.accepted? source = some [stmt] ∧
        (Run.reached (exec 40 stmt m)).sink.pieces = "<fn g>\n".toList.reverse ∧ Run.Over (exec 40 stmt m) ∧
        Run.SameButRounds m (exec 40 stmt m)
          (Run.forLoop (eval 40) (exec 40) 40 (some initial) (some condition) (some increment) body m) := by
  intro s source
  have hends : (s.accepted? source).any (isLoopShowing s.machine "<fn g>\n".toList.reverse) := by
    decide +kernel
  obtain ⟨program, haccept, hprogram⟩ := (Option.any_eq_true _ _).mp hends
  have halways := (loops_mean_what_they_say (.start .unlimited (.ticking 0)) .program 40 source).2.1
  unfold isLoopShowing at hprogram
  split at hprogram
  · rename_i initial condition body increment
    obtain ⟨hhalt, hpieces⟩ := Bool.and_eq_true_iff.mp hprogram
    have hover := Run.over_of_halt? (Option.isNone_iff_eq_none.mp hhalt)
    exact ⟨.start _ _, initial, condition, increment, .block body, haccept, beq_iff_eq.mp hpieces, hover,
      (halways.begins haccept 1 _ _ _ _ rfl rfl).1 40 hover⟩
  · cases hprogram

end Session

end Lox
