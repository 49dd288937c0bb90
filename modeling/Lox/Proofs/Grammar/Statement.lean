import Lox.Proofs.Grammar.Expression

namespace Lox.Grammar.Rules

variable {r : Rules} {lo hi : Nat}

/-- A round is numbered if its parts are. -/
private theorem numbered_iteration {increment : Option Expr} {body : Stmt} {mid : Nat}
    (hincrement : ∀ e, increment = some e → e.Numbered lo mid) (hbody : body.Numbered mid hi)
    (hdeclares : body.declares = []) (hlo : lo ≤ mid) (hhi : mid ≤ hi) :
    (iteration increment body).Numbered lo hi ∧ (iteration increment body).declares = [] := by
  cases increment with
  | none => exact ⟨hbody.mono hlo (Nat.le_refl hi), hdeclares⟩
  | some e =>
    obtain ⟨hproper, hfresh⟩ := hincrement e rfl
    refine ⟨⟨⟨hbody.1, hproper, trivial⟩, ?_⟩, rfl⟩
    have hids : Fresh lo hi (body.ids ++ e.ids) := hfresh.prepend hbody.2 hlo hhi
    simpa [iteration, Stmt.ids, Stmt.idsAll] using hids

private theorem numbered_loop (line : Nat) {condition : Option Expr} {body : Stmt} {mid : Nat}
    (hcondition : ∀ e, condition = some e → e.Numbered lo mid) (hbody : body.Numbered mid hi)
    (hdeclares : body.declares = []) (hlo : lo ≤ mid) (hhi : mid ≤ hi) :
    (Stmt.while (condition.getD (.literal (.bool true) line)) body).Numbered lo hi := by
  have hover : (condition.getD (.literal (.bool true) line)).Numbered lo mid := by
    cases condition with
    | none => exact ⟨trivial, .nil⟩
    | some e => exact hcondition e rfl
  exact ⟨⟨hover.1, hbody.1, hdeclares⟩, hover.2.append hbody.2 hlo hhi⟩

/-- What a loop over clauses comes down to is numbered if its clauses are, in the order in which
    they stand. -/
private theorem numbered_forLoop (line : Nat) {initial : Option Stmt}
    {condition increment : Option Expr} {body : Stmt} {mid mid' mid'' : Nat}
    (hinitial : ∀ s, initial = some s → s.Numbered lo mid)
    (hcondition : ∀ e, condition = some e → e.Numbered mid mid')
    (hincrement : ∀ e, increment = some e → e.Numbered mid' mid'') (hbody : body.Numbered mid'' hi)
    (hdeclares : body.declares = []) (hmid : lo ≤ mid) (hmid' : mid ≤ mid') (hmid'' : mid' ≤ mid'')
    (hhi : mid'' ≤ hi) :
    (forLoop line initial condition increment body).Numbered lo hi ∧
      (forLoop line initial condition increment body).declares = [] := by
  obtain ⟨hrepeated, hnone⟩ := numbered_iteration hincrement hbody hdeclares hmid'' hhi
  have hloop := numbered_loop line hcondition hrepeated hnone hmid' (Nat.le_trans hmid'' hhi)
  cases initial with
  | none => exact ⟨hloop.mono hmid (Nat.le_refl hi), hnone⟩
  | some s =>
    obtain ⟨hproper, hfresh⟩ := hinitial s rfl
    refine ⟨⟨⟨hproper, hloop.1, trivial⟩, ?_⟩, rfl⟩
    have hids := hfresh.append hloop.2 hmid (by omega)
    simpa [forLoop, Stmt.ids, Stmt.idsAll] using hids

section Function

variable (hr : r.Sound)
include hr

theorem reads_expressionStatement : Reads r.expressionStatement fun s lo hi =>
    s.Numbered lo hi ∧ s.declares = [] := by
  refine (reads_assignment hr).bind fun value lo => (reads_expect _).bind fun _ mid => ?_
  apply reads_pure
  intro n hn _ _ _ _ hvalue
  exact ⟨hvalue.mono (Nat.le_refl lo) hn, rfl⟩

/-- A variable is numbered: its name is none of the language's own. -/
theorem reads_readVar : Reads r.readVar Stmt.Numbered := by
  have hrest : ∀ (name : Mark) (initial : Option Expr) (lo : Nat), Reads (do
      let _ ← expect .variableEnd
      return Stmt.var name initial) fun s mid hi => lo ≤ mid → mid ≤ hi → name.Plain →
        (∀ e, initial = some e → e.Numbered lo mid) → s.Numbered lo hi := by
    intro name initial lo
    refine (reads_expect _).bind fun _ mid => reads_pure fun n _ _ _ _ hhi hname hinitial => ?_
    cases initial with
    | none => exact ⟨hname, .nil⟩
    | some e =>
      obtain ⟨hproper, hfresh⟩ := hinitial e rfl
      exact ⟨⟨hname, hproper⟩, hfresh.mono (Nat.le_refl lo) hhi⟩
  refine (reads_expectName _).bind fun name lo => (reads_accept _).bind fun equals mid => ?_
  cases equals with
  | none =>
    apply (hrest name .none lo).mono
    intro s mid' hi hhi hs hmid' _ _ hlo _ hname
    exact hs (by omega) hhi hname nofun
  | some _ =>
    apply (reads_assignment hr).some.bind
    intro initial mid'
    apply (hrest name initial mid').mono
    intro s mid'' hi hhi hs hmid'' _ hinitial hmid' _ _ hlo _ hname
    exact (hs hmid'' hhi hname hinitial).mono (Nat.le_trans hlo hmid') (Nat.le_refl hi)

/-- An expression that may be left out. -/
theorem reads_expressionUnless (kind : TokenKind) : Reads (r.expressionUnless kind) fun found lo hi =>
    ∀ e, found = some e → e.Numbered lo hi := by
  apply (reads_next _).bind
  intro absent lo
  split
  · exact reads_pure fun n _ _ _ => nofun
  · apply (reads_assignment hr).some.mono
    intro found mid hi _ hfound hlo _ _ e he
    exact (hfound e he).mono hlo (Nat.le_refl hi)

/-- A loop over clauses is numbered, and declares nothing outside of itself. -/
theorem reads_readFor (line : Nat) : Reads (r.readFor line) fun s lo hi =>
    s.Numbered lo hi ∧ s.declares = [] := by
  -- Behind the first clause all three forms of the loop are read alike.
  have hrest : ∀ (initial : Option Stmt) (lo : Nat), Reads (do
      let condition ← r.expressionUnless .semicolon
      let _ ← expect .forCondition
      let increment ← r.expressionUnless .rightParen
      let _ ← expect .forClausesEnd
      let body ← r.statement
      return forLoop line initial condition increment body) fun s mid hi =>
        lo ≤ mid → mid ≤ hi → (∀ s, initial = some s → s.Numbered lo mid) →
          s.Numbered lo hi ∧ s.declares = [] := by
    intro initial lo
    refine (reads_expressionUnless hr _).bind fun condition mid => (reads_expect _).bind fun _ mid' => ?_
    apply (reads_expressionUnless hr _).bind
    intro increment mid''
    refine (reads_expect _).bind fun _ last => hr.statement.bind fun body last' => reads_pure fun n => ?_
    intro hn _ hbody hlast' _ _ hlast _ hincrement hmid'' _ _ hmid' _ hcondition hmid _ hinitial
    exact numbered_forLoop line hinitial hcondition
      (fun e he => (hincrement e he).mono hmid'' (Nat.le_refl _)) (hbody.1.mono hlast' (Nat.le_refl _))
      hbody.2 hmid hmid' (by omega) (by omega)
  refine (reads_expect _).bind fun _ lo => (reads_accept _).bind fun empty mid => ?_
  cases empty with
  | some _ =>
    apply (hrest .none mid).mono
    intro s mid' hi hhi hs hmid' _ _ hlo _ _
    obtain ⟨hnumbered, hnone⟩ := hs hmid' hhi nofun
    exact ⟨hnumbered.mono hlo (Nat.le_refl hi), hnone⟩
  | none =>
    apply (reads_accept _).bind
    intro declared mid'
    cases declared with
    | some _ =>
      apply (reads_readVar hr).some.bind
      intro initial mid''
      apply (hrest initial mid'').mono
      intro s last hi hhi hs hlast _ hinitial hmid'' _ _ hmid' _ _ hmid _ _
      obtain ⟨hnumbered, hnone⟩ := hs hlast hhi hinitial
      exact ⟨hnumbered.mono (by omega) (Nat.le_refl hi), hnone⟩
    | none =>
      apply (reads_expressionStatement hr).some.bind
      intro initial mid''
      apply (hrest initial mid'').mono
      intro s last hi hhi hs hlast _ hinitial hmid'' _ _ hmid' _ _ hmid _ _
      obtain ⟨hnumbered, hnone⟩ := hs hlast hhi fun s hs => (hinitial s hs).1
      exact ⟨hnumbered.mono (by omega) (Nat.le_refl hi), hnone⟩

theorem reads_readWhile : Reads r.readWhile fun s lo hi => s.Numbered lo hi ∧ s.declares = [] := by
  refine (reads_expect _).bind fun _ lo => (reads_assignment hr).bind fun condition mid => ?_
  refine (reads_expect _).bind fun _ mid' => hr.statement.bind fun body mid'' => reads_pure fun n => ?_
  intro _ _ hbody hmid'' _ _ hmid' _ hcondition hmid _ _
  refine ⟨⟨⟨hcondition.1, hbody.1.1, hbody.2⟩, ?_⟩, hbody.2⟩
  exact (hcondition.2.append (hbody.1.2.mono hmid'' (Nat.le_refl n)) hmid' (by omega)).mono hmid
    (Nat.le_refl n)

theorem reads_readIf : Reads r.readIf fun s lo hi => s.Numbered lo hi ∧ s.declares = [] := by
  refine (reads_expect _).bind fun _ lo => (reads_assignment hr).bind fun condition mid => ?_
  refine (reads_expect _).bind fun _ mid' => hr.statement.bind fun yes mid'' => ?_
  apply (reads_accept _).bind
  intro alternative last
  cases alternative with
  | none =>
    apply reads_pure
    intro n hn _ _ hlast _ hyes hmid'' _ _ hmid' _ hcondition hmid _ _
    refine ⟨⟨⟨hcondition.1, hyes.1.1, hyes.2⟩, ?_⟩, hyes.2⟩
    exact (hcondition.2.append (hyes.1.2.mono hmid'' hn) hmid' (by omega)).mono hmid (Nat.le_refl n)
  | some _ =>
    refine hr.statement.some.bind fun no last' => reads_pure fun n => ?_
    intro _ _ hno hlast' _ _ hlast _ hyes hmid'' _ _ hmid' _ hcondition hmid _ _
    have hboth : Fresh mid last (condition.ids ++ yes.ids) :=
      hcondition.2.append (hyes.1.2.mono hmid'' (Nat.le_refl _)) (by omega) (by omega)
    cases no with
    | none =>
      refine ⟨⟨⟨hcondition.1, hyes.1.1, hyes.2⟩, ?_⟩, hyes.2⟩
      exact hboth.mono hmid (by omega)
    | some no =>
      obtain ⟨⟨hproper, hfresh⟩, hnone⟩ := hno no rfl
      refine ⟨⟨⟨hcondition.1, hyes.1.1, hproper, hyes.2, hnone⟩, ?_⟩, ?_⟩
      · exact (hboth.append (hfresh.mono hlast' (Nat.le_refl n)) (by omega) (by omega)).mono hmid
          (Nat.le_refl n)
      · simp [Stmt.declares, hyes.2, hnone]

theorem reads_readPrint (keyword : Mark) : Reads (r.readPrint keyword) fun s lo hi =>
    s.Numbered lo hi ∧ s.declares = [] := by
  refine (reads_assignment hr).bind fun value lo => (reads_expect _).bind fun _ mid => ?_
  apply reads_pure
  intro n hn _ _ _ _ hvalue
  exact ⟨hvalue.mono (Nat.le_refl lo) hn, rfl⟩

theorem reads_readReturn (keyword : Mark) : Reads (r.readReturn keyword) fun s lo hi =>
    s.Numbered lo hi ∧ s.declares = [] := by
  refine (reads_expressionUnless hr _).bind fun value lo => (reads_expect _).bind fun _ mid => ?_
  apply reads_pure
  intro n hn _ _ _ _ hvalue
  cases value with
  | none => exact ⟨⟨trivial, .nil⟩, rfl⟩
  | some value => exact ⟨(hvalue value rfl).mono (Nat.le_refl lo) hn, rfl⟩

omit hr in
theorem reads_readBreak (keyword : Mark) : Reads (readBreak keyword) fun s lo hi =>
    s.Numbered lo hi ∧ s.declares = [] := by
  have hrest : Reads (do
      let _ ← expect .breakEnd
      return Stmt.break keyword) fun s lo hi => s.Numbered lo hi ∧ s.declares = [] :=
    (reads_expect _).bind fun _ _ => reads_pure fun _ _ _ _ => ⟨⟨trivial, .nil⟩, rfl⟩
  apply reads_get.bind
  intro s lo
  split
  · refine (reads_report _ _).bind fun _ mid => hrest.mono fun _ _ _ _ hreported => hreported.elim
  · refine hrest.mono fun _ hs hlo _ _ => ⟨hs.1.mono hlo (Nat.le_refl _), hs.2⟩

/-- A statement that is no declaration is numbered and declares nothing. -/
theorem reads_statementRule : Reads r.statementRule fun s lo hi =>
    s.Numbered lo hi ∧ s.declares = [] := by
  apply (reads_take? _).bind
  intro found lo
  refine Reads.mono (Q := fun s lo hi => s.Numbered lo hi ∧ s.declares = []) ?_
    fun _ hs hlo _ _ => ⟨hs.1.mono hlo (Nat.le_refl _), hs.2⟩
  cases found with
  | none => exact reads_expressionStatement hr
  | some found =>
    obtain ⟨start, mark⟩ := found
    cases start with
    | «for» => exact (reads_readFor hr _).within _
    | «if» => exact reads_readIf hr
    | «while» => exact (reads_readWhile hr).within _
    | «return» => exact reads_readReturn hr _
    | «break» => exact reads_readBreak _
    | block =>
      exact (reads_block hr).bind fun body mid => reads_pure fun n _ _ hbody => ⟨hbody, rfl⟩
    | print => exact reads_readPrint hr _

theorem reads_definition (role : CodeRole) (name : NameRole) :
    Reads (r.definition role name) fun d lo hi => d.name.Plain ∧ d.Numbered lo hi := by
  refine (reads_expectName _).bind fun name lo => (reads_code hr _).bind fun code mid => ?_
  exact reads_pure fun n _ _ hcode hlo _ hname => ⟨hname, hcode.mono hlo (Nat.le_refl n)⟩

/-- Methods are numbered behind those already read. -/
theorem reads_methods (count : Nat) (before : List Definition) :
    Reads (r.methods count before) (Behind Definition.Numbered before) := by
  induction count generalizing before with
  | zero => exact reads_pure fun n => .nil before n
  | succ count ih =>
    refine reads_atEnd.bind fun ended lo => (reads_next _).bind fun closed mid => ?_
    split
    · apply reads_pure
      intro n hmid _ _ hlo _ _
      exact (Behind.nil before n).below (Nat.le_trans hlo hmid) fun h => h.mono (by omega) (by omega)
    · apply (reads_definition hr _ _).bind
      intro d mid'
      apply (ih (d :: before)).mono
      intro methods mid'' hi hhi hmethods hmid' _ hd hmid _ _ hlo _ _
      exact hmethods.cons (hd.2.mono (by omega) (Nat.le_refl _)) (by omega) hhi

/-- A class is numbered: the number of its superclass comes before those of its methods. -/
theorem reads_readClass : Reads r.readClass Stmt.Numbered := by
  -- With a superclass or without, the methods are read alike.
  have hrest : ∀ (name : Mark) (superclass : Option Ref) (lo : Nat), Reads (do
      let _ ← expect .classBody
      let methods ← r.methods r.bound []
      let _ ← expect .classEnd
      return Stmt.class name superclass methods) fun s mid hi => lo ≤ mid → mid ≤ hi → name.Plain →
        (∀ parent, superclass = some parent → parent.mark.Plain ∧ lo ≤ parent.id ∧ parent.id < mid) →
          s.Numbered lo hi := by
    intro name superclass lo
    refine (reads_expect _).bind fun _ mid => (reads_methods hr _ _).bind fun methods mid' => ?_
    refine (reads_expect _).bind fun _ mid'' => reads_pure fun n => ?_
    intro hn _ _ hmid'' _ hmethods hmid' _ _ hmid _ hname hparent
    obtain ⟨hproper, hfresh⟩ := hmethods.spread.definitions
    cases superclass with
    | none => exact ⟨⟨hname, hproper⟩, hfresh.mono (by omega) hn⟩
    | some parent =>
      obtain ⟨hplain, hlo, hhi⟩ := hparent parent rfl
      refine ⟨⟨hname, hplain, hproper⟩, ?_⟩
      exact (Fresh.single hlo hhi).append (hfresh.mono hmid' hn) hmid (by omega)
  refine (reads_expectName _).bind fun name lo => (reads_accept _).bind fun inherits mid => ?_
  cases inherits with
  | none =>
    apply (hrest name .none mid).mono
    intro s mid' hi hhi hs hmid' _ _ hlo _ hname
    exact (hs hmid' hhi hname nofun).mono hlo (Nat.le_refl hi)
  | some _ =>
    refine (reads_expectName _).bind fun mark mid' => reads_freshId.bind fun id mid'' => ?_
    apply (hrest name (some ⟨id, mark⟩) mid'').mono
    -- The superclass is the one name of a class that takes a number, just before those of the
    -- methods.
    intro s last hi hhi hs
    rintro hlast _ ⟨rfl, rfl⟩ hmid'' _ hmark hmid' _ _ hmid _ hname
    refine (hs hlast hhi hname ?_).mono (by omega) (Nat.le_refl hi)
    rintro parent ⟨⟩
    exact ⟨hmark, Nat.le_refl _, Nat.lt_succ_self _⟩

omit hr in
theorem reads_definesFunction : Reads definesFunction fun _ _ _ => True where
  ok hs hread := by
    cases hread
    exact ⟨hs, Nat.le_refl _, fun hnone => ⟨hnone, trivial⟩⟩
  error _ hread := nomatch hread

/-- A declaration is numbered. -/
theorem reads_declare : Reads r.declare Stmt.Numbered := by
  apply (reads_accept _).bind
  intro isClass lo
  cases isClass with
  | some _ => exact (reads_readClass hr).mono fun _ hs hlo _ _ => hs.mono hlo (Nat.le_refl _)
  | none =>
    apply reads_definesFunction.bind
    intro isFunction mid
    split
    · refine (reads_accept _).bind fun _ mid' => (reads_definition hr _ _).bind fun d mid'' => ?_
      obtain ⟨name, code⟩ := d
      apply reads_pure
      intro n _ _ hd hmid'' _ _ hmid' _ _ hmid _ _
      exact ⟨⟨hd.1, hd.2.1⟩, hd.2.2.mono (by omega) (Nat.le_refl n)⟩
    · apply (reads_accept _).bind
      intro isVar mid'
      cases isVar with
      | some _ =>
        apply (reads_readVar hr).mono
        intro s _ hi _ hs hmid' _ _ hmid _ _ hlo _ _
        exact hs.mono (by omega) (Nat.le_refl hi)
      | none =>
        apply (reads_statementRule hr).mono
        intro s _ hi _ hs hmid' _ _ hmid _ _ hlo _ _
        exact hs.1.mono (by omega) (Nat.le_refl hi)

/-- A declaration that fails leaves an error behind, so nothing is said about what it reads. -/
theorem reads_declarationRule : Reads r.declarationRule EntryNumbered where
  ok {s entry s'} hs hread := by
    unfold declarationRule at hread
    split at hread
    · rename_i stmt after hdeclare
      cases hread
      obtain ⟨hspelled, hnext, herrors⟩ := (reads_declare hr).ok hs hdeclare
      exact ⟨hspelled, hnext, fun hnone => (herrors hnone).imp id fun hs => ⟨stmt, rfl, hs⟩⟩
    · rename_i e after hdeclare
      cases hread
      obtain ⟨hspelled, hnext⟩ := (reads_declare hr).error hs hdeclare
      have hpassed := passes_synchronize { after with errors := e :: after.errors }
      obtain ⟨-, hid, herrors⟩ := synchronize_same { after with errors := e :: after.errors }
      refine ⟨fun t ht => hspelled t (hpassed.suffix.subset ht), by rw [hid]; exact hnext, fun hnone => ?_⟩
      rw [herrors] at hnone
      cases hnone
  error {s e s'} _ hread := by
    unfold declarationRule at hread
    split at hread <;> cases hread

theorem Sound.nest : r.nest.Sound :=
  ⟨reads_expressionAt hr, reads_statementRule hr, reads_declarationRule hr⟩

end Function

/-- The rules of every depth read what is numbered. The induction is on the depth. -/
theorem sound_below (count : Nat) : (below count).Sound := by
  induction count with
  | zero => exact ⟨fun _ => reads_fail _, reads_fail _, reads_fail _⟩
  | succ count ih =>
    have hnest := ih.nest
    exact ⟨hnest.expression, hnest.statement, hnest.declaration⟩

end Lox.Grammar.Rules
