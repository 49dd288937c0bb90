import Lox.Proofs.Token.Joining

namespace Lox

/-- The operators and marks. -/
def symbols : List (List Char × TokenKind) :=
  [(['('], .leftParen), ([')'], .rightParen), (['{'], .leftBrace), (['}'], .rightBrace),
   ([','], .comma), (['.'], .dot), (['-'], .minus), (['+'], .plus), ([';'], .semicolon),
   (['*'], .star), (['/'], .slash), (['?'], .question), ([':'], .colon), (['!'], .bang),
   (['!', '='], .bangEqual), (['='], .equal), (['=', '='], .equalEqual), (['<'], .less),
   (['<', '='], .lessEqual), (['>'], .greater), (['>', '='], .greaterEqual)]

/-- What is left of a comment after its opening, up to its end; comments inside it have ends of their
    own. -/
inductive Closing : List Char → Prop where
  | close : Closing ['*', '/']
  | nested {inner rest : List Char} (hinner : Closing inner) (hrest : Closing rest) :
      Closing ('/' :: '*' :: (inner ++ rest))
  | char {c : Char} {rest : List Char} (hopen : ¬['/', '*'] <+: c :: rest)
      (hclose : ¬['*', '/'] <+: c :: rest) (hrest : Closing rest) : Closing (c :: rest)

/-- A word of letters, digits and underscores that does not start with a digit. -/
def IsWord (text : List Char) : Prop :=
  ∃ c cs, text = c :: cs ∧ isWordStart c ∧ ∀ d ∈ cs, isWordPart d

/-- A run of digits. -/
def IsDigits (text : List Char) : Prop :=
  text ≠ [] ∧ ∀ c ∈ text, c.isDigit

/-- The lexical grammar. A string or a comment without an end is a lexeme too, which is read as an
    error. -/
inductive Lexeme : Reading → List Char → Prop where
  | blank {c : Char} (hblank : c ∈ [' ', '\r', '\t', '\n']) : Lexeme .nothing [c]
  | symbol {kind : TokenKind} {text : List Char} (hsymbol : (text, kind) ∈ symbols) :
      Lexeme (.token kind) text
  | integer {whole : List Char} (hwhole : IsDigits whole) :
      Lexeme (.token (.number (readNumber whole []))) whole
  | decimal {whole fraction : List Char} (hwhole : IsDigits whole) (hfraction : IsDigits fraction) :
      Lexeme (.token (.number (readNumber whole fraction))) (whole ++ '.' :: fraction)
  | keyword {kind : TokenKind} {text : List Char} (hword : IsWord text)
      (hkeyword : (String.ofList text, kind) ∈ TokenKind.keywords) : Lexeme (.token kind) text
  | identifier {text : List Char} (hword : IsWord text)
      (hplain : String.ofList text ∉ TokenKind.keywords.map Prod.fst) : Lexeme (.token .identifier) text
  | string {text : List Char} (hquote : '"' ∉ text) :
      Lexeme (.token (.string (String.ofList text))) ('"' :: (text ++ ['"']))
  | openString {text : List Char} (hquote : '"' ∉ text) :
      Lexeme (.error .unterminatedString) ('"' :: text)
  | lineComment {text : List Char} (hline : '\n' ∉ text) : Lexeme .nothing ('/' :: '/' :: text)
  | blockComment {text : List Char} (hclosing : Closing text) : Lexeme .nothing ('/' :: '*' :: text)
  | openComment {text : List Char} (hopen : ∀ closing, closing <+: text → ¬Closing closing) :
      Lexeme (.error .unterminatedComment) ('/' :: '*' :: text)

theorem Closing.ne_nil {text : List Char} (h : Closing text) : text ≠ [] := by
  cases h <;> exact List.cons_ne_nil _ _

namespace Piece

/-- More behind it makes no difference to the two characters at the front. -/
theorem not_prefix_append {c d e : Char} {rest : List Char} (hrest : rest ≠ [])
    (h : ¬[d, e] <+: c :: rest) (more : List Char) : ¬[d, e] <+: c :: (rest ++ more) := by
  obtain ⟨first, rest, rfl⟩ := List.exists_cons_of_ne_nil hrest
  simpa using h

/-- A character that neither opens nor closes a comment is passed alone. -/
theorem closeComment_char {c : Char} {cs : List Char} (hopen : ¬['/', '*'] <+: c :: cs)
    (hclose : ¬['*', '/'] <+: c :: cs) (depth : Nat) (seen : List Char) :
    closeComment depth seen (c :: cs) = closeComment depth (c :: seen) cs := by
  rw [closeComment]
  · rintro rest rfl rfl
    exact hopen (List.prefix_append ['/', '*'] rest)
  · rintro rest rfl rfl
    exact hclose (List.prefix_append ['*', '/'] rest)

/-- What is left of a comment ends it, and reading goes on in the one around it. -/
theorem closeComment_of_closing {text : List Char} (h : Closing text) (depth : Nat)
    (seen more : List Char) :
    closeComment depth seen (text ++ more) =
      match depth with
      | 0 => some ((text.reverse ++ seen).reverse, more)
      | depth + 1 => closeComment depth (text.reverse ++ seen) more := by
  induction h generalizing depth seen more with
  | close => cases depth <;> rfl
  | @nested inner rest _ _ ihInner ihRest =>
    rw [List.cons_append, List.cons_append, List.append_assoc, closeComment, ihInner]
    dsimp only
    rw [ihRest]
    simp
  | @char c rest hopen hclose hrest ih =>
    rw [List.cons_append, closeComment_char (not_prefix_append hrest.ne_nil hopen more)
      (not_prefix_append hrest.ne_nil hclose more), ih]
    simp

/-- The ends of so many comments inside each other, one more than `depth`. -/
inductive Closes : Nat → List Char → Prop where
  | one {text : List Char} (h : Closing text) : Closes 0 text
  | more {depth : Nat} {text rest : List Char} (h : Closing text) (hrest : Closes depth rest) :
      Closes (depth + 1) (text ++ rest)

/-- A comment inside a comment closes before what closes the outer one. -/
theorem Closes.nested {depth : Nat} {inner rest : List Char} (hinner : Closing inner)
    (h : Closes depth rest) : Closes depth ('/' :: '*' :: (inner ++ rest)) := by
  cases h with
  | one h => exact .one (.nested hinner h)
  | @more depth text rest h hrest =>
    have hmore := Closes.more (.nested hinner h) hrest
    rwa [List.cons_append, List.cons_append, List.append_assoc] at hmore

/-- What closes behind a character closes with it, if a comment is neither opened nor closed there.
    -/
theorem Closes.char {depth : Nat} {c : Char} {rest : List Char} (hopen : ¬['/', '*'] <+: c :: rest)
    (hclose : ¬['*', '/'] <+: c :: rest) (h : Closes depth rest) : Closes depth (c :: rest) := by
  cases h with
  | one h => exact .one (.char hopen hclose h)
  | @more depth text rest h hrest =>
    have hfront : c :: text <+: c :: (text ++ rest) := List.prefix_append (c :: text) rest
    exact .more (.char (fun hp => hopen (hp.trans hfront)) (fun hp => hclose (hp.trans hfront)) h) hrest

/-- Where a comment is found to end, its ends are there, and those of the comments inside it. -/
theorem closes_of_closeComment {depth : Nat} {seen cs text rest : List Char}
    (h : closeComment depth seen cs = some (text, rest)) :
    ∃ ending, text = seen.reverse ++ ending ∧ cs = ending ++ rest ∧ Closes depth ending := by
  fun_induction closeComment depth seen cs with
  | case1 depth seen tail ih =>
    obtain ⟨ending, htext, rfl, hcloses⟩ := ih h
    cases hcloses with
    | @more _ inner outer hinner houter =>
      exact ⟨'/' :: '*' :: (inner ++ outer), by simp [htext], rfl, houter.nested hinner⟩
  | case2 seen tail =>
    cases h
    exact ⟨['*', '/'], by simp, rfl, .one .close⟩
  | case3 seen tail depth ih =>
    obtain ⟨ending, htext, rfl, hcloses⟩ := ih h
    exact ⟨['*', '/'] ++ ending, by simp [htext], rfl, .more .close hcloses⟩
  | case4 depth seen c tail hopen hclose ih =>
    obtain ⟨ending, htext, rfl, hcloses⟩ := ih h
    refine ⟨c :: ending, by simp [htext], rfl, .char (fun hp => ?_) (fun hp => ?_) hcloses⟩
    · obtain ⟨more, hmore⟩ := hp.trans (List.prefix_append (c :: ending) rest)
      obtain ⟨rfl, htail⟩ := List.cons.inj hmore
      exact hopen more rfl htail.symm
    · obtain ⟨more, hmore⟩ := hp.trans (List.prefix_append (c :: ending) rest)
      obtain ⟨rfl, htail⟩ := List.cons.inj hmore
      exact hclose more rfl htail.symm
  | case5 => cases h

/-- A block comment that is closed is passed up to where it closes. -/
theorem blockComment_of_closing {text : List Char} (h : Closing text) (more : List Char) :
    blockComment (text ++ more) = ⟨.nothing, '/' :: '*' :: text, more⟩ := by
  unfold blockComment
  rw [closeComment_of_closing h]
  simp

/-- A block comment is what the grammar says, with an end or without one. -/
theorem blockComment_cases (cs : List Char) :
    (∃ text more, Closing text ∧ cs = text ++ more ∧
      blockComment cs = ⟨.nothing, '/' :: '*' :: text, more⟩) ∨
    ((∀ closing, closing <+: cs → ¬Closing closing) ∧
      blockComment cs = ⟨.error .unterminatedComment, '/' :: '*' :: cs, []⟩) := by
  cases hclose : closeComment 0 ['*', '/'] cs with
  | some found =>
    obtain ⟨text, more⟩ := found
    obtain ⟨ending, -, rfl, ⟨hending⟩⟩ := closes_of_closeComment hclose
    exact .inl ⟨ending, more, hending, rfl, blockComment_of_closing hending more⟩
  | none =>
    refine .inr ⟨?_, ?_⟩
    · rintro closing ⟨more, rfl⟩ hclosing
      rw [closeComment_of_closing hclosing] at hclose
      cases hclose
    · unfold blockComment
      rw [hclose]

theorem of_mem_takeWhile {p : Char → Bool} {c : Char} {cs : List Char} (h : c ∈ cs.takeWhile p) : p c :=
  List.all_eq_true.mp List.all_takeWhile c h

theorem lexeme_single {kind : TokenKind} {c : Char} (h : ([c], kind) ∈ symbols) (cs : List Char) :
    Lexeme (single kind c cs).reading (single kind c cs).text :=
  .symbol h

/-- An operator is a lexeme with the equals sign behind it and without. -/
theorem lexeme_operator {long short : TokenKind} {c : Char} (hlong : ([c, '='], long) ∈ symbols)
    (hshort : ([c], short) ∈ symbols) (cs : List Char) :
    Lexeme (operator long short c cs).reading (operator long short c cs).text := by
  unfold operator
  split
  · exact .symbol hlong
  · exact .symbol hshort

/-- A slash and both kinds of comments are lexemes, a comment that is not closed among them. -/
theorem lexeme_slash (cs : List Char) : Lexeme (slash cs).reading (slash cs).text := by
  unfold slash
  split
  · refine .lineComment fun hmem => ?_
    simpa using of_mem_takeWhile hmem
  · rename_i rest
    rcases blockComment_cases rest with ⟨text, more, hclosing, -, hcut⟩ | ⟨hopen, hcut⟩
    · rw [hcut]
      exact .blockComment hclosing
    · rw [hcut]
      exact .openComment hopen
  · exact lexeme_single (by decide) cs

theorem quote_not_mem_takeWhile (cs : List Char) : '"' ∉ cs.takeWhile (· != '"') := fun hmem => by
  simpa using of_mem_takeWhile hmem

/-- A string is a lexeme, with an end or without. -/
theorem lexeme_string (cs : List Char) : Lexeme (string cs).reading (string cs).text := by
  unfold string
  dsimp only
  split
  · rename_i quote rest hrest
    have hquote : quote = '"' := by
      have hne : cs.dropWhile (· != '"') ≠ [] := hrest ▸ List.cons_ne_nil _ _
      have hhead := List.head_dropWhile_not _ hne
      simpa [hrest] using hhead
    subst hquote
    exact .string (quote_not_mem_takeWhile cs)
  · exact .openString (quote_not_mem_takeWhile cs)

/-- Digits are taken as far as they go. -/
theorem isDigits_takeWhile {c : Char} (hc : c.isDigit) (cs : List Char) :
    IsDigits (c :: cs.takeWhile Char.isDigit) := by
  refine ⟨List.cons_ne_nil _ _, fun d hd => ?_⟩
  rcases List.mem_cons.mp hd with rfl | hrest
  · exact hc
  · exact of_mem_takeWhile hrest

/-- A number is a lexeme, with a point or without. -/
theorem lexeme_number {c : Char} (hc : c.isDigit) (cs : List Char) :
    Lexeme (number c cs).reading (number c cs).text := by
  unfold number
  dsimp only
  split
  · split
    · rename_i hd
      exact .decimal (isDigits_takeWhile hc cs) (isDigits_takeWhile hd _)
    · exact .integer (isDigits_takeWhile hc cs)
  · exact .integer (isDigits_takeWhile hc cs)

end Piece

/-- The table of keywords has every word once. -/
theorem TokenKind.ofWord_of_mem {word : String} {kind : TokenKind} (h : (word, kind) ∈ keywords) :
    ofWord word = kind := by
  have hall : ∀ entry ∈ keywords, ofWord entry.1 = entry.2 := by decide
  exact hall _ h

/-- Any other word is an identifier. -/
theorem TokenKind.ofWord_of_not_mem {word : String} (h : word ∉ keywords.map Prod.fst) :
    ofWord word = .identifier := by
  have hlookup : keywords.lookup word = none := by
    rw [List.lookup_eq_none_iff]
    intro entry hentry
    exact bne_iff_ne.mpr fun hsame => h (hsame ▸ List.mem_map_of_mem hentry)
  rw [ofWord, hlookup]
  rfl

namespace Piece

/-- A word is a lexeme, a keyword or not. -/
theorem lexeme_word {c : Char} (hc : isWordStart c) (cs : List Char) :
    Lexeme (word c cs).reading (word c cs).text := by
  have hword : IsWord (c :: cs.takeWhile isWordPart) :=
    ⟨c, _, rfl, hc, fun d hd => of_mem_takeWhile hd⟩
  unfold word
  dsimp only
  by_cases hmem : String.ofList (c :: cs.takeWhile isWordPart) ∈ TokenKind.keywords.map Prod.fst
  · obtain ⟨⟨_, kind⟩, hentry, rfl⟩ := List.mem_map.mp hmem
    rw [TokenKind.ofWord_of_mem hentry]
    exact .keyword hword hentry
  · rw [TokenKind.ofWord_of_not_mem hmem]
    exact .identifier hword hmem

/-- The piece at the front of a source is a lexeme, unless it is a single character that is reported. -/
theorem lexeme_cut (c : Char) (cs : List Char) :
    Lexeme (cut c cs).reading (cut c cs).text ∨
      cut c cs = ⟨.error (.unexpectedCharacter c), [c], cs⟩ := by
  unfold cut
  split
  all_goals first
    | exact .inl (lexeme_single (by decide) cs)
    | exact .inl (lexeme_operator (by decide) (by decide) cs)
    | exact .inl (.blank (by decide))
    | exact .inl (lexeme_slash cs)
    | exact .inl (lexeme_string cs)
    | skip
  split
  · rename_i hdigit
    exact .inl (lexeme_number hdigit cs)
  · split
    · rename_i hstart
      exact .inl (lexeme_word hstart cs)
    · exact .inr rfl

/-- The piece is longer than the lexeme, or it is that lexeme. -/
def Covers (piece : Piece) (reading : Reading) (text : List Char) : Prop :=
  text.length < piece.text.length ∨ text = piece.text ∧ reading = piece.reading

variable {reading : Reading} {text rest : List Char}

/-- A lexeme that is as long as the piece at most is covered by it. -/
theorem covers_of_prefix {piece : Piece} (h : text <+: piece.text)
    (hreading : text = piece.text → reading = piece.reading) : piece.Covers reading text := by
  rcases Nat.lt_or_eq_of_le h.length_le with hlt | heq
  · exact .inl hlt
  · have htext := h.eq_of_length heq
    exact .inr ⟨htext, hreading htext⟩

/-- A front part of the source whose characters are all as they should be is taken. -/
theorem prefix_takeWhile {p : Char → Bool} {source : List Char} (hall : ∀ c ∈ text, p c)
    (h : text <+: source) : text <+: source.takeWhile p := by
  obtain ⟨rest, rfl⟩ := h
  rw [List.takeWhile_append_of_pos hall]
  exact List.prefix_append _ _

/-- A digit starts a number. -/
theorem cut_of_digit {c : Char} (h : c.isDigit) (cs : List Char) : cut c cs = number c cs := by
  unfold cut
  split
  all_goals first
    | exact absurd h (by decide)
    | exact if_pos h

/-- No word starts with a digit. -/
theorem not_isDigit_of_isWordStart {c : Char} (h : isWordStart c) : ¬c.isDigit := by
  intro hdigit
  have hlast : c.val ≤ '9'.val := of_decide_eq_true (Bool.and_eq_true_iff.mp hdigit).2
  rcases Bool.or_eq_true_iff.mp h with hletter | hunderscore
  · rcases Bool.or_eq_true_iff.mp hletter with hupper | hlower
    · have hfirst : 'A'.val ≤ c.val := (of_decide_eq_true hupper).1
      exact absurd (UInt32.le_trans hfirst hlast) (by decide)
    · have hfirst : 'a'.val ≤ c.val := of_decide_eq_true (Bool.and_eq_true_iff.mp hlower).1
      exact absurd (UInt32.le_trans hfirst hlast) (by decide)
  · rw [beq_iff_eq.mp hunderscore] at hlast
    exact absurd hlast (by decide)

/-- Where a word can start, one does. -/
theorem cut_of_wordStart {c : Char} (h : isWordStart c) (cs : List Char) : cut c cs = word c cs := by
  have hdigit := not_isDigit_of_isWordStart h
  unfold cut
  split
  all_goals first
    | exact absurd h (by decide)
    | rw [if_neg hdigit, if_pos h]

/-- Digits alone are no longer than the number at their front. -/
theorem covers_integer {c : Char} {cs : List Char} (h : IsDigits text) (hsource : text ++ rest = c :: cs) :
    (cut c cs).Covers (.token (.number (readNumber text []))) text := by
  have hc : c.isDigit := by
    obtain ⟨d, ds, rfl⟩ := List.exists_cons_of_ne_nil h.1
    exact (List.cons.inj hsource).1 ▸ h.2 d List.mem_cons_self
  have hprefix : text <+: c :: cs.takeWhile Char.isDigit := by
    have hwhole := prefix_takeWhile h.2 (hsource ▸ List.prefix_append text rest)
    rwa [List.takeWhile_cons_of_pos hc] at hwhole
  rw [cut_of_digit hc]
  by_cases hfraction : ∃ d tail, cs.dropWhile Char.isDigit = '.' :: d :: tail ∧ d.isDigit = true
  · obtain ⟨d, tail, hrest, hd⟩ := hfraction
    rw [number_of_fraction hrest hd]
    refine .inl ?_
    have hle := hprefix.length_le
    simp only [List.length_append, List.length_cons] at hle ⊢
    omega
  · rw [number_of_whole fun d tail hrest => by simpa using fun hd => hfraction ⟨d, tail, hrest, hd⟩]
    exact covers_of_prefix hprefix fun htext => by rw [htext]

/-- Digits with a point between them are no longer than the number at their front. -/
theorem covers_decimal {c : Char} {cs whole fraction : List Char} (hwhole : IsDigits whole)
    (hfraction : IsDigits fraction) (hsource : whole ++ '.' :: fraction ++ rest = c :: cs) :
    (cut c cs).Covers (.token (.number (readNumber whole fraction))) (whole ++ '.' :: fraction) := by
  obtain ⟨c', w, rfl⟩ := List.exists_cons_of_ne_nil hwhole.1
  obtain ⟨d, ds, rfl⟩ := List.exists_cons_of_ne_nil hfraction.1
  rw [List.cons_append, List.cons_append] at hsource
  obtain ⟨rfl, rfl⟩ := List.cons.inj hsource
  have hw : ∀ x ∈ w, x.isDigit := fun x hx => hwhole.2 x (List.mem_cons_of_mem _ hx)
  have htake : (w ++ '.' :: d :: ds ++ rest).takeWhile Char.isDigit = w := by
    rw [List.append_assoc, List.takeWhile_append_of_pos hw]
    exact (congrArg (w ++ ·) (List.takeWhile_cons_of_neg (by decide))).trans (List.append_nil w)
  have hdrop : (w ++ '.' :: d :: ds ++ rest).dropWhile Char.isDigit = '.' :: d :: (ds ++ rest) := by
    rw [List.append_assoc, List.dropWhile_append_of_pos hw]
    exact List.dropWhile_cons_of_neg (by decide)
  rw [cut_of_digit (hwhole.2 c' List.mem_cons_self),
    number_of_fraction hdrop (hfraction.2 d List.mem_cons_self), htake,
    List.takeWhile_append_of_pos fun x hx => hfraction.2 x (List.mem_cons_of_mem _ hx)]
  refine covers_of_prefix ⟨rest.takeWhile Char.isDigit, by simp⟩ fun htext => ?_
  have hnone : rest.takeWhile Char.isDigit = [] := by simpa using htext
  rw [hnone, List.append_nil]

/-- A word is no longer than the one that is read, which goes on as far as it can. -/
theorem covers_word {c : Char} {cs : List Char} (h : IsWord text) (hsource : text ++ rest = c :: cs)
    {kind : TokenKind} (hkind : TokenKind.ofWord (String.ofList text) = kind) :
    (cut c cs).Covers (.token kind) text := by
  obtain ⟨c', w, rfl, hstart, hpart⟩ := h
  obtain ⟨rfl, rfl⟩ := List.cons.inj hsource
  rw [cut_of_wordStart hstart]
  have hprefix := prefix_takeWhile hpart (List.prefix_append w rest)
  refine covers_of_prefix ((List.prefix_cons_inj c').mpr hprefix) fun htext => ?_
  rw [← hkind, htext]
  rfl

/-- A string is no longer than the one that is read, since the first quote ends both. -/
theorem covers_string {cs : List Char} (h : '"' ∉ text) (hsource : text ++ '"' :: rest = cs) :
    (cut '"' cs).Covers (.token (.string (String.ofList text))) ('"' :: (text ++ ['"'])) := by
  have hall : ∀ c ∈ text, (c != '"') = true := fun c hc => bne_iff_ne.mpr fun hq => h (hq ▸ hc)
  have htake : cs.takeWhile (· != '"') = text := by
    rw [← hsource, List.takeWhile_append_of_pos hall]
    exact (congrArg (text ++ ·) (List.takeWhile_cons_of_neg (by decide))).trans (List.append_nil text)
  have hdrop : cs.dropWhile (· != '"') = '"' :: rest := by
    rw [← hsource, List.dropWhile_append_of_pos hall]
    exact List.dropWhile_cons_of_neg (by decide)
  change (string cs).Covers _ _
  unfold string
  rw [htake, hdrop]
  exact .inr ⟨rfl, rfl⟩

/-- A string without an end is no longer than what is read. -/
theorem covers_openString {cs : List Char} (h : '"' ∉ text) (hsource : text ++ rest = cs) :
    (cut '"' cs).Covers (.error .unterminatedString) ('"' :: text) := by
  have hall : ∀ c ∈ text, (c != '"') = true := fun c hc => bne_iff_ne.mpr fun hq => h (hq ▸ hc)
  have hprefix := prefix_takeWhile hall (hsource ▸ List.prefix_append text rest)
  change (string cs).Covers _ _
  unfold string
  dsimp only
  split
  · refine .inl ?_
    have hle := hprefix.length_le
    simp only [List.length_append, List.length_cons, List.length_nil]
    omega
  · exact covers_of_prefix ((List.prefix_cons_inj '"').mpr hprefix) fun _ => rfl

/-- A line comment is no longer than the one that is read. -/
theorem covers_lineComment {cs : List Char} (h : '\n' ∉ text) (hsource : '/' :: (text ++ rest) = cs) :
    (cut '/' cs).Covers .nothing ('/' :: '/' :: text) := by
  have hall : ∀ c ∈ text, (c != '\n') = true := fun c hc => bne_iff_ne.mpr fun hq => h (hq ▸ hc)
  have hprefix := prefix_takeWhile hall (List.prefix_append text rest)
  subst hsource
  exact covers_of_prefix ((List.prefix_append_right_inj ['/', '/']).mpr hprefix) fun _ => rfl

/-- A block comment is no longer than the one that is read, since it closes only once. -/
theorem covers_blockComment {cs : List Char} (h : Closing text) (hsource : '*' :: (text ++ rest) = cs) :
    (cut '/' cs).Covers .nothing ('/' :: '*' :: text) := by
  subst hsource
  change (blockComment (text ++ rest)).Covers _ _
  rw [blockComment_of_closing h]
  exact .inr ⟨rfl, rfl⟩

/-- A comment without an end is no longer than what is read. -/
theorem covers_openComment {cs : List Char} (h : ∀ closing, closing <+: text → ¬Closing closing)
    (hsource : '*' :: (text ++ rest) = cs) :
    (cut '/' cs).Covers (.error .unterminatedComment) ('/' :: '*' :: text) := by
  subst hsource
  change (blockComment (text ++ rest)).Covers _ _
  rcases blockComment_cases (text ++ rest) with ⟨ending, more, hclosing, hends, hcut⟩ | ⟨_, hcut⟩
  · rw [hcut]
    -- The comment cannot end inside the text.
    have hends' : ending <+: text ++ rest := hends ▸ List.prefix_append ending more
    rcases List.prefix_or_prefix_of_prefix hends' (List.prefix_append text rest) with hinside | hbeyond
    · exact absurd hclosing (h ending hinside)
    · refine covers_of_prefix ((List.prefix_append_right_inj ['/', '*']).mpr hbeyond) fun htext => ?_
      have hsame : text = ending := by simpa using htext
      exact absurd hclosing (hsame ▸ h text (List.prefix_refl text))
  · rw [hcut]
    exact covers_of_prefix ((List.prefix_append_right_inj ['/', '*']).mpr (List.prefix_append text rest))
      fun _ => rfl

/-- A slash is covered whatever comes behind it. -/
theorem covers_slash (cs : List Char) : (slash cs).Covers (.token .slash) ['/'] := by
  unfold slash
  split
  · exact .inl (by simp [lineComment])
  · rename_i rest
    rcases blockComment_cases rest with ⟨_, _, _, _, hcut⟩ | ⟨_, hcut⟩
    · exact .inl (by simp [hcut])
    · exact .inl (by simp [hcut])
  · exact .inr ⟨rfl, rfl⟩

/-- An operator of one character is covered, also where an equals sign comes behind it. -/
theorem covers_operator (long short : TokenKind) (c : Char) (cs : List Char) :
    (operator long short c cs).Covers (.token short) [c] := by
  unfold operator
  split
  · exact .inl (by simp)
  · exact .inr ⟨rfl, rfl⟩

/-- Every symbol is covered by what is read at its front. -/
theorem covers_symbol {c : Char} {cs : List Char} {kind : TokenKind} (h : (text, kind) ∈ symbols)
    (hsource : text ++ rest = c :: cs) : (cut c cs).Covers (.token kind) text := by
  simp only [symbols, List.mem_cons, Prod.mk.injEq, List.not_mem_nil, or_false] at h
  rcases h with ⟨rfl, rfl⟩ | ⟨rfl, rfl⟩ | ⟨rfl, rfl⟩ | ⟨rfl, rfl⟩ | ⟨rfl, rfl⟩ | ⟨rfl, rfl⟩ | ⟨rfl, rfl⟩ |
    ⟨rfl, rfl⟩ | ⟨rfl, rfl⟩ | ⟨rfl, rfl⟩ | ⟨rfl, rfl⟩ | ⟨rfl, rfl⟩ | ⟨rfl, rfl⟩ | ⟨rfl, rfl⟩ |
    ⟨rfl, rfl⟩ | ⟨rfl, rfl⟩ | ⟨rfl, rfl⟩ | ⟨rfl, rfl⟩ | ⟨rfl, rfl⟩ | ⟨rfl, rfl⟩ | ⟨rfl, rfl⟩
  all_goals
    obtain ⟨rfl, rfl⟩ := List.cons.inj hsource
    first
      | exact .inr ⟨rfl, rfl⟩
      | exact covers_slash _
      | exact covers_operator _ _ _ _

/-- No lexeme at the front of a source is longer than its first piece, and one that is as long is that
    piece. -/
theorem covers_cut {c : Char} {cs : List Char} (h : Lexeme reading text)
    (hsource : text ++ rest = c :: cs) : (cut c cs).Covers reading text := by
  cases h with
  | @blank d hblank =>
    obtain ⟨rfl, rfl⟩ := List.cons.inj hsource
    simp only [List.mem_cons, List.not_mem_nil, or_false] at hblank
    rcases hblank with rfl | rfl | rfl | rfl <;> exact .inr ⟨rfl, rfl⟩
  | symbol hsymbol => exact covers_symbol hsymbol hsource
  | integer hwhole => exact covers_integer hwhole hsource
  | decimal hwhole hfraction => exact covers_decimal hwhole hfraction hsource
  | keyword hword hkeyword => exact covers_word hword hsource (TokenKind.ofWord_of_mem hkeyword)
  | identifier hword hplain => exact covers_word hword hsource (TokenKind.ofWord_of_not_mem hplain)
  | string hquote =>
    rw [List.cons_append, List.append_assoc] at hsource
    obtain ⟨rfl, hrest⟩ := List.cons.inj hsource
    exact covers_string hquote hrest
  | openString hquote =>
    obtain ⟨rfl, hrest⟩ := List.cons.inj hsource
    exact covers_openString hquote hrest
  | lineComment hline =>
    obtain ⟨rfl, hrest⟩ := List.cons.inj hsource
    exact covers_lineComment hline hrest
  | blockComment hclosing =>
    obtain ⟨rfl, hrest⟩ := List.cons.inj hsource
    exact covers_blockComment hclosing hrest
  | openComment hopen =>
    obtain ⟨rfl, hrest⟩ := List.cons.inj hsource
    exact covers_openComment hopen hrest

end Piece

end Lox
