import Lox.Proofs.Token.Spelling
import Lox.Proofs.Tree.Relabeling

namespace Lox

namespace Piece

/-- The same piece with more behind it. -/
def before (piece : Piece) (more : List Char) : Piece :=
  { piece with rest := piece.rest ++ more }

/-- Nothing is open where the source ends. -/
def Closed (piece : Piece) : Prop :=
  piece.reading ≠ .error .unterminatedString ∧ piece.reading ≠ .error .unterminatedComment

/-- What does not go past a newline takes the same where one comes behind. -/
private theorem takeWhile_before_newline {p : Char → Bool} (hp : p '\n' = false) (cs more : List Char) :
    (cs ++ '\n' :: more).takeWhile p = cs.takeWhile p := by
  induction cs with
  | nil => simp [hp]
  | cons c cs ih =>
    rw [List.cons_append, List.takeWhile_cons, List.takeWhile_cons, ih]

/-- What does not go past a newline leaves the same and what comes behind. -/
private theorem dropWhile_before_newline {p : Char → Bool} (hp : p '\n' = false) (cs more : List Char) :
    (cs ++ '\n' :: more).dropWhile p = cs.dropWhile p ++ '\n' :: more := by
  induction cs with
  | nil => simp [hp]
  | cons c cs ih =>
    rw [List.cons_append, List.dropWhile_cons, List.dropWhile_cons, ih]
    split <;> rfl

/-- What is taken off a source does not depend on what comes behind where it stops. -/
private theorem span_append {p : Char → Bool} {cs : List Char} (h : cs.dropWhile p ≠ [])
    (more : List Char) :
    (cs ++ more).takeWhile p = cs.takeWhile p ∧ (cs ++ more).dropWhile p = cs.dropWhile p ++ more := by
  induction cs with
  | nil => exact absurd rfl h
  | cons c cs ih =>
    rw [List.cons_append]
    cases hc : p c with
    | false => simp [hc]
    | true =>
      simp only [List.dropWhile_cons, hc, if_true] at h
      simp only [List.takeWhile_cons, List.dropWhile_cons, hc, if_true]
      obtain ⟨htake, hdrop⟩ := ih h
      exact ⟨congrArg (c :: ·) htake, hdrop⟩

/-- An operator is over before the newline. -/
private theorem operator_before_newline (long short : TokenKind) (c : Char) (cs more : List Char) :
    operator long short c (cs ++ '\n' :: more) = (operator long short c cs).before ('\n' :: more) := by
  cases cs with
  | nil => rfl
  | cons d cs =>
    by_cases hd : d = '='
    · subst hd
      rfl
    · simp [operator, before, hd]

/-- A comment that is closed stays so, whatever comes behind. -/
private theorem closeComment_append_right {depth : Nat} {seen cs text rest : List Char}
    (more : List Char) (h : closeComment depth seen cs = some (text, rest)) :
    closeComment depth seen (cs ++ more) = some (text, rest ++ more) := by
  fun_induction closeComment depth seen cs with
  | case1 depth seen tail ih => simpa [closeComment] using ih h
  | case2 seen tail =>
    cases h
    simp [closeComment]
  | case3 seen tail depth ih => simpa [closeComment] using ih h
  | case4 depth seen c tail hopen hclose ih =>
    cases tail with
    | nil => cases h
    | cons d tail =>
      rw [List.cons_append, List.cons_append, closeComment]
      · exact ih h
      · rintro rest rfl hd
        exact hopen tail rfl (congrArg (· :: tail) (List.cons.inj hd).1)
      · rintro rest rfl hd
        exact hclose tail rfl (congrArg (· :: tail) (List.cons.inj hd).1)
  | case5 => cases h

/-- A slash that opens no comment is an operator, whatever else comes next. -/
private theorem slash_of_ne {c : Char} (hslash : c ≠ '/') (hstar : c ≠ '*') (cs : List Char) :
    slash (c :: cs) = single .slash '/' (c :: cs) := by
  unfold slash
  split
  · rename_i h
    exact absurd (List.cons.inj h).1 hslash
  · rename_i h
    exact absurd (List.cons.inj h).1 hstar
  · rfl

/-- A line comment ends in front of the newline, and a block comment that is closed ends before it.
    -/
private theorem slash_before_newline {cs : List Char} (hclosed : (slash cs).Closed)
    (more : List Char) : slash (cs ++ '\n' :: more) = (slash cs).before ('\n' :: more) := by
  cases cs with
  | nil => rfl
  | cons c tail =>
    rw [List.cons_append]
    by_cases hslash : c = '/'
    · subst hslash
      simp only [slash, lineComment, before]
      rw [takeWhile_before_newline rfl, dropWhile_before_newline rfl]
    · by_cases hstar : c = '*'
      · subst hstar
        simp only [slash, blockComment] at hclosed ⊢
        cases hclose : closeComment 0 ['*', '/'] tail with
        | none =>
          rw [hclose] at hclosed
          exact absurd rfl hclosed.2
        | some found =>
          rw [closeComment_append_right _ hclose]
          rfl
      · rw [slash_of_ne hslash hstar, slash_of_ne hslash hstar]
        rfl

/-- A string that is closed ends before the newline. -/
private theorem string_before_newline {cs : List Char} (hclosed : (string cs).Closed)
    (more : List Char) : string (cs ++ '\n' :: more) = (string cs).before ('\n' :: more) := by
  have hquote : cs.dropWhile (· != '"') ≠ [] := by
    intro hnone
    simp [string, hnone, Closed] at hclosed
  obtain ⟨htake, hdrop⟩ := span_append hquote ('\n' :: more)
  obtain ⟨quote, rest, hrest⟩ := List.exists_cons_of_ne_nil hquote
  rw [hrest, List.cons_append] at hdrop
  simp only [string, htake, hdrop, hrest]
  rfl

/-- A number is over before the newline, also where a point comes last. -/
private theorem number_before_newline (c : Char) (cs more : List Char) :
    number c (cs ++ '\n' :: more) = (number c cs).before ('\n' :: more) := by
  have htake := takeWhile_before_newline (p := Char.isDigit) rfl cs more
  have hdrop := dropWhile_before_newline (p := Char.isDigit) rfl cs more
  by_cases hfraction : ∃ d tail, cs.dropWhile Char.isDigit = '.' :: d :: tail ∧ d.isDigit = true
  · obtain ⟨d, tail, hrest, hd⟩ := hfraction
    rw [hrest, List.cons_append, List.cons_append] at hdrop
    rw [number_of_fraction hdrop hd, number_of_fraction hrest hd, htake,
      takeWhile_before_newline (p := Char.isDigit) rfl, dropWhile_before_newline (p := Char.isDigit) rfl]
    rfl
  · have hwhole : ∀ d tail, cs.dropWhile Char.isDigit = '.' :: d :: tail → d.isDigit = false :=
      fun d tail hrest => by simpa using fun hd => hfraction ⟨d, tail, hrest, hd⟩
    have hwhole' : ∀ d tail, (cs ++ '\n' :: more).dropWhile Char.isDigit = '.' :: d :: tail →
        d.isDigit = false := by
      intro d tail hrest
      rw [hdrop] at hrest
      match hall : cs.dropWhile Char.isDigit with
      | [] => simp [hall] at hrest
      | [point] =>
        simp only [hall, List.cons_append, List.nil_append, List.cons.injEq] at hrest
        exact hrest.2.1 ▸ rfl
      | point :: d' :: tail' =>
        simp only [hall, List.cons_append, List.cons.injEq] at hrest
        obtain ⟨rfl, rfl, _⟩ := hrest
        exact hwhole d' tail' hall
    rw [number_of_whole hwhole', number_of_whole hwhole, htake, hdrop]
    rfl

/-- A word is over before the newline. -/
private theorem word_before_newline (c : Char) (cs more : List Char) :
    word c (cs ++ '\n' :: more) = (word c cs).before ('\n' :: more) := by
  have htake := takeWhile_before_newline (p := isWordPart) rfl cs more
  have hdrop := dropWhile_before_newline (p := isWordPart) rfl cs more
  simp only [word, htake, hdrop]
  rfl

/-- A newline ends every piece in front of it that is not open. -/
theorem cut_before_newline {c : Char} {cs : List Char} (hclosed : (cut c cs).Closed)
    (more : List Char) : cut c (cs ++ '\n' :: more) = (cut c cs).before ('\n' :: more) := by
  unfold cut at hclosed ⊢
  split at hclosed
  all_goals first
    | rfl
    | exact operator_before_newline _ _ _ _ _
    | exact slash_before_newline hclosed more
    | exact string_before_newline hclosed more
    | skip
  split at hclosed
  · rename_i hdigit
    rw [if_pos hdigit, if_pos hdigit]
    exact number_before_newline c cs more
  · rename_i hdigit
    rw [if_neg hdigit, if_neg hdigit]
    split
    · exact word_before_newline c cs more
    · rfl

/-- A string is no end. -/
private theorem string_ne_eof (cs : List Char) : (string cs).reading ≠ .token .eof := by
  unfold string
  dsimp only
  split <;> nofun

/-- What starts with a slash is no end. -/
private theorem slash_ne_eof (cs : List Char) : (slash cs).reading ≠ .token .eof := by
  unfold slash
  split
  · nofun
  · unfold blockComment
    split <;> nofun
  · nofun

/-- An operator is no end. -/
private theorem operator_ne_eof {long short : TokenKind} (hlong : long ≠ .eof) (hshort : short ≠ .eof)
    (c : Char) (cs : List Char) : (operator long short c cs).reading ≠ .token .eof := by
  unfold operator
  split
  · exact fun h => hlong (Reading.token.inj h)
  · exact fun h => hshort (Reading.token.inj h)

private theorem number_ne_eof (c : Char) (cs : List Char) : (number c cs).reading ≠ .token .eof := by
  unfold number
  dsimp only
  split
  · split <;> nofun
  · nofun

private theorem word_ne_eof (c : Char) (cs : List Char) : (word c cs).reading ≠ .token .eof := by
  have hkeywords : ∀ entry ∈ TokenKind.keywords, entry.2 ≠ .eof := by decide
  intro h
  exact hkeywords _ (TokenKind.mem_keywords (Reading.token.inj h) nofun) rfl

/-- No piece of a source is its end. -/
theorem cut_ne_eof (c : Char) (cs : List Char) : (cut c cs).reading ≠ .token .eof := by
  unfold cut
  split
  all_goals first
    | rintro ⟨⟩
    | exact operator_ne_eof (by nofun) (by nofun) _ _
    | exact slash_ne_eof cs
    | exact string_ne_eof cs
    | skip
  split
  · exact number_ne_eof c cs
  · split
    · exact word_ne_eof c cs
    · nofun

end Piece

/-- The error on another line. -/
def LexError.relabel (f : Relabeling) (e : LexError) : LexError :=
  ⟨e.cause, f.line e.line⟩

/-- The item on another line. -/
def Item.relabel (f : Relabeling) : Item → Item
  | token t => token (t.relabel f)
  | error e => error (e.relabel f)

/-- An item that leaves nothing open. -/
def Item.Closed : Item → Prop
  | .token _ => True
  | .error e => e.cause ≠ .unterminatedString ∧ e.cause ≠ .unterminatedComment

instance (item : Item) : Decidable item.Closed :=
  match item with
  | .token _ => .isTrue trivial
  | .error e =>
    inferInstanceAs (Decidable (e.cause ≠ .unterminatedString ∧ e.cause ≠ .unterminatedComment))

namespace Cursor

/-- A newline parts what is found in two sources, and the lines go on behind it. -/
theorem found_before_newline (line : Nat) (source more : List Char)
    (hclosed : ∀ item ∈ found line source, item.Closed) :
    found line (source ++ '\n' :: more) =
      found line source ++ found (line + newlines source + 1) more := by
  have hlines (line : Nat) (c : Char) (cs : List Char) :
      line + newlines (Piece.cut c cs).text + newlines (Piece.cut c cs).rest =
        line + newlines (c :: cs) := by rw [Nat.add_assoc, newlines_cut]
  fun_induction found line source with
  | case1 line => exact found_of_nothing rfl
  | case2 line c cs piece line' hreading ih =>
    have hcut : Piece.cut c (cs ++ '\n' :: more) = piece.before ('\n' :: more) :=
      Piece.cut_before_newline (by simp [Piece.Closed, piece, hreading]) more
    rw [List.cons_append, found_of_nothing (by rw [hcut]; exact hreading), hcut, ← hlines]
    exact ih hclosed
  | case3 line c cs piece line' kind hreading ih =>
    have hcut : Piece.cut c (cs ++ '\n' :: more) = piece.before ('\n' :: more) :=
      Piece.cut_before_newline (by simp [Piece.Closed, piece, hreading]) more
    rw [List.cons_append, found_of_token (by rw [hcut]; exact hreading), hcut, ← hlines]
    exact congrArg (_ :: ·) (ih fun item hitem => hclosed item (List.mem_cons_of_mem _ hitem))
  | case4 line c cs piece line' cause hreading ih =>
    have hfirst : cause ≠ .unterminatedString ∧ cause ≠ .unterminatedComment :=
      hclosed _ List.mem_cons_self
    have hcut : Piece.cut c (cs ++ '\n' :: more) = piece.before ('\n' :: more) :=
      Piece.cut_before_newline (by simpa [Piece.Closed, piece, hreading] using hfirst) more
    rw [List.cons_append, found_of_error (by rw [hcut]; exact hreading), hcut, ← hlines]
    exact congrArg (_ :: ·) (ih fun item hitem => hclosed item (List.mem_cons_of_mem _ hitem))

/-- On a first line that is further down the same items are found so many lines further down. -/
theorem found_relabel (k line : Nat) (source : List Char) :
    found (line + k) source = (found line source).map (Item.relabel (.ofLine (· + k))) := by
  fun_induction found line source with
  | case1 line => rw [found]; rfl
  | case2 line c cs piece line' hreading ih =>
    rw [found_of_nothing hreading, Nat.add_right_comm, ih]
  | case3 line c cs piece line' kind hreading ih =>
    rw [found_of_token hreading, Nat.add_right_comm, ih]
    rfl
  | case4 line c cs piece line' cause hreading ih =>
    rw [found_of_error hreading, Nat.add_right_comm, ih]
    rfl

/-- Nothing that is found stands for the end. -/
theorem found_not_end {line : Nat} {source : List Char} {t : Token}
    (h : Item.token t ∈ found line source) : t.kind ≠ .eof := by
  fun_induction found line source with
  | case1 => cases h
  | case2 line c cs piece line' hreading ih => exact ih h
  | case3 line c cs piece line' kind hreading ih =>
    rcases List.mem_cons.mp h with hfirst | hrest
    · obtain rfl := Item.token.inj hfirst
      rintro rfl
      exact Piece.cut_ne_eof c cs hreading
    · exact ih hrest
  | case4 line c cs piece line' cause hreading ih =>
    rcases List.mem_cons.mp h with hfirst | hrest
    · cases hfirst
    · exact ih hrest

end Cursor

/-- A source without an error leaves nothing open. -/
theorem closed_of_lexErrors {source : String} (h : lexErrors source = []) :
    ∀ item ∈ Cursor.found 1 source.toList, item.Closed := by
  intro item hitem
  cases item with
  | token t => trivial
  | error e =>
    have herror : e ∈ lexErrors source := by
      rw [lexErrors_eq]
      exact List.mem_filterMap.mpr ⟨.error e, hitem, rfl⟩
    rw [h] at herror
    cases herror

/-- The end of a source is none of the tokens in front of it. -/
theorem bodyTokens_not_end {source : String} {t : Token} (h : t ∈ bodyTokens source) :
    t.kind ≠ .eof := by
  obtain ⟨item, hitem, htoken⟩ := List.mem_filterMap.mp h
  cases item with
  | token t' =>
    obtain rfl := Option.some.inj htoken
    exact Cursor.found_not_end hitem
  | error e => cases htoken

/-- How far the lines go on behind a source and a newline. -/
def lineShift (source : String) : Nat :=
  newlines source.toList + 1

/-- What a newline parts: the text of the first source, the newline and the text of the second. -/
theorem toList_join (first second : String) :
    (first ++ "\n" ++ second).toList = first.toList ++ '\n' :: second.toList := by
  simp

/-- In two joined sources the items of the first are found, and then those of the second further
    down. -/
theorem found_join {first : String} (hclosed : ∀ item ∈ Cursor.found 1 first.toList, item.Closed)
    (second : String) :
    Cursor.found 1 (first ++ "\n" ++ second).toList =
      Cursor.found 1 first.toList ++
        (Cursor.found 1 second.toList).map (Item.relabel (.ofLine (· + lineShift first))) := by
  rw [toList_join, Cursor.found_before_newline 1 first.toList second.toList hclosed,
    ← Cursor.found_relabel, lineShift, Nat.add_assoc]

/-- The lines of two sources, with the newline between them. -/
theorem newlines_join (first second : String) :
    newlines (first ++ "\n" ++ second).toList = newlines second.toList + lineShift first := by
  have hbreak : newlines ('\n' :: second.toList) = newlines second.toList + 1 := List.count_cons_self
  rw [toList_join, newlines_append, hbreak, lineShift]
  omega

/-- Scanning is compositional. Where no string and no comment of the first source is open at its end, the
    items of two sources with a newline between them are those of the first without its end, and then all
    those of the second, the end included, with the lines counted on behind the newline. Other errors of
    either source stand where they stood. -/
theorem items_join (first second : String) (hclosed : ∀ item ∈ items first, item.Closed) :
    ∃ body, items first = body ++ [.end (1 + newlines first.toList)] ∧
      (∀ t, Item.token t ∈ body → t.kind ≠ .eof) ∧
      items (first ++ "\n" ++ second) =
        body ++ (items second).map (Item.relabel (.ofLine (· + lineShift first))) := by
  have hfound : ∀ item ∈ Cursor.found 1 first.toList, item.Closed := fun item hitem =>
    hclosed item (by rw [items_eq]; exact List.mem_append_left _ hitem)
  refine ⟨Cursor.found 1 first.toList, items_eq first, fun t => Cursor.found_not_end, ?_⟩
  -- The second text starts one line below the end of the first, for the newline between them.
  have hend : (Item.end (1 + newlines second.toList)).relabel (.ofLine (· + lineShift first)) =
      Item.end (1 + newlines (first ++ "\n" ++ second).toList) := by
    rw [newlines_join, ← Nat.add_assoc]
    rfl
  rw [items_eq, items_eq, found_join hfound, List.map_append, List.map_singleton, hend,
    List.append_assoc]

/-- The first source ends in a comment, behind an operator, a number and a point, and a character that is
    no part of any token. -/
theorem items_join_of_partial_pieces :
    (∀ item ∈ items "a =\n1. § // x", item.Closed) ∧
      ∃ body, items "a =\n1. § // x" = body ++ [.end 2] ∧
        (∀ t, Item.token t ∈ body → t.kind ≠ .eof) ∧
        items "a =\n1. § // x\n= \"b" =
          body ++ (items "= \"b").map (Item.relabel (.ofLine (· + 2))) := by
  have hclosed : ∀ item ∈ items "a =\n1. § // x", item.Closed := by decide +kernel
  exact ⟨hclosed, items_join "a =\n1. § // x" "= \"b" hclosed⟩

section Join

variable {first : String} (h : lexErrors first = []) (second : String)
include h

/-- The tokens of two joined sources in front of the end. -/
theorem bodyTokens_join :
    bodyTokens (first ++ "\n" ++ second) =
      bodyTokens first ++ (bodyTokens second).map (Token.relabel (.ofLine (· + lineShift first))) := by
  have hitem : Item.token? ∘ Item.relabel (.ofLine (· + lineShift first)) =
      fun item => item.token?.map (Token.relabel (.ofLine (· + lineShift first))) := by
    funext item
    cases item <;> rfl
  rw [bodyTokens, found_join (closed_of_lexErrors h), List.filterMap_append, List.filterMap_map, hitem,
    bodyTokens, bodyTokens, List.map_filterMap]

/-- Two sources without an error about tokens have none when they are joined. -/
theorem lexErrors_join (h' : lexErrors second = []) : lexErrors (first ++ "\n" ++ second) = [] := by
  rw [lexErrors_eq] at h h' ⊢
  rw [found_join (closed_of_lexErrors (by rw [lexErrors_eq, h])), List.filterMap_append, h, List.nil_append,
    List.filterMap_map, List.filterMap_eq_nil_iff]
  intro item hitem
  have hnone := List.filterMap_eq_nil_iff.mp h' item hitem
  cases item with
  | token t => rfl
  | error e => cases hnone

end Join

end Lox
