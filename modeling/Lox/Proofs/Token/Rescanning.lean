import Lox.Proofs.Token.Tiling

namespace Lox

theorem IsDigits.head {c : Char} {cs : List Char} (h : IsDigits (c :: cs)) : c.isDigit :=
  h.2 c List.mem_cons_self

theorem IsWord.head {c : Char} {cs : List Char} (h : IsWord (c :: cs)) : isWordStart c := by
  obtain ⟨d, ds, hsame, hstart, -⟩ := h
  exact (List.cons.inj hsame).1 ▸ hstart

theorem IsDigits.blank_not_mem {text : List Char} (h : IsDigits text) : ' ' ∉ text :=
  fun hmem => absurd (h.2 ' ' hmem) (by decide)

/-- There is no blank in a word. -/
theorem IsWord.blank_not_mem {text : List Char} (h : IsWord text) : ' ' ∉ text := by
  obtain ⟨c, cs, rfl, hstart, hpart⟩ := h
  intro hmem
  rcases List.mem_cons.mp hmem with rfl | hinside
  · exact absurd hstart (by decide)
  · exact absurd (hpart ' ' hinside) (by decide)

/-- There is no blank in a symbol. -/
theorem blank_not_mem_symbol {text : List Char} {kind : TokenKind} (h : (text, kind) ∈ symbols) :
    ' ' ∉ text := by
  have hall : ∀ entry ∈ symbols, ' ' ∉ entry.1 := by decide
  exact hall _ h

namespace Lexeme

variable {kind : TokenKind} {text rest : List Char}

/-- A token that starts with a quote is a string, and ends with one. -/
theorem quote_last (h : Lexeme (.token kind) ('"' :: rest)) : ∃ inner, rest = inner ++ ['"'] := by
  generalize htext : '"' :: rest = text at h
  cases h with
  | symbol hsymbol =>
    have hsymbols : ∀ entry ∈ symbols, entry.1.head? ≠ some '"' := by decide
    exact absurd (congrArg List.head? htext.symm) (hsymbols _ hsymbol)
  | integer hwhole =>
    subst htext
    exact absurd hwhole.head (by decide)
  | @decimal whole fraction hwhole hfraction =>
    obtain ⟨c, cs, rfl⟩ := List.exists_cons_of_ne_nil hwhole.1
    obtain ⟨rfl, -⟩ := List.cons.inj htext
    exact absurd hwhole.head (by decide)
  | keyword hword _ | identifier hword _ =>
    subst htext
    exact absurd hword.head (by decide)
  | @string inner hquote => exact ⟨inner, (List.cons.inj htext).2⟩

/-- The one token that starts with a slash is the slash. -/
theorem slash_alone (h : Lexeme (.token kind) ('/' :: rest)) : rest = [] := by
  generalize htext : '/' :: rest = text at h
  cases h with
  | symbol hsymbol =>
    have hsymbols : ∀ entry ∈ symbols, entry.1.head? = some '/' → entry.1.tail = [] := by decide
    subst htext
    exact hsymbols _ hsymbol rfl
  | integer hwhole =>
    subst htext
    exact absurd hwhole.head (by decide)
  | @decimal whole fraction hwhole hfraction =>
    obtain ⟨c, cs, rfl⟩ := List.exists_cons_of_ne_nil hwhole.1
    obtain ⟨rfl, -⟩ := List.cons.inj htext
    exact absurd hwhole.head (by decide)
  | keyword hword _ | identifier hword _ =>
    subst htext
    exact absurd hword.head (by decide)
  | string hquote => cases htext

/-- No lexeme goes on behind a token and a blank: only strings and comments hold blanks, and a token with
    whose first character one of them starts is a whole string or the slash. -/
theorem not_beyond_blank (h : Lexeme (.token kind) text) {reading : Reading} {longer : List Char}
    (hlonger : Lexeme reading longer) : ¬text ++ [' '] <+: longer := by
  intro hprefix
  have hblank : ' ' ∈ longer := hprefix.mem (List.mem_append_right _ List.mem_cons_self)
  obtain ⟨c, cs, rfl⟩ := List.exists_cons_of_ne_nil h.ne_nil
  rw [List.cons_append] at hprefix
  -- A comment starts with a slash, and the text would have to be that slash alone.
  have hslash {tail : List Char} {d : Char} (hd : d ≠ ' ')
      (hp : c :: (cs ++ [' ']) <+: '/' :: d :: tail) : False := by
    obtain ⟨rfl, htail⟩ := List.cons_prefix_cons.mp hp
    obtain rfl := h.slash_alone
    exact hd (List.cons_prefix_cons.mp htail).1.symm
  -- A string starts with a quote, so the text is a string with a quote at its end.
  have hquoted {tail : List Char} (hp : c :: (cs ++ [' ']) <+: '"' :: tail) : ∃ inner,
      inner ++ ['"'] ++ [' '] <+: tail := by
    obtain ⟨rfl, htail⟩ := List.cons_prefix_cons.mp hp
    obtain ⟨inner, rfl⟩ := h.quote_last
    exact ⟨inner, htail⟩
  cases hlonger with
  | blank => exact absurd hprefix.length_le (by simp)
  | symbol hsymbol => exact blank_not_mem_symbol hsymbol hblank
  | integer hwhole => exact hwhole.blank_not_mem hblank
  | decimal hwhole hfraction =>
    simp [hwhole.blank_not_mem, hfraction.blank_not_mem] at hblank
  | keyword hword _ | identifier hword _ => exact hword.blank_not_mem hblank
  | string hquote =>
    obtain ⟨inner, hinside⟩ := hquoted hprefix
    rcases List.prefix_concat_iff.mp hinside with hwhole | hpart
    · exact absurd (List.append_inj_right' hwhole rfl) (by decide)
    · exact hquote (hpart.mem (by simp))
  | openString hquote =>
    obtain ⟨inner, hinside⟩ := hquoted hprefix
    exact hquote (hinside.mem (by simp))
  | lineComment => exact hslash (by decide) hprefix
  | blockComment | openComment => exact hslash (by decide) hprefix

/-- A token is the longest lexeme in front of a blank, and at the end of a source. -/
theorem longest_before_blank (h : Lexeme (.token kind) text)
    (hrest : rest = [] ∨ ∃ more, rest = ' ' :: more) : Tile.Longest ⟨.token kind, text⟩ rest where
  lexeme := h
  longest {reading longer} hlonger hprefix := by
    rcases hrest with rfl | ⟨more, rfl⟩
    · rw [List.append_nil] at hprefix
      exact hprefix.length_le
    · refine Nat.le_of_not_lt fun hlength => ?_
      have hfront : text ++ [' '] <+: text ++ ' ' :: more := ⟨more, by simp⟩
      have hbeyond : (text ++ [' ']).length ≤ longer.length := by
        rw [List.length_append]
        exact hlength
      exact h.not_beyond_blank hlonger (List.prefix_of_prefix_length_le hfront hprefix hbeyond)

/-- A token is found again where it is written in front of a blank, or at the end. -/
theorem found_again (h : Lexeme (.token kind) text) (hrest : rest = [] ∨ ∃ more, rest = ' ' :: more)
    (line : Nat) :
    Cursor.found line (text ++ rest) =
      .token ⟨⟨String.ofList text, line + newlines text⟩, kind⟩ ::
        Cursor.found (line + newlines text) rest := by
  obtain ⟨c, cs, hsource⟩ := List.exists_cons_of_ne_nil (List.append_ne_nil_of_left_ne_nil h.ne_nil rest)
  obtain ⟨hfirst, hbehind⟩ := (h.longest_before_blank hrest).eq_cut hsource
  have hreading : (Piece.cut c cs).reading = .token kind := (congrArg Tile.reading hfirst).symm
  have htext : (Piece.cut c cs).text = text := (congrArg Tile.text hfirst).symm
  rw [hsource, Cursor.found_of_token hreading, htext, ← hbehind]

end Lexeme

/-- Every token that is found is a lexeme, read as the grammar reads it. -/
theorem Cursor.lexeme_of_found {line : Nat} {source : List Char} {t : Token}
    (h : Item.token t ∈ found line source) : Lexeme (.token t.kind) t.lexeme.toList := by
  fun_induction found line source with
  | case1 => cases h
  | case2 line c cs piece line' hreading ih => exact ih h
  | case3 line c cs piece line' kind hreading ih =>
    rcases List.mem_cons.mp h with hfirst | hrest
    · obtain rfl := Item.token.inj hfirst
      rcases Piece.lexeme_cut c cs with hlexeme | hstray
      · rw [hreading] at hlexeme
        simpa using hlexeme
      · simp [piece, hstray] at hreading
    · exact ih hrest
  | case4 line c cs piece line' cause hreading ih =>
    rcases List.mem_cons.mp h with hfirst | hrest
    · cases hfirst
    · exact ih hrest

/-- Every token in front of the end is a lexeme. -/
theorem bodyTokens_lexeme {source : String} {t : Token} (h : t ∈ bodyTokens source) :
    Lexeme (.token t.kind) t.lexeme.toList := by
  obtain ⟨item, hitem, htoken⟩ := List.mem_filterMap.mp h
  cases item with
  | token t' =>
    obtain rfl := Option.some.inj htoken
    exact Cursor.lexeme_of_found hitem
  | error e => cases htoken

/-- What a token is apart from its place: its kind, with the value if it is a literal, and its text. -/
def Token.content (t : Token) : TokenKind × String :=
  (t.kind, t.lexeme)

/-- Tokens that are written out with blanks between them are found again, and nothing else is. -/
theorem Cursor.found_spaced (line : Nat) :
    (ts : List Token) → (∀ t ∈ ts, Lexeme (.token t.kind) t.lexeme.toList) →
      ∃ again : List Token,
        found line ([' '].intercalate (ts.map fun t => t.lexeme.toList)) = again.map Item.token ∧
          again.map Token.content = ts.map Token.content
  | [], _ => ⟨[], by rw [List.map_nil, List.intercalate_nil, found]; rfl, rfl⟩
  | [t], h => by
    have hlast := (h t List.mem_cons_self).found_again (.inl rfl) line
    rw [List.append_nil] at hlast
    refine ⟨[⟨⟨t.lexeme, line + newlines t.lexeme.toList⟩, t.kind⟩], ?_, rfl⟩
    rw [List.map_singleton, List.intercalate_singleton, hlast, found, String.ofList_toList]
    rfl
  | t :: next :: later, h => by
    have hfirst (more : List Char) :=
      (h t List.mem_cons_self).found_again (.inr ⟨more, rfl⟩) line
    obtain ⟨again, hfound, hcontent⟩ := found_spaced (line + newlines t.lexeme.toList) (next :: later)
      fun t' ht' => h t' (List.mem_cons_of_mem _ ht')
    refine ⟨⟨⟨t.lexeme, line + newlines t.lexeme.toList⟩, t.kind⟩ :: again, ?_, ?_⟩
    · rw [List.map_cons, List.map_cons, List.intercalate_cons_cons, List.append_assoc,
        List.singleton_append, hfirst, String.ofList_toList, List.map_cons, ← hfound]
      exact congrArg (_ :: ·) (found_of_nothing rfl)
    · rw [List.map_cons, hcontent]
      rfl

/-- The lexemes of the tokens of a source, its end left out, with single blanks between them. -/
def respaced (source : String) : String :=
  " ".intercalate (((tokens source).filter fun t => t.kind ≠ .eof).map fun t => t.lexeme)

/-- The characters of the tokens with blanks between them. -/
theorem respaced_toList (source : String) :
    (respaced source).toList =
      [' '].intercalate ((bodyTokens source).map fun t => t.lexeme.toList) := by
  have hbody : (bodyTokens source).filter (fun t => t.kind ≠ .eof) = bodyTokens source :=
    List.filter_eq_self.mpr fun t ht => decide_eq_true (bodyTokens_not_end ht)
  rw [respaced, tokens_eq, List.filter_append, hbody, String.toList_intercalate]
  simp [Function.comp_def]

/-- The tokens of a source are found again in their lexemes, with single blanks between them. Whatever was
    wrong with the source, nothing is wrong there; the kinds, texts and values are the same, one after the
    other, up to the one token for the end. -/
theorem rescanning_gives_tokens (source : String) :
    lexErrors (respaced source) = [] ∧
      (tokens (respaced source)).map Token.content = (tokens source).map Token.content ∧
      ∃ body line, tokens (respaced source) = body ++ [⟨⟨"", line⟩, .eof⟩] ∧
        ∀ t ∈ body, t.kind ≠ .eof := by
  obtain ⟨again, hfound, hcontent⟩ :=
    Cursor.found_spaced 1 (bodyTokens source) fun t ht => bodyTokens_lexeme ht
  rw [← respaced_toList] at hfound
  have hbody : bodyTokens (respaced source) = again := by
    rw [bodyTokens, hfound, List.filterMap_map]
    exact List.filterMap_some
  refine ⟨?_, ?_, bodyTokens (respaced source), _, tokens_eq _, fun t ht => bodyTokens_not_end ht⟩
  · rw [lexErrors_eq, hfound, List.filterMap_map]
    exact List.filterMap_eq_nil_iff.mpr fun t _ => rfl
  · rw [tokens_eq, tokens_eq, hbody, List.map_append, List.map_append, hcontent]
    rfl

/-- Symbols that would fuse stay apart, and what is wrong with the source is gone. -/
example : respaced "1.x= =@\"a\n//b\"!/**/=\"c" = "1 . x = = \"a\n//b\" ! =" := by decide +kernel

end Lox
