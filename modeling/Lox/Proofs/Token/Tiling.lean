import Lox.Proofs.Token.Lexeme

namespace Lox

/-- A stretch of a source: what it is read as, and its text. -/
structure Tile where
  reading : Reading
  text : List Char
deriving DecidableEq, Repr

/-- The stretch is a lexeme, and none that goes further starts where it does. -/
structure Tile.Longest (tile : Tile) (rest : List Char) : Prop where
  lexeme : Lexeme tile.reading tile.text
  longest : ∀ {reading : Reading} {text : List Char}, Lexeme reading text → text <+: tile.text ++ rest →
    text.length ≤ tile.text.length

/-- A source from its start to its end, cut into longest lexemes and, where none starts, single
    characters. -/
inductive Tiling : List Char → List Tile → Prop where
  | nil : Tiling [] []
  | lexeme {tile : Tile} {rest : List Char} {later : List Tile} (hlongest : tile.Longest rest)
      (hrest : Tiling rest later) : Tiling (tile.text ++ rest) (tile :: later)
  | stray {c : Char} {rest : List Char} {later : List Tile}
      (hnone : ∀ {reading : Reading} {text : List Char}, Lexeme reading text → ¬text <+: c :: rest)
      (hrest : Tiling rest later) :
      Tiling (c :: rest) (⟨.error (.unexpectedCharacter c), [c]⟩ :: later)

namespace Tile

/-- What a stretch that ends on the line comes to. Blanks and comments come to nothing. -/
def item? (line : Nat) (tile : Tile) : Option Item :=
  match tile.reading with
  | .nothing => none
  | .token kind => some (.token ⟨⟨String.ofList tile.text, line⟩, kind⟩)
  | .error cause => some (.error ⟨cause, line⟩)

/-- What the stretches of a source that begins on the line come to. -/
def items (line : Nat) : List Tile → List Item
  | [] => []
  | tile :: later =>
    (tile.item? (line + newlines tile.text)).toList ++ items (line + newlines tile.text) later

/-- A stretch as its bytes. -/
def span (tile : Tile) : Span :=
  ⟨tile.reading, bytesOf tile.text⟩

/-- The stretch that a piece stands for. -/
def ofPiece (piece : Piece) : Tile :=
  ⟨piece.reading, piece.text⟩

end Tile

/-- No lexeme is empty. -/
theorem Lexeme.ne_nil {reading : Reading} {text : List Char} (h : Lexeme reading text) : text ≠ [] := by
  have hsymbols : ∀ entry ∈ symbols, entry.1 ≠ [] := by decide
  cases h with
  | symbol hsymbol => exact hsymbols _ hsymbol
  | integer hwhole => exact hwhole.1
  | decimal hwhole _ => exact List.append_ne_nil_of_left_ne_nil hwhole.1 _
  | keyword hword _ | identifier hword _ =>
    obtain ⟨c, cs, rfl, -⟩ := hword
    exact List.cons_ne_nil c cs
  | _ => exact List.cons_ne_nil _ _

/-- Where the first piece is a single character that is reported, no lexeme starts. -/
theorem Piece.no_lexeme_of_stray {c : Char} {cs text : List Char} {reading : Reading}
    (hstray : cut c cs = ⟨.error (.unexpectedCharacter c), [c], cs⟩) (h : Lexeme reading text) :
    ¬text <+: c :: cs := by
  rintro ⟨rest, hsource⟩
  rcases covers_cut h hsource with hlt | ⟨-, hreading⟩
  · have hpos := List.length_pos_iff.mpr h.ne_nil
    rw [hstray] at hlt
    simp only [List.length_cons, List.length_nil] at hlt
    omega
  · rw [hstray] at hreading
    subst hreading
    cases h

namespace Tile

variable {tile : Tile} {c : Char} {cs rest : List Char}

/-- The first piece of a source is the longest lexeme there. -/
theorem longest_cut (h : Lexeme (Piece.cut c cs).reading (Piece.cut c cs).text) :
    (ofPiece (Piece.cut c cs)).Longest (Piece.cut c cs).rest where
  lexeme := h
  longest hlexeme hprefix := by
    obtain ⟨rest, hsource⟩ := hprefix
    rw [ofPiece, Piece.cut_append] at hsource
    rcases Piece.covers_cut hlexeme hsource with hlt | ⟨htext, -⟩
    · exact Nat.le_of_lt hlt
    · exact Nat.le_of_eq (congrArg List.length htext)

/-- The longest lexeme at the front of a source is its first piece. -/
theorem Longest.eq_cut (h : tile.Longest rest) (hsource : tile.text ++ rest = c :: cs) :
    tile = ofPiece (Piece.cut c cs) ∧ rest = (Piece.cut c cs).rest := by
  rcases Piece.covers_cut h.lexeme hsource with hlt | ⟨htext, hreading⟩
  · -- Otherwise the piece would go further, as a lexeme or as a single character.
    rcases Piece.lexeme_cut c cs with hlexeme | hstray
    · have hprefix : (Piece.cut c cs).text <+: tile.text ++ rest :=
        ⟨(Piece.cut c cs).rest, (Piece.cut_append c cs).trans hsource.symm⟩
      exact absurd (h.longest hlexeme hprefix) (Nat.not_le.mpr hlt)
    · exact absurd ⟨rest, hsource⟩ (Piece.no_lexeme_of_stray hstray h.lexeme)
  · obtain ⟨reading, text⟩ := tile
    dsimp only at htext hreading hsource
    subst htext hreading
    exact ⟨rfl, List.append_cancel_left (hsource.trans (Piece.cut_append c cs).symm)⟩

/-- A string or a comment without an end runs to the end of the source. -/
theorem Longest.rest_eq_nil (h : tile.Longest rest) {cause : LexCause}
    (hreading : tile.reading = .error cause) : rest = [] := by
  obtain ⟨reading, text⟩ := tile
  obtain ⟨hlexeme, hlongest⟩ := h
  dsimp only at hlexeme hlongest hreading
  subst hreading
  cases rest with
  | nil => rfl
  | cons c rest =>
    have hfurther {reading : Reading} (hmore : Lexeme reading (text ++ [c])) : False := by
      have hle := hlongest hmore ⟨rest, by simp⟩
      simp only [List.length_append, List.length_cons, List.length_nil] at hle
      omega
    cases hlexeme with
    | @openString inner hquote =>
      by_cases hc : c = '"'
      · subst hc
        exact (hfurther (.string hquote)).elim
      · have hmore : '"' ∉ inner ++ [c] := by simp [hquote, Ne.symm hc]
        exact (hfurther (.openString hmore)).elim
    | @openComment inner hopen =>
      by_cases hends : Closing (inner ++ [c])
      · exact (hfurther (.blockComment hends)).elim
      · have hmore : ∀ closing, closing <+: inner ++ [c] → ¬Closing closing := by
          intro closing hprefix hclosing
          rcases List.prefix_concat_iff.mp hprefix with rfl | hinside
          · exact hends hclosing
          · exact hopen closing hinside hclosing
        exact (hfurther (.openComment hmore)).elim

end Tile

/-- Nothing is cut into nothing. -/
theorem tiling_nil_iff {tiles : List Tile} : Tiling [] tiles ↔ tiles = [] := by
  constructor
  · intro h
    generalize hsource : [] = source at h
    cases h with
    | nil => rfl
    | lexeme hlongest => exact absurd (List.append_eq_nil_iff.mp hsource.symm).1 hlongest.lexeme.ne_nil
    | stray => cases hsource
  · rintro rfl
    exact .nil

/-- A source is cut into its first piece and what its rest is cut into. -/
theorem tiling_cons_iff {c : Char} {cs : List Char} {tiles : List Tile} :
    Tiling (c :: cs) tiles ↔
      ∃ later, tiles = .ofPiece (Piece.cut c cs) :: later ∧ Tiling (Piece.cut c cs).rest later := by
  constructor
  · intro h
    generalize hsource : c :: cs = source at h
    cases h with
    | nil => cases hsource
    | @lexeme tile rest later hlongest hrest =>
      obtain ⟨rfl, rfl⟩ := hlongest.eq_cut hsource.symm
      exact ⟨later, rfl, hrest⟩
    | @stray _ rest later hnone hrest =>
      cases hsource
      rcases Piece.lexeme_cut c cs with hlexeme | hstray
      · exact absurd ⟨_, Piece.cut_append c cs⟩ (hnone hlexeme)
      · exact ⟨later, by rw [hstray]; rfl, by rwa [hstray]⟩
  · rintro ⟨later, rfl, hrest⟩
    rcases Piece.lexeme_cut c cs with hlexeme | hstray
    · have hfirst := Tiling.lexeme (Tile.longest_cut hlexeme) hrest
      rwa [Tile.ofPiece, Piece.cut_append] at hfirst
    · have hnone {reading : Reading} {text : List Char} (h : Lexeme reading text) : ¬text <+: c :: cs :=
        Piece.no_lexeme_of_stray hstray h
      rw [hstray] at hrest ⊢
      exact .stray hnone hrest

/-- What is found in a source is what its first piece comes to and what is found behind it. -/
theorem Cursor.found_cons (line : Nat) (c : Char) (cs : List Char) :
    found line (c :: cs) =
      ((Tile.ofPiece (Piece.cut c cs)).item? (line + newlines (Piece.cut c cs).text)).toList ++
        found (line + newlines (Piece.cut c cs).text) (Piece.cut c cs).rest := by
  unfold Tile.item? Tile.ofPiece
  dsimp only
  cases hreading : (Piece.cut c cs).reading with
  | nothing => exact found_of_nothing hreading
  | token kind => exact found_of_token hreading
  | error cause => exact found_of_error hreading

/-- There is one way to cut a source. Scanning takes off just the bytes of the stretches, and what is found
    is what they come to. -/
theorem exists_tiling (line : Nat) :
    (source : List Char) → ∃ tiles, (∀ tiles', Tiling source tiles' ↔ tiles' = tiles) ∧
      spans line (bytesOf source) = tiles.map Tile.span ∧ Cursor.found line source = Tile.items line tiles
  | [] => by
    refine ⟨[], fun _ => tiling_nil_iff, ?_, by rw [Cursor.found, Tile.items]⟩
    rw [bytesOf, List.flatMap_nil, spans, List.map_nil]
  | c :: cs => by
    obtain ⟨later, hlater, hspans, hfound⟩ :=
      exists_tiling (line + newlines (Piece.cut c cs).text) (Piece.cut c cs).rest
    refine ⟨.ofPiece (Piece.cut c cs) :: later, fun tiles' => ?_, ?_, ?_⟩
    · simp [tiling_cons_iff, hlater]
    · rw [Cursor.spans_cons, hspans]
      rfl
    · rw [Cursor.found_cons, hfound]
      rfl
termination_by source => source.length
decreasing_by exact Nat.lt_succ_of_le (Piece.cut_rest_length c cs)

/-- The stretches follow one another from the start of the source to its end. -/
theorem Tiling.flatMap_text {source : List Char} {tiles : List Tile} (h : Tiling source tiles) :
    tiles.flatMap Tile.text = source := by
  induction h with
  | nil => rfl
  | lexeme _ _ ih => rw [List.flatMap_cons, ih]
  | stray _ _ ih =>
    rw [List.flatMap_cons, ih]
    rfl

/-- Nothing comes behind a string or a comment without an end. -/
theorem Tiling.open_last {source : List Char} {before later : List Tile} {tile : Tile}
    (h : Tiling source (before ++ tile :: later))
    (hopen : tile.reading = .error .unterminatedString ∨ tile.reading = .error .unterminatedComment) :
    later = [] := by
  induction before generalizing source with
  | nil =>
    cases h with
    | lexeme hlongest hrest =>
      have hnil : _ = [] := hopen.elim hlongest.rest_eq_nil hlongest.rest_eq_nil
      rw [hnil] at hrest
      exact tiling_nil_iff.mp hrest
    | stray => rcases hopen with h | h <;> cases h
  | cons first before ih =>
    cases h with
    | lexeme _ hrest => exact ih hrest
    | stray _ hrest => exact ih hrest

namespace Cursor

/-- Once there is no further item there never is. -/
theorem next_collect (read : List Item) (s : Cursor) :
    (collect read s).2.next = (none, (collect read s).2) := by
  fun_induction collect read s with
  | case1 read s after hnext =>
    unfold next at hnext
    split at hnext
    · rename_i hfinished
      cases hnext
      exact if_pos hfinished
    · cases hnext
  | case2 read s item after hnext ih => exact ih

end Cursor

/-- Scanning goes by the lexical grammar and takes the longest match. A source has one way to be cut into
    longest lexemes and single characters at which none starts, from its start to its end. Of the bytes of the
    source, scanning takes off those of one stretch after the other, so it never stops inside a character.
    The items are what the stretches are read as: a token with just that text, an error for what is no lexeme
    or has no end, nothing for blanks and comments; and then comes the one token for the end, and no item
    after it. -/
theorem scanning_takes_longest (source : String) :
    ∃ tiles, (∀ tiles', Tiling source.toList tiles' ↔ tiles' = tiles) ∧
      tiles.flatMap Tile.text = source.toList ∧
      spans 1 source.toUTF8.data.toList = tiles.map Tile.span ∧
      items source = Tile.items 1 tiles ++ [.end (1 + newlines source.toList)] ∧
      (∀ t, Item.token t ∈ Tile.items 1 tiles → t.kind ≠ .eof) ∧
      (∀ before tile later, tiles = before ++ tile :: later →
        tile.reading = .error .unterminatedString ∨ tile.reading = .error .unterminatedComment →
        later = []) ∧
      (Cursor.collect [] (.start source)).2.next = (none, (Cursor.collect [] (.start source)).2) := by
  obtain ⟨tiles, htiles, hspans, hfound⟩ := exists_tiling 1 source.toList
  have htiling : Tiling source.toList tiles := (htiles tiles).mpr rfl
  refine ⟨tiles, htiles, htiling.flatMap_text, ?_, ?_, fun t ht => ?_, ?_, Cursor.next_collect [] _⟩
  · rw [toUTF8_eq_bytesOf, hspans]
  · rw [items_eq, hfound]
  · rw [← hfound] at ht
    exact Cursor.found_not_end ht
  · rintro before tile later rfl hopen
    exact htiling.open_last hopen

/-- A point needs a digit behind it to belong to a number, and a slash that starts no comment is left. -/
example : (tokens "1.2.x!= =/").map (·.lexeme) = ["1.2", ".", "x", "!=", "=", "/", ""] := by
  decide +kernel

end Lox
