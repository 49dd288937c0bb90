import Lox.Proofs.Token.Scanning

namespace Lox

/-- The token for the end of a source, on the line reached. -/
def Item.end (line : Nat) : Item :=
  .token ⟨⟨"", line⟩, .eof⟩

/-- What scanning takes off a source at one go: what it is read as, and its bytes. -/
structure Span where
  reading : Reading
  bytes : List UInt8
deriving DecidableEq, Repr

/-- What scanning takes off a source from the front of it to its end. -/
def spans (line : Nat) : List UInt8 → List Span
  | [] => []
  | b :: bs =>
    let front := scan line b bs
    ⟨front.reading, upTo front.rest (b :: bs)⟩ :: spans front.line front.rest
termination_by source => source.length
decreasing_by exact Nat.lt_succ_of_le (length_scan_le line b bs)

namespace Cursor

/-- What is found in a source that begins on a line, up to its end. -/
def found (line : Nat) : List Char → List Item
  | [] => []
  | c :: cs =>
    let piece := Piece.cut c cs
    let line := line + newlines piece.text
    match piece.reading with
    | .nothing => found line piece.rest
    | .token kind => .token ⟨⟨String.ofList piece.text, line⟩, kind⟩ :: found line piece.rest
    | .error cause => .error ⟨cause, line⟩ :: found line piece.rest
termination_by source => source.length
decreasing_by all_goals exact Nat.lt_succ_of_le (Piece.cut_rest_length c cs)

section Equations

variable {line : Nat} {c : Char} {cs : List Char}

/-- A first piece that is no item only moves the line on. -/
theorem found_of_nothing (h : (Piece.cut c cs).reading = .nothing) :
    found line (c :: cs) =
      found (line + newlines (Piece.cut c cs).text) (Piece.cut c cs).rest := by
  rw [found]
  simp only [h]

/-- A first piece that is a token is found on the line on which it ends. -/
theorem found_of_token {kind : TokenKind} (h : (Piece.cut c cs).reading = .token kind) :
    found line (c :: cs) =
      .token ⟨⟨String.ofList (Piece.cut c cs).text, line + newlines (Piece.cut c cs).text⟩, kind⟩ ::
        found (line + newlines (Piece.cut c cs).text) (Piece.cut c cs).rest := by
  rw [found]
  simp only [h]

/-- A first piece that is an error is found on the line on which it ends. -/
theorem found_of_error {cause : LexCause} (h : (Piece.cut c cs).reading = .error cause) :
    found line (c :: cs) =
      .error ⟨cause, line + newlines (Piece.cut c cs).text⟩ ::
        found (line + newlines (Piece.cut c cs).text) (Piece.cut c cs).rest := by
  rw [found]
  simp only [h]

theorem upTo_cut (c : Char) (cs : List Char) :
    upTo (bytesOf (Piece.cut c cs).rest) (bytesOf (c :: cs)) = bytesOf (Piece.cut c cs).text := by
  rw [← Piece.cut_append c cs, bytesOf_append, upTo_append]

/-- The first stretch that is taken off is the first piece, and the others are taken off what it
    leaves. -/
theorem spans_cons (line : Nat) (c : Char) (cs : List Char) :
    spans line (bytesOf (c :: cs)) =
      ⟨(Piece.cut c cs).reading, bytesOf (Piece.cut c cs).text⟩ ::
        spans (line + newlines (Piece.cut c cs).text) (bytesOf (Piece.cut c cs).rest) := by
  obtain ⟨b, bs, hbytes, hcuts⟩ := scan_cuts line c cs
  rw [← upTo_cut, hbytes, spans, hcuts]

/-- Reading goes past a piece that is no item. -/
theorem read_of_nothing (h : (Piece.cut c cs).reading = .nothing) :
    Cursor.read line (bytesOf (c :: cs)) =
      Cursor.read (line + newlines (Piece.cut c cs).text) (bytesOf (Piece.cut c cs).rest) := by
  obtain ⟨b, bs, hbytes, hcuts⟩ := scan_cuts line c cs
  rw [hbytes, Cursor.read, hcuts]
  simp only [h]

/-- Reading stops behind a piece that is a token, with the line counted up to there. -/
theorem read_of_token {kind : TokenKind} (h : (Piece.cut c cs).reading = .token kind) :
    Cursor.read line (bytesOf (c :: cs)) =
      (.token ⟨⟨String.ofList (Piece.cut c cs).text, line + newlines (Piece.cut c cs).text⟩, kind⟩,
        ⟨bytesOf (Piece.cut c cs).rest, line + newlines (Piece.cut c cs).text, false⟩) := by
  obtain ⟨b, bs, hbytes, hcuts⟩ := scan_cuts line c cs
  rw [← textOf_bytesOf, ← upTo_cut, hbytes, Cursor.read, hcuts]
  simp only [h]

/-- Reading stops behind a piece that is an error, with the line counted up to there. -/
theorem read_of_error {cause : LexCause} (h : (Piece.cut c cs).reading = .error cause) :
    Cursor.read line (bytesOf (c :: cs)) =
      (.error ⟨cause, line + newlines (Piece.cut c cs).text⟩,
        ⟨bytesOf (Piece.cut c cs).rest, line + newlines (Piece.cut c cs).text, false⟩) := by
  obtain ⟨b, bs, hbytes, hcuts⟩ := scan_cuts line c cs
  rw [hbytes, Cursor.read, hcuts]
  simp only [h]

end Equations

theorem newlines_cut (c : Char) (cs : List Char) :
    newlines (Piece.cut c cs).text + newlines (Piece.cut c cs).rest = newlines (c :: cs) := by
  rw [← newlines_append, Piece.cut_append]

/-- Where there is no next item, those that were read are all. -/
theorem collect_of_none {s after : Cursor} (h : s.next = (none, after)) (read : List Item) :
    collect read s = (read.reverse, after) := by
  rw [collect]
  split
  · rename_i hnext
    rw [h] at hnext
    cases hnext
    rfl
  · rename_i hnext
    rw [h] at hnext
    cases hnext

/-- Where there is a next item, it comes behind those that were read. -/
theorem collect_of_some {s after : Cursor} {item : Item} (h : s.next = (some item, after))
    (read : List Item) : collect read s = collect (item :: read) after := by
  rw [collect]
  split
  · rename_i hnext
    rw [h] at hnext
    cases hnext
  · rename_i hnext
    rw [h] at hnext
    cases hnext
    rfl

/-- From a position before the end there is something to read. -/
theorem collect_open (read : List Item) (line : Nat) (source : List UInt8) :
    collect read ⟨source, line, false⟩ =
      collect ((Cursor.read line source).1 :: read) (Cursor.read line source).2 :=
  collect_of_some rfl read

/-- Reading on to the end gives what is found, and then the end, with all newlines behind it. -/
theorem collect_eq (read : List Item) (line : Nat) (source : List Char) :
    (collect read ⟨bytesOf source, line, false⟩).1 =
      read.reverse ++ found line source ++ [.end (line + newlines source)] := by
  fun_induction found line source generalizing read with
  | case1 line =>
    have hend : Cursor.read line (bytesOf []) = (.end line, ⟨[], line, true⟩) := by
      rw [bytesOf, List.flatMap_nil, Cursor.read]
      rfl
    rw [collect_open, hend, collect_of_none rfl, List.reverse_cons, List.append_nil]
    rfl
  | case2 line c cs piece line' hreading ih =>
    rw [collect_open, read_of_nothing hreading, ← collect_open, ih, Nat.add_assoc, newlines_cut]
  | case3 line c cs piece line' kind hreading ih =>
    rw [collect_open, read_of_token hreading, ih, Nat.add_assoc, newlines_cut]
    simp [piece, line']
  | case4 line c cs piece line' cause hreading ih =>
    rw [collect_open, read_of_error hreading, ih, Nat.add_assoc, newlines_cut]
    simp [piece, line']

end Cursor

/-- The items of a source are what is found in it and then its end, on its last line. -/
theorem items_eq (source : String) :
    items source = Cursor.found 1 source.toList ++ [.end (1 + newlines source.toList)] := by
  rw [items, Cursor.start, toUTF8_eq_bytesOf]
  exact Cursor.collect_eq [] 1 source.toList

/-- The errors about the tokens of a source are those among what is found in it. -/
theorem lexErrors_eq (source : String) :
    lexErrors source = (Cursor.found 1 source.toList).filterMap Item.error? := by
  rw [lexErrors, items_eq, List.filterMap_append]
  exact List.append_nil _

/-- The tokens of a source in front of its end. -/
def bodyTokens (source : String) : List Token :=
  (Cursor.found 1 source.toList).filterMap Item.token?

/-- The tokens of a source are those in front of its end, and the end. -/
theorem tokens_eq (source : String) :
    tokens source = bodyTokens source ++ [⟨⟨"", 1 + newlines source.toList⟩, .eof⟩] := by
  rw [tokens, items_eq, List.filterMap_append]
  rfl

end Lox
