import Lox.Proofs.Token.Tiling

namespace Lox

/-- An item, and what is left of its source where the reading stopped for it. -/
structure Stop where
  item : Item
  rest : List UInt8
deriving DecidableEq

namespace Item

/-- The line of a token or of an error. -/
def line : Item → Nat
  | token t => t.line
  | error e => e.line

/-- The text passed ends with that of the item, and nothing comes behind the end of the source or what is
    open there. -/
def EndsAt (item : Item) (passed rest : List Char) : Prop :=
  match item with
  | token t => t.lexeme.toList <:+ passed ∧ (t.kind = .eof → rest = [])
  | error ⟨.unexpectedCharacter c, _⟩ => [c] <:+ passed
  | error _ => rest = []

/-- What ends the text passed still ends it with more text before. -/
theorem EndsAt.append {item : Item} {passed rest : List Char} (h : item.EndsAt passed rest)
    (before : List Char) : item.EndsAt (before ++ passed) rest := by
  match item with
  | token t => exact ⟨h.1.trans (List.suffix_append before passed), h.2⟩
  | error ⟨.unexpectedCharacter c, _⟩ =>
    have hlast : [c] <:+ passed := h
    exact hlast.trans (List.suffix_append before passed)
  | error ⟨.unterminatedString, _⟩ | error ⟨.unterminatedComment, _⟩ => exact h

end Item

namespace Piece

/-- A string or a comment without an end leaves nothing of the source. -/
theorem rest_of_open {c : Char} {cs : List Char} {cause : LexCause}
    (hcause : (cut c cs).reading = .error cause) (hopen : ∀ stray, cause ≠ .unexpectedCharacter stray) :
    (cut c cs).rest = [] := by
  rcases lexeme_cut c cs with hlexeme | hstray
  · exact (Tile.longest_cut hlexeme).rest_eq_nil hcause
  · rw [hstray] at hcause
    exact absurd (Reading.error.inj hcause).symm (hopen c)

/-- A piece that is reported ends with the character that no token starts with, or with the source. -/
theorem error_endsAt {c : Char} {cs : List Char} {cause : LexCause}
    (hcause : (cut c cs).reading = .error cause) (line : Nat) :
    (Item.error ⟨cause, line⟩).EndsAt (cut c cs).text (cut c cs).rest := by
  match cause with
  | .unexpectedCharacter stray =>
    rcases lexeme_cut c cs with hlexeme | hstray
    · rw [hcause] at hlexeme
      cases hlexeme
    · rw [hstray] at hcause ⊢
      obtain rfl : c = stray := by simpa using hcause
      exact List.suffix_refl [c]
  | .unterminatedString | .unterminatedComment => exact rest_of_open hcause nofun

end Piece

namespace Cursor

/-- The items from here on, each with where the reading stopped for it. -/
def stops (s : Cursor) : List Stop :=
  match _h : s.next with
  | (none, _) => []
  | (some item, after) => ⟨item, after.rest⟩ :: stops after
termination_by s.remaining
decreasing_by exact remaining_next_lt _h

/-- Reading up to the next item passes some text, and the line goes on by the newlines in it. -/
theorem read_passes (line : Nat) (source : List Char) :
    ∃ passed rest, source = passed ++ rest ∧
      (read line (bytesOf source)).2.rest = bytesOf rest ∧
      (read line (bytesOf source)).2.line = line + newlines passed ∧
      (read line (bytesOf source)).1.line = line + newlines passed ∧
      (read line (bytesOf source)).1.EndsAt passed rest := by
  induction line, source using found.induct with
  | case1 line =>
    refine ⟨[], [], rfl, ?_⟩
    rw [bytesOf, List.flatMap_nil, Cursor.read]
    exact ⟨rfl, rfl, rfl, List.suffix_refl [], fun _ => rfl⟩
  | case2 line c cs piece line' hreading ih =>
    obtain ⟨passed, rest, hsource, hrest, hafter, hline, hends⟩ := ih
    have hlines : line' + newlines passed = line + newlines (piece.text ++ passed) := by
      rw [newlines_append, ← Nat.add_assoc]
    refine ⟨piece.text ++ passed, rest, ?_, ?_⟩
    · rw [List.append_assoc, ← hsource]
      exact (Piece.cut_append c cs).symm
    · rw [read_of_nothing hreading, ← hlines]
      exact ⟨hrest, hafter, hline, hends.append piece.text⟩
  | case3 line c cs piece line' kind hreading =>
    refine ⟨piece.text, piece.rest, (Piece.cut_append c cs).symm, ?_⟩
    rw [read_of_token hreading]
    refine ⟨rfl, rfl, rfl, ?_, fun heof => ?_⟩
    · simp [piece]
    · obtain rfl : kind = .eof := heof
      exact absurd hreading (Piece.cut_ne_eof c cs)
  | case4 line c cs piece line' cause hreading =>
    refine ⟨piece.text, piece.rest, (Piece.cut_append c cs).symm, ?_⟩
    rw [read_of_error hreading]
    exact ⟨rfl, rfl, rfl, Piece.error_endsAt hreading line'⟩

/-- An item and the position behind it, in terms of the position before. -/
theorem next_passes {s after : Cursor} {source : List Char} {item : Item} (hsource : s.rest = bytesOf source)
    (h : s.next = (some item, after)) :
    ∃ passed rest, source = passed ++ rest ∧ after.rest = bytesOf rest ∧
      after.line = s.line + newlines passed ∧ item.line = s.line + newlines passed ∧
      item.EndsAt passed rest := by
  unfold next at h
  split at h
  · cases h
  · rw [hsource] at h
    cases h
    exact read_passes s.line source

/-- Where nothing more is read there is no further stop. -/
theorem stops_of_none {s after : Cursor} (h : s.next = (none, after)) : s.stops = [] := by
  rw [stops]
  split
  · rfl
  · rename_i hnext
    rw [h] at hnext
    cases hnext

/-- The first stop is the one behind the next item. -/
theorem stops_of_some {s after : Cursor} {item : Item} (h : s.next = (some item, after)) :
    s.stops = ⟨item, after.rest⟩ :: after.stops := by
  rw [stops]
  split
  · rename_i hnext
    rw [h] at hnext
    cases hnext
  · rename_i hnext
    rw [h] at hnext
    cases hnext
    rfl

/-- Items are collected in the order of their stops. -/
theorem collect_stops (read : List Item) (s : Cursor) :
    (collect read s).1 = read.reverse ++ s.stops.map Stop.item := by
  fun_induction collect read s with
  | case1 read s after hnext => simp [stops_of_none hnext]
  | case2 read s item after hnext ih => simp [ih, stops_of_some hnext]

/-- Wherever the reading stops, it is between two characters, and the line is that of the text passed
    since. -/
theorem stop_of_mem {s : Cursor} {source : List Char} (hsource : s.rest = bytesOf source) {stop : Stop}
    (h : stop ∈ s.stops) :
    ∃ passed rest, source = passed ++ rest ∧ stop.rest = bytesOf rest ∧
      stop.item.line = s.line + newlines passed ∧ stop.item.EndsAt passed rest := by
  fun_induction stops s generalizing source with
  | case1 => cases h
  | case2 s item after hnext ih =>
    obtain ⟨first, more, rfl, hmore, hafter, hline, hends⟩ := next_passes hsource hnext
    rcases List.mem_cons.mp h with rfl | hlater
    · exact ⟨first, more, rfl, hmore, hline, hends⟩
    · obtain ⟨passed, rest, rfl, hrest, hlines, hlast⟩ := ih hmore hlater
      refine ⟨first ++ passed, rest, (List.append_assoc ..).symm, hrest, ?_, hlast.append first⟩
      rw [hlines, hafter, newlines_append, Nat.add_assoc]

/-- The reading goes forwards, and so do the lines. -/
theorem stops_sorted {s : Cursor} {source : List Char} (hsource : s.rest = bytesOf source) :
    s.stops.Pairwise fun a b => a.item.line ≤ b.item.line := by
  fun_induction stops s generalizing source with
  | case1 => exact .nil
  | case2 s item after hnext ih =>
    obtain ⟨first, more, -, hmore, hafter, hline, -⟩ := next_passes hsource hnext
    refine (ih hmore).cons fun stop hstop => ?_
    obtain ⟨passed, -, -, -, hlines, -⟩ := stop_of_mem hmore hstop
    show item.line ≤ stop.item.line
    omega

end Cursor

/-- The items of a source, each with what is left of the source where the reading stopped for it. -/
def stops (source : String) : List Stop :=
  (Cursor.start source).stops

theorem items_eq_stops (source : String) : items source = (stops source).map Stop.item :=
  Cursor.collect_stops [] (.start source)

/-- Lines are counted right, whichever of the paths that keep the count a newline is passed on. Every item of
    a source has the line on which the reading stopped for it, right behind its text: one more than there are
    newlines in the source up to there, whatever they stand in. So the lines never go back along the items,
    and the last of them, for the end of the source, has all of its newlines behind it. -/
theorem lines_count_newlines (source : String) :
    (stops source).map Stop.item = items source ∧
      (∀ stop ∈ stops source, ∃ passed rest, source.toList = passed ++ rest ∧ stop.rest = bytesOf rest ∧
        stop.item.line = 1 + newlines passed ∧ stop.item.EndsAt passed rest) ∧
      (items source).Pairwise (fun a b => a.line ≤ b.line) ∧
      ∃ body, items source = body ++ [.end (1 + newlines source.toList)] ∧
        ∀ t, Item.token t ∈ body → t.kind ≠ .eof := by
  have hsource : (Cursor.start source).rest = bytesOf source.toList := toUTF8_eq_bytesOf source
  refine ⟨(items_eq_stops source).symm, fun stop hstop => Cursor.stop_of_mem hsource hstop, ?_, ?_⟩
  · rw [items_eq_stops]
    exact List.pairwise_map.mpr (Cursor.stops_sorted hsource)
  · exact ⟨Cursor.found 1 source.toList, items_eq source, fun t => Cursor.found_not_end⟩

/-- A string over two lines, a comment over two and one that is open where the source ends. -/
example : (items "\"a\nb\" /*\n*/ § /*\n").map Item.line = [2, 3, 4, 4] := by decide +kernel

end Lox
