import Lox.Proofs.Token.Encoding
import Lox.Proofs.Token.Piece

namespace Lox

/-- What is read off bytes is the piece at the front of their text, and the line goes on by the newlines in
    its text. -/
def Scanned.Cuts (line : Nat) (scanned : Scanned) (piece : Piece) : Prop :=
  scanned = ⟨piece.reading, bytesOf piece.rest, line + newlines piece.text⟩

/-- The bytes of wide characters are passed without a look at them. -/
theorem scanToQuote_wide {front : List UInt8} (hwide : ∀ b ∈ front, Wide (.ofUInt8 b)) (line : Nat)
    (rest : List UInt8) : scanToQuote line (front ++ rest) = scanToQuote line rest := by
  induction front with
  | nil => rfl
  | cons b front ih =>
    obtain ⟨hb, hfront⟩ := List.forall_mem_cons.mp hwide
    rw [List.cons_append, scanToQuote]
    split
    · rename_i hquote
      exact absurd hquote (hb.ne (by decide))
    · rename_i hnewline
      exact absurd hnewline (hb.ne (by decide))
    · exact ih hfront

/-- In a string the lines are counted up to the quote, or else to the end. -/
theorem scanToQuote_bytesOf (line : Nat) (cs : List Char) :
    scanToQuote line (bytesOf cs) =
      (bytesOf (cs.dropWhile (· != '"')), line + newlines (cs.takeWhile (· != '"'))) := by
  induction cs generalizing line with
  | nil => rfl
  | cons c cs ih =>
    by_cases hc : Wide c
    · have hquote : c ≠ '"' := hc.ne (by decide)
      have hnewline : c ≠ '\n' := hc.ne (by decide)
      rw [bytesOf_cons, scanToQuote_wide (encode_wide hc), ih]
      simp [hquote, newlines_cons_of_ne hnewline]
    · obtain ⟨b, hb, hbytes⟩ := exists_byte hc
      rw [hbytes, scanToQuote, hb]
      split
      · simp [hbytes, newlines]
      · rw [ih]
        simp [newlines]
        omega
      · rename_i hquote hnewline
        have hne : (c != '"') = true := bne_iff_ne.mpr hquote
        rw [ih, List.dropWhile_cons, List.takeWhile_cons, if_pos hne, if_pos hne,
          newlines_cons_of_ne hnewline]

/-- Bytes of wide characters are passed inside a comment without a look at them. -/
theorem scanComment_wide {front : List UInt8} (hwide : ∀ b ∈ front, Wide (.ofUInt8 b)) (depth line : Nat)
    (rest : List UInt8) : scanComment depth line (front ++ rest) = scanComment depth line rest := by
  induction front with
  | nil => rfl
  | cons b front ih =>
    obtain ⟨hb, hfront⟩ := List.forall_mem_cons.mp hwide
    rw [List.cons_append, scanComment.eq_def]
    dsimp only
    split
    · rename_i hopen _
      exact absurd hopen (hb.ne (by decide))
    · rename_i hclose _
      exact absurd hclose (hb.ne (by decide))
    · rename_i hnewline
      exact absurd hnewline (hb.ne (by decide))
    · exact ih hfront

/-- Inside a comment a character is passed alone that does not stand at the front of an opening or an end. -/
theorem scanComment_char {c : Char} {cs : List Char} (hopen : c = '/' → cs.head? ≠ some '*')
    (hclose : c = '*' → cs.head? ≠ some '/') (depth line : Nat) :
    scanComment depth line (bytesOf (c :: cs)) = scanComment depth (line + newlines [c]) (bytesOf cs) := by
  by_cases hc : Wide c
  · rw [bytesOf_cons, scanComment_wide (encode_wide hc), newlines_cons_of_ne (hc.ne (by decide))]
    rfl
  · obtain ⟨b, hb, hbytes⟩ := exists_byte hc
    rw [hbytes, scanComment.eq_def]
    dsimp only
    rw [hb]
    split
    · rename_i hstar
      exact absurd ((peek_eq_iff (by decide) (by decide)).mp hstar) (hopen rfl)
    · rename_i hslash
      exact absurd ((peek_eq_iff (by decide) (by decide)).mp hslash) (hclose rfl)
    · rfl
    · rename_i hnewline _ _
      rw [newlines_cons_of_ne hnewline]
      rfl

/-- A comment that is opened inside a comment has to be closed too. -/
theorem scanComment_open (depth line : Nat) (cs : List Char) :
    scanComment depth line (bytesOf ('/' :: '*' :: cs)) = scanComment (depth + 1) line (bytesOf cs) := by
  obtain ⟨b, hb, hbytes⟩ := exists_byte (c := '/') (by decide)
  have hpeek : peek (bytesOf ('*' :: cs)) = '*' := (peek_eq_iff (by decide) (by decide)).mpr rfl
  rw [hbytes, scanComment.eq_def]
  simp only [hb, hpeek, tail_bytesOf (d := '*') (by decide)]

section Close

variable (line : Nat) (cs : List Char)

/-- The end of the outermost comment. -/
theorem scanComment_close :
    scanComment 0 line (bytesOf ('*' :: '/' :: cs)) = ⟨.nothing, bytesOf cs, line⟩ := by
  obtain ⟨b, hb, hbytes⟩ := exists_byte (c := '*') (by decide)
  have hpeek : peek (bytesOf ('/' :: cs)) = '/' := (peek_eq_iff (by decide) (by decide)).mpr rfl
  rw [hbytes, scanComment.eq_def]
  simp only [hb, hpeek, tail_bytesOf (d := '/') (by decide)]

/-- The end of a comment inside another one. -/
theorem scanComment_close_inner (depth : Nat) :
    scanComment (depth + 1) line (bytesOf ('*' :: '/' :: cs)) = scanComment depth line (bytesOf cs) := by
  obtain ⟨b, hb, hbytes⟩ := exists_byte (c := '*') (by decide)
  have hpeek : peek (bytesOf ('/' :: cs)) = '/' := (peek_eq_iff (by decide) (by decide)).mpr rfl
  rw [hbytes, scanComment.eq_def]
  simp only [hb, hpeek, tail_bytesOf (d := '/') (by decide)]

end Close

theorem head_ne_of_forall {c : Char} {cs : List Char} (h : ∀ rest, cs = c :: rest → False) :
    cs.head? ≠ some c := by
  cases cs with
  | nil => nofun
  | cons d rest =>
    intro hd
    exact h rest (congrArg (· :: rest) (Option.some.inj hd))

/-- A comment that is closed is passed up to its end. -/
theorem scanComment_of_some {depth : Nat} {seen cs text rest : List Char}
    (h : Piece.closeComment depth seen cs = some (text, rest)) (line : Nat) :
    ∃ count, newlines text = newlines seen + count ∧
      scanComment depth line (bytesOf cs) = ⟨.nothing, bytesOf rest, line + count⟩ := by
  fun_induction Piece.closeComment depth seen cs generalizing line with
  | case1 depth seen tail ih =>
    rw [scanComment_open]
    exact ih h line
  | case2 seen tail =>
    cases h
    exact ⟨0, by simp [newlines], scanComment_close line _⟩
  | case3 seen tail depth ih =>
    rw [scanComment_close_inner]
    exact ih h line
  | case4 depth seen c tail hopen hclose ih =>
    obtain ⟨count, hcount, hscan⟩ := ih h (line + newlines [c])
    have hsplit : newlines (c :: seen) = newlines [c] + newlines seen := newlines_append [c] seen
    refine ⟨newlines [c] + count, by omega, ?_⟩
    rw [scanComment_char (fun hc => head_ne_of_forall fun rest => hopen rest hc)
      (fun hc => head_ne_of_forall fun rest => hclose rest hc), hscan, Nat.add_assoc]
  | case5 => cases h

/-- A comment that is not closed takes all that is left. -/
theorem scanComment_of_none {depth : Nat} {seen cs : List Char}
    (h : Piece.closeComment depth seen cs = none) (line : Nat) :
    scanComment depth line (bytesOf cs) = ⟨.error .unterminatedComment, [], line + newlines cs⟩ := by
  fun_induction Piece.closeComment depth seen cs generalizing line with
  | case1 depth seen tail ih =>
    rw [scanComment_open, ih h]
    rfl
  | case2 => cases h
  | case3 seen tail depth ih =>
    rw [scanComment_close_inner]
    exact ih h line
  | case4 depth seen c tail hopen hclose ih =>
    rw [scanComment_char (fun hc => head_ne_of_forall fun rest => hopen rest hc)
      (fun hc => head_ne_of_forall fun rest => hclose rest hc), ih h, Nat.add_assoc, ← newlines_append]
    rfl
  | case5 => rw [bytesOf, List.flatMap_nil, scanComment]; rfl

/-- Operators are cut alike from bytes and from characters. -/
theorem scanOperator_cuts (line : Nat) (long short : TokenKind) {c : Char} (hc : c ≠ '\n')
    (cs : List Char) :
    (scanOperator line long short (bytesOf cs)).Cuts line (Piece.operator long short c cs) := by
  unfold scanOperator Piece.operator
  simp only [peek_eq_iff (d := '=') (by decide) (by decide)]
  split
  · rename_i hnext
    obtain ⟨rest, rfl⟩ := List.head?_eq_some_iff.mp hnext
    have hline : newlines [c, '='] = 0 := newlines_cons_of_ne hc ['=']
    rw [tail_bytesOf (by decide), Scanned.Cuts]
    simp only [hline, Nat.add_zero]
  · rename_i hnext
    split
    · exact absurd rfl hnext
    · have hline : newlines [c] = 0 := newlines_cons_of_ne hc []
      rw [Scanned.Cuts, hline, Nat.add_zero]

/-- What starts with a slash is cut alike, with the lines counted inside a comment. -/
theorem scanSlash_cuts (line : Nat) (cs : List Char) :
    (scanSlash line (bytesOf cs)).Cuts line (Piece.slash cs) := by
  unfold scanSlash
  split
  · rename_i hnext
    obtain ⟨rest, rfl⟩ := List.head?_eq_some_iff.mp ((peek_eq_iff (by decide) (by decide)).mp hnext)
    rw [tail_bytesOf (by decide), (span_bytesOf (even_ne (by decide)) rest).2]
    have hline : newlines (rest.takeWhile (· != '\n')) = 0 := newlines_takeWhile rfl rest
    simp [Scanned.Cuts, Piece.slash, Piece.lineComment, newlines_cons_of_ne, hline]
  · rename_i hnext
    obtain ⟨rest, rfl⟩ := List.head?_eq_some_iff.mp ((peek_eq_iff (by decide) (by decide)).mp hnext)
    rw [tail_bytesOf (by decide), Piece.slash, Piece.blockComment]
    split
    · rename_i text more hclose
      obtain ⟨count, hcount, hscan⟩ := scanComment_of_some hclose line
      have hnone : newlines ['*', '/'] = 0 := rfl
      rw [Scanned.Cuts, hscan, hcount, hnone, Nat.zero_add]
    · rename_i hclose
      rw [Scanned.Cuts, scanComment_of_none hclose]
      rfl
  · rename_i hslash hstar
    have hsame : Piece.slash cs = Piece.single .slash '/' cs := by
      unfold Piece.slash
      split
      · exact absurd ((peek_eq_iff (by decide) (by decide)).mpr rfl) hslash
      · exact absurd ((peek_eq_iff (by decide) (by decide)).mpr rfl) hstar
      · rfl
    rw [hsame]
    rfl

/-- Strings are cut alike, with the lines counted up to the quote. -/
theorem scanString_cuts (line : Nat) (cs : List Char) :
    (scanString line (bytesOf cs)).Cuts line (Piece.string cs) := by
  have hsource : bytesOf cs = bytesOf (cs.takeWhile (· != '"')) ++ bytesOf (cs.dropWhile (· != '"')) := by
    rw [← bytesOf_append, List.takeWhile_append_dropWhile]
  have hquote : newlines ['"'] = 0 := rfl
  unfold scanString Piece.string
  rw [scanToQuote_bytesOf]
  cases hrest : cs.dropWhile (· != '"') with
  | nil =>
    dsimp only [bytesOf, List.flatMap_nil]
    rw [Scanned.Cuts, newlines_cons_of_ne (by decide)]
    rfl
  | cons quote rest =>
    have hq : quote = '"' := by
      have hstop := List.head_dropWhile_not (· != '"') (l := cs) (by simp [hrest])
      simpa [hrest] using hstop
    subst hq
    obtain ⟨b, hb, hbytes⟩ := exists_byte (c := '"') (by decide)
    rw [hrest] at hsource
    rw [hbytes] at hsource ⊢
    dsimp only
    rw [hsource, upTo_append, textOf_bytesOf, Scanned.Cuts, newlines_append,
      newlines_cons_of_ne (by decide), hquote, Nat.add_zero]

section Digits

variable (cs : List Char)

theorem takeWhile_isDigitByte : (bytesOf cs).takeWhile isDigitByte = bytesOf (cs.takeWhile Char.isDigit) :=
  (span_bytesOf even_isDigit cs).1

theorem dropWhile_isDigitByte : (bytesOf cs).dropWhile isDigitByte = bytesOf (cs.dropWhile Char.isDigit) :=
  (span_bytesOf even_isDigit cs).2

/-- Digits take one byte each. -/
theorem not_wide_of_digits : ∀ c ∈ cs.takeWhile Char.isDigit, ¬Wide c := by
  intro c hc hwide
  have hdigit := List.all_eq_true.mp List.all_takeWhile c hc
  rw [isDigit_wide hwide] at hdigit
  cases hdigit

end Digits

/-- Numbers are cut alike, although they are read from bytes. -/
theorem scanNumber_cuts (line : Nat) {b : UInt8} {c : Char} (hb : Char.ofUInt8 b = c) (hdigit : c.isDigit)
    (cs : List Char) : (scanNumber line b (bytesOf cs)).Cuts line (Piece.number c cs) := by
  have hline : newlines (c :: cs.takeWhile Char.isDigit) = 0 := by
    rw [newlines_cons_of_ne (by rintro rfl; exact absurd hdigit (by decide)), newlines_takeWhile rfl]
  have hdigits (cs : List Char) :
      (bytesOf (cs.takeWhile Char.isDigit)).map Char.ofUInt8 = cs.takeWhile Char.isDigit :=
    map_bytesOf (not_wide_of_digits cs)
  unfold scanNumber
  simp only [takeWhile_isDigitByte, dropWhile_isDigitByte, List.map_cons, hb, hdigits]
  split
  · rename_i hfraction
    obtain ⟨hpoint, hnext⟩ := Bool.and_eq_true_iff.mp hfraction
    obtain ⟨rest, hrest⟩ := List.head?_eq_some_iff.mp
      ((peek_eq_iff (by decide) (by decide)).mp (of_decide_eq_true hpoint))
    rw [hrest, tail_bytesOf (by decide)] at hnext ⊢
    obtain ⟨d, tail, rfl, hd⟩ := peek_isDigit_iff.mp hnext
    have htail : newlines (d :: tail.takeWhile Char.isDigit) = 0 := by
      rw [← List.takeWhile_cons_of_pos hd, newlines_takeWhile rfl]
    rw [Piece.number_of_fraction hrest hd, takeWhile_isDigitByte, dropWhile_isDigitByte, hdigits,
      List.takeWhile_cons_of_pos hd, List.dropWhile_cons_of_pos hd, Scanned.Cuts, newlines_append, hline,
      newlines_cons_of_ne (by decide), htail]
    rfl
  · rename_i hnone
    have hwhole : ∀ d tail, cs.dropWhile Char.isDigit = '.' :: d :: tail → d.isDigit = false := by
      intro d tail hrest
      rw [hrest, tail_bytesOf (by decide)] at hnone
      have hpoint : peek (bytesOf ('.' :: d :: tail)) = '.' := (peek_eq_iff (by decide) (by decide)).mpr rfl
      refine Bool.eq_false_iff.mpr fun hd => hnone (Bool.and_eq_true_iff.mpr ⟨decide_eq_true hpoint, ?_⟩)
      exact peek_isDigit_iff.mpr ⟨d, tail, rfl, hd⟩
    rw [Piece.number_of_whole hwhole, Scanned.Cuts, hline]
    rfl

/-- Words are cut alike: a wide character ends a word by its first byte. -/
theorem scanWord_cuts (line : Nat) {b : UInt8} {c : Char} (hstart : isWordStart c)
    (hbytes : ∀ cs, bytesOf (c :: cs) = b :: bytesOf cs) (cs : List Char) :
    (scanWord line b (bytesOf cs)).Cuts line (Piece.word c cs) := by
  have htake : (bytesOf cs).takeWhile isWordByte = bytesOf (cs.takeWhile isWordPart) :=
    (span_bytesOf even_isWordPart cs).1
  have hdrop : (bytesOf cs).dropWhile isWordByte = bytesOf (cs.dropWhile isWordPart) :=
    (span_bytesOf even_isWordPart cs).2
  have hline : newlines (c :: cs.takeWhile isWordPart) = 0 := by
    rw [newlines_cons_of_ne (by rintro rfl; exact absurd hstart (by decide)), newlines_takeWhile rfl]
  rw [scanWord, htake, hdrop, ← hbytes, textOf_bytesOf, Piece.word, Scanned.Cuts, hline]
  rfl

/-- A character that nothing starts with is read back from its bytes, and they are passed together. -/
theorem scanStray_bytesOf (line : Nat) (c : Char) (cs : List Char) :
    scanStray line (bytesOf (c :: cs)) = ⟨.error (.unexpectedCharacter c), bytesOf cs, line⟩ := by
  have hsize : (String.utf8EncodeChar c).length = c.utf8Size := String.length_utf8EncodeChar c
  have hfront : (bytesOf (c :: cs)).take 4 =
      String.utf8EncodeChar c ++ (bytesOf cs).take (4 - c.utf8Size) := by
    rw [bytesOf_cons, List.take_append, hsize,
      List.take_of_length_le (Nat.le_trans (Nat.le_of_eq hsize) c.utf8Size_le_four)]
  have hdecode : ((bytesOf (c :: cs)).take 4).toByteArray.utf8DecodeChar? 0 = some c := by
    rw [hfront, List.toByteArray_append]
    exact ByteArray.utf8DecodeChar?_utf8EncodeChar_append
  rw [scanStray, hdecode, Option.getD_some, bytesOf_cons, ← hsize, List.drop_left]

/-- With the first byte of a wide character nothing starts. -/
theorem scan_wide {b : UInt8} (hb : Wide (.ofUInt8 b)) (line : Nat) (bs : List UInt8) :
    scan line b bs = scanStray line (b :: bs) := by
  unfold scan
  split
  case h_23 => rw [if_neg (by simp [isDigit_wide hb]), if_neg (by simp [isWordStart_wide hb])]
  all_goals
    rename_i hcode
    exact absurd hcode (hb.ne (by decide))

/-- A wide character is a piece of its own, and is reported. -/
theorem Piece.cut_wide {c : Char} (hc : Wide c) (cs : List Char) :
    cut c cs = ⟨.error (.unexpectedCharacter c), [c], cs⟩ := by
  unfold cut
  split
  case h_23 => rw [if_neg (by simp [isDigit_wide hc]), if_neg (by simp [isWordStart_wide hc])]
  all_goals exact absurd hc (by decide)

/-- Scanning takes the first piece off a source. -/
theorem scan_cuts (line : Nat) (c : Char) (cs : List Char) :
    ∃ b bs, bytesOf (c :: cs) = b :: bs ∧ (scan line b bs).Cuts line (Piece.cut c cs) := by
  -- A character of several bytes is stray wherever it stands, and its first byte tells how many
  -- follow.
  by_cases hc : Wide c
  · obtain ⟨b, bs, hbytes⟩ := exists_first_byte c
    have hsource : bytesOf (c :: cs) = b :: (bs ++ bytesOf cs) := by
      rw [bytesOf_cons, hbytes, List.cons_append]
    refine ⟨b, bs ++ bytesOf cs, hsource, ?_⟩
    rw [scan_wide (encode_wide hc b (hbytes ▸ List.mem_cons_self)), ← hsource, scanStray_bytesOf,
      Piece.cut_wide hc, Scanned.Cuts, newlines_cons_of_ne (hc.ne (by decide))]
    rfl
  · obtain ⟨b, hb, hbytes⟩ := exists_byte hc
    refine ⟨b, bytesOf cs, hbytes cs, ?_⟩
    unfold scan
    rw [hb]
    split
    -- No sign starts with this character: a number, a word or a stray character does.
    case h_23 =>
      have hnewline : c ≠ '\n' := ‹_›
      have hcut : Piece.cut c cs =
          if c.isDigit then Piece.number c cs
          else if isWordStart c then Piece.word c cs
          else ⟨.error (.unexpectedCharacter c), [c], cs⟩ := by
        unfold Piece.cut
        simp only [*]
      rw [hcut]
      split
      · exact scanNumber_cuts line hb ‹_› cs
      · split
        · exact scanWord_cuts line ‹_› hbytes cs
        · rw [← hbytes, scanStray_bytesOf, Scanned.Cuts, newlines_cons_of_ne hnewline]
          rfl
    case h_13 | h_14 | h_15 | h_16 => exact scanOperator_cuts line _ _ (by decide) cs
    case h_21 => exact scanSlash_cuts line cs
    case h_22 => exact scanString_cuts line cs
    all_goals rfl

end Lox
