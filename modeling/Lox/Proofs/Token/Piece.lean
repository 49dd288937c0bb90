import Lox.Token.Reading

namespace Lox

/-- The number of newlines in a text. -/
def newlines (text : List Char) : Nat :=
  text.count '\n'

theorem newlines_append (text more : List Char) : newlines (text ++ more) = newlines text + newlines more :=
  List.count_append

theorem newlines_cons_of_ne {c : Char} (hc : c ≠ '\n') (cs : List Char) : newlines (c :: cs) = newlines cs :=
  List.count_cons_of_ne hc

/-- There is no newline where none is taken. -/
theorem newlines_takeWhile {p : Char → Bool} (hp : p '\n' = false) (cs : List Char) :
    newlines (cs.takeWhile p) = 0 :=
  List.count_eq_zero.mpr fun h => by
    have hall := List.all_eq_true.mp List.all_takeWhile '\n' h
    rw [hp] at hall
    cases hall

/-- A piece of a source as its characters, and the characters behind it. -/
structure Piece where
  reading : Reading
  text : List Char
  rest : List Char
deriving DecidableEq, Repr

namespace Piece

/-- The piece of a one-character token. -/
def single (kind : TokenKind) (c : Char) (cs : List Char) : Piece :=
  ⟨.token kind, [c], cs⟩

/-- An operator that an equals sign right after it turns into another one. -/
def operator (long short : TokenKind) (c : Char) : List Char → Piece
  | '=' :: rest => ⟨.token long, [c, '='], rest⟩
  | cs => ⟨.token short, [c], cs⟩

/-- Everything up to the end of the line; the newline is left to the next piece. -/
def lineComment (cs : List Char) : Piece :=
  ⟨.nothing, '/' :: '/' :: cs.takeWhile (· != '\n'), cs.dropWhile (· != '\n')⟩

/-- Reads on inside `depth` further comments up to the end of the outermost one. The characters
    seen come last first; without an end there is no result. -/
def closeComment (depth : Nat) (seen : List Char) : List Char → Option (List Char × List Char)
  | '/' :: '*' :: rest => closeComment (depth + 1) ('*' :: '/' :: seen) rest
  | '*' :: '/' :: rest =>
    match depth with
    | 0 => some (('/' :: '*' :: seen).reverse, rest)
    | depth + 1 => closeComment depth ('/' :: '*' :: seen) rest
  | c :: rest => closeComment depth (c :: seen) rest
  | [] => none

/-- A comment in the text after its opening. It has to be closed as often as it is opened. -/
def blockComment (cs : List Char) : Piece :=
  match closeComment 0 ['*', '/'] cs with
  | some (text, rest) => ⟨.nothing, text, rest⟩
  | none => ⟨.error .unterminatedComment, '/' :: '*' :: cs, []⟩

/-- What a slash starts: a comment of either kind, or an operator of its own. -/
def slash : List Char → Piece
  | '/' :: rest => lineComment rest
  | '*' :: rest => blockComment rest
  | cs => single .slash '/' cs

/-- A string ends at the next quote, whatever stands before it. -/
def string (cs : List Char) : Piece :=
  let text := cs.takeWhile (· != '"')
  match cs.dropWhile (· != '"') with
  | quote :: rest => ⟨.token (.string (String.ofList text)), '"' :: text ++ [quote], rest⟩
  | [] => ⟨.error .unterminatedString, '"' :: text, []⟩

/-- A point belongs to the number only if a digit follows it. -/
def number (c : Char) (cs : List Char) : Piece :=
  let whole := c :: cs.takeWhile Char.isDigit
  let rest := cs.dropWhile Char.isDigit
  match rest with
  | '.' :: d :: tail =>
    if d.isDigit then
      let fraction := d :: tail.takeWhile Char.isDigit
      ⟨.token (.number (readNumber whole fraction)), whole ++ '.' :: fraction,
        tail.dropWhile Char.isDigit⟩
    else
      ⟨.token (.number (readNumber whole [])), whole, rest⟩
  | _ => ⟨.token (.number (readNumber whole [])), whole, rest⟩

/-- A digit behind the point makes both parts of the number. -/
theorem number_of_fraction {c d : Char} {cs tail : List Char}
    (hrest : cs.dropWhile Char.isDigit = '.' :: d :: tail) (hd : d.isDigit = true) :
    number c cs =
      ⟨.token (.number (readNumber (c :: cs.takeWhile Char.isDigit) (d :: tail.takeWhile Char.isDigit))),
        c :: cs.takeWhile Char.isDigit ++ '.' :: d :: tail.takeWhile Char.isDigit,
        tail.dropWhile Char.isDigit⟩ := by
  simp only [number, hrest, if_pos hd]

/-- Without a digit behind the point the number ends in front of it. -/
theorem number_of_whole {c : Char} {cs : List Char}
    (h : ∀ d tail, cs.dropWhile Char.isDigit = '.' :: d :: tail → d.isDigit = false) :
    number c cs = ⟨.token (.number (readNumber (c :: cs.takeWhile Char.isDigit) [])),
      c :: cs.takeWhile Char.isDigit, cs.dropWhile Char.isDigit⟩ := by
  unfold number
  dsimp only
  split
  · rename_i d tail hrest
    rw [if_neg (by simp [h d tail hrest])]
  · rfl

/-- A word goes on as far as it can, and is a keyword if it is one as a whole. -/
def word (c : Char) (cs : List Char) : Piece :=
  let text := c :: cs.takeWhile isWordPart
  ⟨.token (.ofWord (String.ofList text)), text, cs.dropWhile isWordPart⟩

/-- The first piece of the source `c :: cs`. -/
def cut (c : Char) (cs : List Char) : Piece :=
  match c with
  | '(' => single .leftParen c cs
  | ')' => single .rightParen c cs
  | '{' => single .leftBrace c cs
  | '}' => single .rightBrace c cs
  | ',' => single .comma c cs
  | '.' => single .dot c cs
  | '-' => single .minus c cs
  | '+' => single .plus c cs
  | ';' => single .semicolon c cs
  | '*' => single .star c cs
  | '?' => single .question c cs
  | ':' => single .colon c cs
  | '!' => operator .bangEqual .bang c cs
  | '=' => operator .equalEqual .equal c cs
  | '<' => operator .lessEqual .less c cs
  | '>' => operator .greaterEqual .greater c cs
  | ' ' | '\r' | '\t' | '\n' => ⟨.nothing, [c], cs⟩
  | '/' => slash cs
  | '"' => string cs
  | _ =>
    if c.isDigit then number c cs
    else if isWordStart c then word c cs
    else ⟨.error (.unexpectedCharacter c), [c], cs⟩

private theorem operator_append (long short : TokenKind) (c : Char) (cs : List Char) :
    (operator long short c cs).text ++ (operator long short c cs).rest = c :: cs := by
  unfold operator
  split <;> rfl

/-- What a comment takes and what it leaves are what there was. -/
private theorem closeComment_append {depth : Nat} {seen cs text rest : List Char}
    (h : closeComment depth seen cs = some (text, rest)) : text ++ rest = seen.reverse ++ cs := by
  fun_induction closeComment depth seen cs with
  | case1 depth seen tail ih => simpa using ih h
  | case2 seen tail =>
    cases h
    simp
  | case3 seen tail depth ih => simpa using ih h
  | case4 depth seen c tail _ _ ih => simpa using ih h
  | case5 => cases h

private theorem slash_append (cs : List Char) : (slash cs).text ++ (slash cs).rest = '/' :: cs := by
  unfold slash
  split
  · simp [lineComment]
  · simp only [blockComment]
    split
    · rename_i h
      simpa using closeComment_append h
    · simp
  · rfl

private theorem string_append (cs : List Char) :
    (string cs).text ++ (string cs).rest = '"' :: cs := by
  have h := List.takeWhile_append_dropWhile (p := (· != '"')) (l := cs)
  unfold string
  dsimp only
  split <;> rename_i hrest
  · simpa [hrest] using h
  · simpa [hrest] using h

private theorem number_append (c : Char) (cs : List Char) :
    (number c cs).text ++ (number c cs).rest = c :: cs := by
  have h := List.takeWhile_append_dropWhile (p := Char.isDigit) (l := cs)
  unfold number
  dsimp only
  split
  · rename_i d tail hrest
    split
    · simpa [hrest] using h
    · simpa [hrest] using h
  · simp

private theorem word_append (c : Char) (cs : List Char) :
    (word c cs).text ++ (word c cs).rest = c :: cs := by
  simp [word]

/-- A piece and what it leaves are the source: nothing is skipped. -/
theorem cut_append (c : Char) (cs : List Char) : (cut c cs).text ++ (cut c cs).rest = c :: cs := by
  unfold cut
  split <;> try rfl
  all_goals first
    | apply operator_append
    | apply slash_append
    | apply string_append
    | skip
  split
  · exact number_append c cs
  · split
    · exact word_append c cs
    · rfl

private theorem length_dropWhile_le (p : Char → Bool) (cs : List Char) :
    (cs.dropWhile p).length ≤ cs.length :=
  (List.dropWhile_sublist p).length_le

private theorem closeComment_rest_length {depth : Nat} {seen cs text rest : List Char}
    (h : closeComment depth seen cs = some (text, rest)) : rest.length ≤ cs.length := by
  fun_induction closeComment depth seen cs with
  | case1 depth seen tail ih => have := ih h; simp; omega
  | case2 seen tail =>
    cases h
    simp; omega
  | case3 seen tail depth ih => have := ih h; simp; omega
  | case4 depth seen c tail _ _ ih => have := ih h; simp; omega
  | case5 => cases h

private theorem operator_rest_length (long short : TokenKind) (c : Char) (cs : List Char) :
    (operator long short c cs).rest.length ≤ cs.length := by
  unfold operator
  split <;> simp

private theorem slash_rest_length (cs : List Char) : (slash cs).rest.length ≤ cs.length := by
  unfold slash
  split
  · rename_i tail
    have := length_dropWhile_le (· != '\n') tail
    simp only [lineComment, List.length_cons]
    omega
  · rename_i tail
    simp only [blockComment]
    split
    · rename_i h
      have := closeComment_rest_length h
      simp only [List.length_cons]
      omega
    · simp
  · exact Nat.le_refl _

private theorem string_rest_length (cs : List Char) : (string cs).rest.length ≤ cs.length := by
  have := length_dropWhile_le (· != '"') cs
  unfold string
  dsimp only
  split <;> rename_i hrest
  · rw [hrest, List.length_cons] at this
    dsimp only
    omega
  · simp

private theorem number_rest_length (c : Char) (cs : List Char) :
    (number c cs).rest.length ≤ cs.length := by
  have := length_dropWhile_le Char.isDigit cs
  unfold number
  dsimp only
  split
  · rename_i d tail hrest
    rw [hrest, List.length_cons, List.length_cons] at this
    have := length_dropWhile_le Char.isDigit tail
    split <;> simp only [hrest, List.length_cons] <;> omega
  · exact this

/-- A piece takes one character or more, so cutting comes to an end. -/
theorem cut_rest_length (c : Char) (cs : List Char) : (cut c cs).rest.length ≤ cs.length := by
  unfold cut
  split <;> try exact Nat.le_refl _
  all_goals first
    | apply operator_rest_length
    | apply slash_rest_length
    | apply string_rest_length
    | skip
  split
  · exact number_rest_length c cs
  · split
    · exact length_dropWhile_le _ _
    · exact Nat.le_refl _

end Piece

end Lox
