import Lox.Token.Reading

namespace Lox

/-- The text that bytes stand for, which are those of whole characters. -/
def textOf (bytes : List UInt8) : String :=
  (String.fromUTF8? bytes.toByteArray).getD ""

/-- The bytes of a source up to where the rest of it begins. -/
def upTo (rest source : List UInt8) : List UInt8 :=
  source.take (source.length - rest.length)

/-- The next byte as the character of its code; at the end there is none. -/
def peek (source : List UInt8) : Char :=
  source.head?.elim '\x00' .ofUInt8

/-- Whether the byte is the code of a digit. -/
def isDigitByte (b : UInt8) : Bool :=
  (Char.ofUInt8 b).isDigit

/-- Whether the byte is the code of a character that a word goes on with. No byte of a longer
    character is one. -/
def isWordByte (b : UInt8) : Bool :=
  isWordPart (.ofUInt8 b)

/-- What the front of a source is read as, what is left behind it, and the line reached there. -/
structure Scanned where
  reading : Reading
  rest : List UInt8
  line : Nat
deriving DecidableEq, Repr

/-- An operator that an equals sign right after it turns into another one. -/
def scanOperator (line : Nat) (long short : TokenKind) (bs : List UInt8) : Scanned :=
  if peek bs = '=' then ⟨.token long, bs.tail, line⟩ else ⟨.token short, bs, line⟩

/-- Goes on inside `depth` further comments up to the end of the outermost one. -/
def scanComment (depth line : Nat) : List UInt8 → Scanned
  | [] => ⟨.error .unterminatedComment, [], line⟩
  | b :: bs =>
    match Char.ofUInt8 b, peek bs with
    | '/', '*' => scanComment (depth + 1) line bs.tail
    | '*', '/' =>
      match depth with
      | 0 => ⟨.nothing, bs.tail, line⟩
      | depth + 1 => scanComment depth line bs.tail
    | '\n', _ => scanComment depth (line + 1) bs
    | _, _ => scanComment depth line bs
termination_by source => source.length
decreasing_by all_goals simp only [List.length_cons, List.length_tail]; omega

/-- A slash, or a comment. The newline behind a comment up to the end of the line is left there. -/
def scanSlash (line : Nat) (bs : List UInt8) : Scanned :=
  match peek bs with
  | '/' => ⟨.nothing, bs.tail.dropWhile (Char.ofUInt8 · != '\n'), line⟩
  | '*' => scanComment 0 line bs.tail
  | _ => ⟨.token .slash, bs, line⟩

/-- Goes on to the next quote, or else to the end. -/
def scanToQuote (line : Nat) : List UInt8 → List UInt8 × Nat
  | [] => ([], line)
  | b :: bs =>
    match Char.ofUInt8 b with
    | '"' => (b :: bs, line)
    | '\n' => scanToQuote (line + 1) bs
    | _ => scanToQuote line bs

/-- A string ends at the next quote, whatever stands before it. -/
def scanString (line : Nat) (bs : List UInt8) : Scanned :=
  match scanToQuote line bs with
  | ([], line) => ⟨.error .unterminatedString, [], line⟩
  | (quote :: rest, line) => ⟨.token (.string (textOf (upTo (quote :: rest) bs))), rest, line⟩

/-- A point belongs to the number only if a digit follows it. -/
def scanNumber (line : Nat) (b : UInt8) (bs : List UInt8) : Scanned :=
  let whole := (b :: bs.takeWhile isDigitByte).map Char.ofUInt8
  let rest := bs.dropWhile isDigitByte
  if peek rest = '.' && (peek rest.tail).isDigit then
    let fraction := (rest.tail.takeWhile isDigitByte).map Char.ofUInt8
    ⟨.token (.number (readNumber whole fraction)), rest.tail.dropWhile isDigitByte, line⟩
  else
    ⟨.token (.number (readNumber whole [])), rest, line⟩

/-- A word goes on as far as it can, and is a keyword if it is one as a whole. -/
def scanWord (line : Nat) (b : UInt8) (bs : List UInt8) : Scanned :=
  ⟨.token (.ofWord (textOf (b :: bs.takeWhile isWordByte))), bs.dropWhile isWordByte, line⟩

/-- A character that nothing starts with is passed as a whole, with all its bytes. -/
def scanStray (line : Nat) (source : List UInt8) : Scanned :=
  let c := ((source.take 4).toByteArray.utf8DecodeChar? 0).getD '\uFFFD'
  ⟨.error (.unexpectedCharacter c), source.drop c.utf8Size, line⟩

/-- The front of the source `b :: bs`, which begins on the line. -/
def scan (line : Nat) (b : UInt8) (bs : List UInt8) : Scanned :=
  match Char.ofUInt8 b with
  | '(' => ⟨.token .leftParen, bs, line⟩
  | ')' => ⟨.token .rightParen, bs, line⟩
  | '{' => ⟨.token .leftBrace, bs, line⟩
  | '}' => ⟨.token .rightBrace, bs, line⟩
  | ',' => ⟨.token .comma, bs, line⟩
  | '.' => ⟨.token .dot, bs, line⟩
  | '-' => ⟨.token .minus, bs, line⟩
  | '+' => ⟨.token .plus, bs, line⟩
  | ';' => ⟨.token .semicolon, bs, line⟩
  | '*' => ⟨.token .star, bs, line⟩
  | '?' => ⟨.token .question, bs, line⟩
  | ':' => ⟨.token .colon, bs, line⟩
  | '!' => scanOperator line .bangEqual .bang bs
  | '=' => scanOperator line .equalEqual .equal bs
  | '<' => scanOperator line .lessEqual .less bs
  | '>' => scanOperator line .greaterEqual .greater bs
  | ' ' | '\r' | '\t' => ⟨.nothing, bs, line⟩
  | '\n' => ⟨.nothing, bs, line + 1⟩
  | '/' => scanSlash line bs
  | '"' => scanString line bs
  | c =>
    if c.isDigit then scanNumber line b bs
    else if isWordStart c then scanWord line b bs
    else scanStray line (b :: bs)

private theorem length_dropWhile_le (p : UInt8 → Bool) (bs : List UInt8) :
    (bs.dropWhile p).length ≤ bs.length :=
  (List.dropWhile_sublist p).length_le

private theorem length_tail_le (bs : List UInt8) : bs.tail.length ≤ bs.length := by
  rw [List.length_tail]
  exact Nat.sub_le _ _

/-- An operator takes bytes and puts none back. -/
private theorem length_scanOperator_le (line : Nat) (long short : TokenKind) (bs : List UInt8) :
    (scanOperator line long short bs).rest.length ≤ bs.length := by
  unfold scanOperator
  split
  · exact length_tail_le bs
  · exact Nat.le_refl _

/-- A comment takes bytes and puts none back. -/
private theorem length_scanComment_le (depth line : Nat) (bs : List UInt8) :
    (scanComment depth line bs).rest.length ≤ bs.length := by
  fun_induction scanComment depth line bs with
  | case1 => exact Nat.le_refl 0
  | _ => grind

/-- What starts with a slash takes bytes and puts none back. -/
private theorem length_scanSlash_le (line : Nat) (bs : List UInt8) :
    (scanSlash line bs).rest.length ≤ bs.length := by
  unfold scanSlash
  split
  · exact Nat.le_trans (length_dropWhile_le _ _) (length_tail_le bs)
  · exact Nat.le_trans (length_scanComment_le 0 line bs.tail) (length_tail_le bs)
  · exact Nat.le_refl _

/-- The way to a quote takes bytes and puts none back. -/
private theorem length_scanToQuote_le (line : Nat) (bs : List UInt8) :
    (scanToQuote line bs).1.length ≤ bs.length := by
  fun_induction scanToQuote line bs with
  | case1 | case2 => exact Nat.le_refl _
  | case3 _ _ _ _ ih | case4 _ _ _ _ _ ih => exact Nat.le_succ_of_le ih

/-- A string takes bytes and puts none back. -/
private theorem length_scanString_le (line : Nat) (bs : List UInt8) :
    (scanString line bs).rest.length ≤ bs.length := by
  have h := length_scanToQuote_le line bs
  unfold scanString
  split <;> rename_i hrest
  · exact Nat.zero_le _
  · rw [hrest] at h
    exact Nat.le_of_succ_le h

/-- A number takes bytes and puts none back. -/
private theorem length_scanNumber_le (line : Nat) (b : UInt8) (bs : List UInt8) :
    (scanNumber line b bs).rest.length ≤ bs.length := by
  have hwhole := length_dropWhile_le isDigitByte bs
  unfold scanNumber
  dsimp only
  split
  · exact Nat.le_trans (length_dropWhile_le _ _) (Nat.le_trans (length_tail_le _) hwhole)
  · exact hwhole

/-- A stray character takes bytes and puts none back. -/
private theorem length_scanStray_le (line : Nat) (b : UInt8) (bs : List UInt8) :
    (scanStray line (b :: bs)).rest.length ≤ bs.length := by
  have hpos (c : Char) : 0 < c.utf8Size := c.utf8Size_pos
  unfold scanStray
  rw [List.length_drop, List.length_cons]
  have := hpos ((((b :: bs).take 4).toByteArray.utf8DecodeChar? 0).getD '\uFFFD')
  omega

/-- Scanning goes forwards by a byte or more. -/
theorem length_scan_le (line : Nat) (b : UInt8) (bs : List UInt8) :
    (scan line b bs).rest.length ≤ bs.length := by
  unfold scan
  split
  case h_13 | h_14 | h_15 | h_16 => exact length_scanOperator_le _ _ _ _
  case h_21 => exact length_scanSlash_le line bs
  case h_22 => exact length_scanString_le line bs
  case h_23 =>
    split
    · exact length_scanNumber_le line b bs
    · split
      · exact length_dropWhile_le _ _
      · exact length_scanStray_le line b bs
  all_goals exact Nat.le_refl _

/-- What a reader of a source gets: a token, or an error in its place. -/
inductive Item where
  | token (t : Token)
  | error (e : LexError)
deriving DecidableEq, Repr

/-- A position in a source: the bytes that are left of it, the line reached, and whether the end has been
    handed out. -/
structure Cursor where
  rest : List UInt8
  line : Nat
  finished : Bool
deriving DecidableEq, Repr

namespace Cursor

/-- The position at the front of a source. -/
def start (source : String) : Cursor :=
  ⟨source.toUTF8.data.toList, 1, false⟩

/-- What is read from here up to the next token or error, on line `line` or later. -/
def read (line : Nat) : List UInt8 → Item × Cursor
  | [] => (.token ⟨⟨"", line⟩, .eof⟩, ⟨[], line, true⟩)
  | b :: bs =>
    let front := scan line b bs
    let after : Cursor := ⟨front.rest, front.line, false⟩
    match front.reading with
    | .nothing => read front.line front.rest
    | .token kind => (.token ⟨⟨textOf (upTo front.rest (b :: bs)), front.line⟩, kind⟩, after)
    | .error cause => (.error ⟨cause, front.line⟩, after)
termination_by source => source.length
decreasing_by exact Nat.lt_succ_of_le (length_scan_le line b bs)

/-- The next item; after the end there is none, however often it is asked for. -/
def next (s : Cursor) : Option Item × Cursor :=
  if s.finished then (none, s)
  else
    let (item, after) := read s.line s.rest
    (some item, after)

/-- How many more items there can be. -/
def remaining (s : Cursor) : Nat :=
  if s.finished then 0 else s.rest.length + 1

/-- Reading does not raise the number of items that can still come. -/
theorem remaining_read_le (line : Nat) (source : List UInt8) :
    (read line source).2.remaining ≤ source.length := by
  fun_induction read line source with
  | case1 => simp [remaining]
  | case2 line b bs front _ ih =>
    have : front.rest.length ≤ bs.length := length_scan_le line b bs
    simp only [List.length_cons]
    omega
  | case3 line b bs | case4 line b bs => exact Nat.succ_le_succ (length_scan_le line b bs)

/-- Every item brings the end nearer, which is why the items can be collected. -/
theorem remaining_next_lt {s after : Cursor} {item : Item} (h : s.next = (some item, after)) :
    after.remaining < s.remaining := by
  unfold next at h
  split at h
  · simp at h
  · rename_i hopen
    have := remaining_read_le s.line s.rest
    obtain ⟨_, rfl⟩ := Prod.mk.inj h
    simp only [remaining, hopen, Bool.false_eq_true, if_false] at this ⊢
    omega

/-- The items from here on, behind those already read, which come last first. -/
def collect (read : List Item) (s : Cursor) : List Item × Cursor :=
  match _h : s.next with
  | (none, after) => (read.reverse, after)
  | (some item, after) => collect (item :: read) after
termination_by s.remaining
decreasing_by exact remaining_next_lt _h

end Cursor

/-- Every item of a source. -/
def items (source : String) : List Item :=
  (Cursor.collect [] (.start source)).1

namespace Item

/-- The token, if the item is one. -/
def token? : Item → Option Token
  | token t => some t
  | error _ => none

/-- The error, if the item is one. -/
def error? : Item → Option LexError
  | token _ => none
  | error e => some e

end Item

/-- The tokens of a source, in order; what is wrong with it is left out. -/
def tokens (source : String) : List Token :=
  (items source).filterMap Item.token?

/-- The errors about the tokens of a source, in order. -/
def lexErrors (source : String) : List LexError :=
  (items source).filterMap Item.error?

end Lox
