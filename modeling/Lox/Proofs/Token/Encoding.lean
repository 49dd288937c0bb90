import Lox.Token.Scan

namespace Lox

/-- The bytes of a text. -/
def bytesOf (text : List Char) : List UInt8 :=
  text.flatMap String.utf8EncodeChar

theorem bytesOf_cons (c : Char) (cs : List Char) :
    bytesOf (c :: cs) = String.utf8EncodeChar c ++ bytesOf cs :=
  List.flatMap_cons

theorem bytesOf_append (text more : List Char) : bytesOf (text ++ more) = bytesOf text ++ bytesOf more :=
  List.flatMap_append

/-- The bytes of a source are those of its characters. -/
theorem toUTF8_eq_bytesOf (source : String) : source.toUTF8.data.toList = bytesOf source.toList := by
  have hbytes : (String.ofList source.toList).toUTF8.data.toList = bytesOf source.toList :=
    List.toList_data_toByteArray
  rwa [String.ofList_toList] at hbytes

/-- The bytes of whole characters are read back as these. -/
theorem textOf_bytesOf (text : List Char) : textOf (bytesOf text) = String.ofList text := by
  have hbytes : (bytesOf text).toByteArray = (String.ofList text).toByteArray := rfl
  rw [textOf, hbytes, String.fromUTF8?, dif_pos (String.ofList text).isValidUTF8]
  rfl

theorem upTo_append (front rest : List UInt8) : upTo rest (front ++ rest) = front := by
  rw [upTo, List.length_append, Nat.add_sub_cancel, List.take_left]

/-- A character that takes more than one byte. The code of such a byte is none of a character that takes
    just one, so a reader that looks for the latter passes it by. -/
def Wide (c : Char) : Prop :=
  128 ≤ c.toNat

instance (c : Char) : Decidable (Wide c) :=
  inferInstanceAs (Decidable (128 ≤ c.toNat))

theorem toNat_ofUInt8 (b : UInt8) : (Char.ofUInt8 b).toNat = b.toNat :=
  UInt8.toNat_toUInt32 b

/-- No byte of a wide character can be taken for a character that takes one byte. -/
theorem encode_wide {c : Char} (h : Wide c) :
    ∀ b ∈ String.utf8EncodeChar c, Wide (.ofUInt8 b) := by
  intro b hb
  have hcode : ¬c.toNat ≤ 127 := by
    unfold Wide at h
    omega
  rw [Wide, toNat_ofUInt8]
  simp only [String.utf8EncodeChar, Char.toNat_val, hcode, if_false] at hb
  split at hb
  · simp only [List.mem_cons, List.not_mem_nil, or_false] at hb
    rcases hb with rfl | rfl <;> simp <;> omega
  · split at hb
    · simp only [List.mem_cons, List.not_mem_nil, or_false] at hb
      rcases hb with rfl | rfl | rfl <;> simp <;> omega
    · simp only [List.mem_cons, List.not_mem_nil, or_false] at hb
      rcases hb with rfl | rfl | rfl | rfl <;> simp <;> omega

/-- Any other character is the one byte of its code. -/
theorem exists_byte {c : Char} (h : ¬Wide c) :
    ∃ b, Char.ofUInt8 b = c ∧ ∀ cs, bytesOf (c :: cs) = b :: bytesOf cs := by
  have hcode : c.toNat < 128 := Nat.lt_of_not_le h
  refine ⟨UInt8.ofNat c.toNat, ?_, fun cs => ?_⟩
  · apply Char.toNat_inj.mp
    rw [toNat_ofUInt8]
    simp
    omega
  · have hle : c.toNat ≤ 127 := by omega
    simp [bytesOf_cons, String.utf8EncodeChar, hle]

/-- No digit takes more than one byte. -/
theorem isDigit_wide {c : Char} (hc : Wide c) : c.isDigit = false := by
  have hcode : 128 ≤ c.val.toNat := hc
  simp [Char.isDigit, UInt32.le_iff_toNat_le, -Char.toNat_val]
  omega

/-- No letter that scanning knows takes more than one byte. -/
theorem isAlpha_wide {c : Char} (hc : Wide c) : c.isAlpha = false := by
  have hcode : 128 ≤ c.val.toNat := hc
  have hupper : ¬(c.val ≥ 'A'.val ∧ c.val ≤ 'Z'.val) := fun h => by
    have hle : c.val.toNat ≤ 90 := UInt32.le_iff_toNat_le.mp h.2
    omega
  have hlower : ¬c.val ≤ 'z'.val := fun h => by
    have hle : c.val.toNat ≤ 122 := UInt32.le_iff_toNat_le.mp h
    omega
  change (decide _ || (decide _ && decide _)) = false
  rw [decide_eq_false hupper, decide_eq_false hlower, Bool.and_false, Bool.or_false]

/-- A word goes on with no wide character. -/
theorem isWordPart_wide {c : Char} (hc : Wide c) : isWordPart c = false := by
  have hunderscore : c ≠ '_' := by
    rintro rfl
    exact absurd hc (by decide)
  simp [isWordPart, Char.isAlphanum, isAlpha_wide hc, isDigit_wide hc, hunderscore]

theorem exists_first_byte (c : Char) : ∃ b bs, String.utf8EncodeChar c = b :: bs :=
  List.exists_cons_of_ne_nil String.utf8EncodeChar_ne_nil

/-- A character that takes one byte is seen where it is the next one, and nowhere else. -/
theorem peek_eq_iff {cs : List Char} {d : Char} (hd : ¬Wide d) (hnul : d ≠ '\x00') :
    peek (bytesOf cs) = d ↔ cs.head? = some d := by
  cases cs with
  | nil => simpa [peek, bytesOf] using hnul.symm
  | cons c cs =>
    rw [List.head?_cons, Option.some.injEq]
    by_cases hc : Wide c
    · obtain ⟨b, bs, hbytes⟩ := exists_first_byte c
      have hwide : Wide (.ofUInt8 b) := encode_wide hc b (hbytes ▸ List.mem_cons_self)
      rw [bytesOf_cons, hbytes]
      exact ⟨fun h => absurd (h ▸ hwide) hd, fun h => absurd (h ▸ hc) hd⟩
    · obtain ⟨b, hb, hbytes⟩ := exists_byte hc
      rw [hbytes, ← hb]
      rfl

/-- Nothing is taken at the end, nor a byte of a wide character. -/
theorem peek_isDigit_iff {cs : List Char} :
    (peek (bytesOf cs)).isDigit ↔ ∃ d rest, cs = d :: rest ∧ d.isDigit := by
  cases cs with
  | nil => simpa using (by decide : ¬(peek (bytesOf [])).isDigit)
  | cons c cs =>
    by_cases hc : Wide c
    · obtain ⟨b, bs, hbytes⟩ := exists_first_byte c
      have hwide : Wide (.ofUInt8 b) := encode_wide hc b (hbytes ▸ List.mem_cons_self)
      have hpeek : peek (bytesOf (c :: cs)) = .ofUInt8 b := by
        rw [bytesOf_cons, hbytes]
        rfl
      simp [hpeek, isDigit_wide hwide, isDigit_wide hc]
    · obtain ⟨b, hb, hbytes⟩ := exists_byte hc
      have hpeek : peek (bytesOf (c :: cs)) = c := by
        rw [hbytes, ← hb]
        rfl
      simp [hpeek]

/-- A character of one byte goes with the byte that stands for it. -/
theorem tail_bytesOf {d : Char} (hd : ¬Wide d) (cs : List Char) :
    (bytesOf (d :: cs)).tail = bytesOf cs := by
  obtain ⟨b, -, hbytes⟩ := exists_byte hd
  rw [hbytes, List.tail_cons]

/-- Characters that take a byte each are the codes of these. -/
theorem map_bytesOf {text : List Char} (h : ∀ c ∈ text, ¬Wide c) :
    (bytesOf text).map Char.ofUInt8 = text := by
  induction text with
  | nil => rfl
  | cons c text ih =>
    obtain ⟨hc, hrest⟩ := List.forall_mem_cons.mp h
    obtain ⟨b, hb, hbytes⟩ := exists_byte hc
    rw [hbytes, List.map_cons, hb, ih hrest]

/-- Whether a byte is taken does not hang on which wide character it is of. -/
def Even (p : Char → Bool) : Prop :=
  ∃ wide, ∀ c, Wide c → p c = wide

/-- Taking bytes off a source by what they stand for takes whole characters off it. -/
theorem span_bytesOf {p : Char → Bool} (hp : Even p) (cs : List Char) :
    (bytesOf cs).takeWhile (p <| .ofUInt8 ·) = bytesOf (cs.takeWhile p) ∧
      (bytesOf cs).dropWhile (p <| .ofUInt8 ·) = bytesOf (cs.dropWhile p) := by
  induction cs with
  | nil => exact ⟨rfl, rfl⟩
  | cons c cs ih =>
    have hsame : ∀ b ∈ String.utf8EncodeChar c, p (.ofUInt8 b) = p c := by
      intro b hb
      by_cases hc : Wide c
      · obtain ⟨wide, hwide⟩ := hp
        rw [hwide c hc, hwide _ (encode_wide hc b hb)]
      · obtain ⟨d, hd, hbytes⟩ := exists_byte hc
        have hone : String.utf8EncodeChar c = [d] := by simpa [bytesOf] using hbytes []
        rw [hone, List.mem_singleton] at hb
        rw [hb, hd]
    rw [List.takeWhile_cons, List.dropWhile_cons]
    cases hpc : p c with
    | true =>
      have hall : ∀ b ∈ String.utf8EncodeChar c, p (.ofUInt8 b) := fun b hb => (hsame b hb).trans hpc
      rw [bytesOf_cons, List.takeWhile_append_of_pos hall, List.dropWhile_append_of_pos hall, ih.1, ih.2]
      exact ⟨rfl, rfl⟩
    | false =>
      obtain ⟨b, bs, hbytes⟩ := exists_first_byte c
      have hfirst : p (.ofUInt8 b) = false := (hsame b (hbytes ▸ List.mem_cons_self)).trans hpc
      have hsource : bytesOf (c :: cs) = b :: (bs ++ bytesOf cs) := by
        rw [bytesOf_cons, hbytes, List.cons_append]
      rw [hsource, List.takeWhile_cons, List.dropWhile_cons, hfirst]
      exact ⟨rfl, hsource.symm⟩

/-- No word starts where none goes on. -/
theorem isWordStart_wide {c : Char} (hc : Wide c) : isWordStart c = false := by
  have hpart := isWordPart_wide hc
  unfold isWordPart Char.isAlphanum at hpart
  unfold isWordStart
  grind

theorem even_isDigit : Even Char.isDigit :=
  ⟨false, fun _ => isDigit_wide⟩

theorem even_isWordPart : Even isWordPart :=
  ⟨false, fun _ => isWordPart_wide⟩

theorem even_ne {d : Char} (hd : ¬Wide d) : Even (· != d) :=
  ⟨true, fun _ hc => bne_iff_ne.mpr fun h => hd (h ▸ hc)⟩

theorem Wide.ne {c d : Char} (hc : Wide c) (hd : ¬Wide d) : c ≠ d :=
  fun h => hd (h ▸ hc)

end Lox
