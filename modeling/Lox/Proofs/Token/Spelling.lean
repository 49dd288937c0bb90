import Lox.Proofs.Token.Items
import Lox.Proofs.Tree.Form

namespace Lox

/-- A token is spelled as its kind says, as far as names are concerned. -/
structure Token.Spelled (t : Token) : Prop where
  identifier : t.kind = .identifier → IsPlain t.lexeme
  this : t.kind = .this → t.lexeme = "this"
  super : t.kind = .super → t.lexeme = "super"

namespace TokenKind

/-- The kinds of tokens whose spelling matters. -/
def isNaming : TokenKind → Bool
  | identifier | this | super => Bool.true
  | _ => Bool.false

/-- What is found in a list of entries is one of them. -/
private theorem mem_of_lookup {entries : List (String × TokenKind)} {word : String}
    {kind : TokenKind} (h : entries.lookup word = some kind) : (word, kind) ∈ entries := by
  induction entries with
  | nil => cases h
  | cons entry rest ih =>
    obtain ⟨first, other⟩ := entry
    by_cases hword : word = first
    · simp_all
    · have hne : (word == first) = Bool.false := beq_eq_false_iff_ne.mpr hword
      rw [List.lookup_cons, hne] at h
      exact List.mem_cons_of_mem _ (ih h)

/-- A word that is not an identifier is a keyword. -/
theorem mem_keywords {word : String} {kind : TokenKind} (h : ofWord word = kind)
    (hkind : kind ≠ identifier) : (word, kind) ∈ keywords := by
  unfold ofWord at h
  cases hlookup : keywords.lookup word with
  | none =>
    rw [hlookup] at h
    exact absurd h.symm hkind
  | some found =>
    rw [hlookup] at h
    cases h
    exact mem_of_lookup hlookup

end TokenKind

namespace Token

/-- Most kinds say nothing about the spelling. -/
theorem spelled_of_not_naming {t : Token} (h : t.kind.isNaming = false) : t.Spelled := by
  refine ⟨fun hkind => ?_, fun hkind => ?_, fun hkind => ?_⟩
  all_goals
    rw [hkind] at h
    cases h

/-- A word is spelled as its kind says, since it is looked up by its spelling. -/
theorem spelled_ofWord (word : String) (line : Nat) : Spelled ⟨⟨word, line⟩, .ofWord word⟩ where
  identifier hkind := by
    have hthis : TokenKind.ofWord "this" ≠ .identifier := by decide
    have hsuper : TokenKind.ofWord "super" ≠ .identifier := by decide
    refine ⟨?_, ?_⟩
    · rintro rfl
      exact hthis hkind
    · rintro rfl
      exact hsuper hkind
  this hkind := by simpa [TokenKind.keywords] using TokenKind.mem_keywords hkind (by simp)
  super hkind := by simpa [TokenKind.keywords] using TokenKind.mem_keywords hkind (by simp)

end Token

namespace Piece

/-- What a piece is read as, if it is a token, is spelled as it should be. -/
def Spelled (piece : Piece) : Prop :=
  ∀ kind line, piece.reading = .token kind →
    Token.Spelled ⟨⟨String.ofList piece.text, line⟩, kind⟩

private theorem spelled_token {kind : TokenKind} (h : kind.isNaming = false)
    (text rest : List Char) : Spelled ⟨.token kind, text, rest⟩ := by
  intro kind' line hkind
  cases hkind
  exact Token.spelled_of_not_naming h

private theorem spelled_of_no_token {piece : Piece} (h : ∀ kind, piece.reading ≠ .token kind) :
    piece.Spelled :=
  fun kind _ hkind => absurd hkind (h kind)

private theorem spelled_operator {long short : TokenKind} (hlong : long.isNaming = false)
    (hshort : short.isNaming = false) (c : Char) (cs : List Char) :
    (operator long short c cs).Spelled := by
  unfold operator
  split
  · exact spelled_token hlong _ _
  · exact spelled_token hshort _ _

private theorem spelled_slash (cs : List Char) : (slash cs).Spelled := by
  unfold slash
  split
  · exact spelled_of_no_token (by simp [lineComment])
  · unfold blockComment
    split
    · exact spelled_of_no_token (by simp)
    · exact spelled_of_no_token (by simp)
  · exact spelled_token rfl _ _

private theorem spelled_string (cs : List Char) : (string cs).Spelled := by
  unfold string
  dsimp only
  split
  · exact spelled_token rfl _ _
  · exact spelled_of_no_token (by simp)

private theorem spelled_number (c : Char) (cs : List Char) : (number c cs).Spelled := by
  unfold number
  dsimp only
  split
  · split
    · exact spelled_token rfl _ _
    · exact spelled_token rfl _ _
  · exact spelled_token rfl _ _

private theorem spelled_word (c : Char) (cs : List Char) : (word c cs).Spelled := by
  intro kind line hkind
  cases hkind
  exact Token.spelled_ofWord _ line

/-- The first piece of a source is spelled as its kind says. -/
theorem cut_spelled (c : Char) (cs : List Char) : (cut c cs).Spelled := by
  unfold cut
  split
  all_goals first
    | exact spelled_token rfl _ _
    | exact spelled_operator rfl rfl _ _
    | exact spelled_slash cs
    | exact spelled_string cs
    | (refine spelled_of_no_token fun _ => ?_; simp; done)
    | skip
  split
  · exact spelled_number c cs
  · split
    · exact spelled_word c cs
    · exact spelled_of_no_token (by simp)

end Piece

/-- Every token that is found is spelled as it should be. -/
theorem Cursor.spelled_of_found {line : Nat} {source : List Char} {t : Token}
    (h : Item.token t ∈ found line source) : t.Spelled := by
  fun_induction found line source with
  | case1 => cases h
  | case2 line c cs piece _ _ ih => exact ih h
  | case3 line c cs piece _ kind hreading ih =>
    rcases List.mem_cons.mp h with hfirst | hrest
    · obtain rfl := Item.token.inj hfirst
      exact Piece.cut_spelled c cs kind _ hreading
    · exact ih hrest
  | case4 line c cs piece _ cause hreading ih =>
    rcases List.mem_cons.mp h with hfirst | hrest
    · cases hfirst
    · exact ih hrest

/-- Every token of a source is spelled as its kind says, the end among them. -/
theorem tokens_spelled (source : String) : ∀ t ∈ tokens source, t.Spelled := by
  intro t ht
  rw [tokens_eq] at ht
  rcases List.mem_append.mp ht with hbody | hend
  · obtain ⟨item, hitem, htoken⟩ := List.mem_filterMap.mp hbody
    cases item with
    | token t' =>
      cases htoken
      exact Cursor.spelled_of_found hitem
    | error e => cases htoken
  · obtain rfl := List.mem_singleton.mp hend
    exact Token.spelled_of_not_naming rfl

end Lox
