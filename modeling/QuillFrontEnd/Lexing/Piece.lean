import QuillFrontEnd.Token.Kind

/-!
# What a source text is read as

A source text is read one piece after the other: a token, one invalid character, or white space or a comment, which no token is
made of. The pieces of a text put together again are the text. A word, a number and a comment go as far as they can; each white
space character and each invalid character is a piece of its own.
-/

namespace QuillFrontEnd.Lexing

/-- White space: space, tab, carriage return, line feed and form feed. -/
def isSpace (c : Char) : Bool := c == ' ' || c == '\t' || c == '\r' || c == '\n' || c == '\x0c'

/-- The decimal digits. -/
def isDigit (c : Char) : Bool := '0' ≤ c && c ≤ '9'

/-- What a word starts with: an ASCII letter or an underscore. -/
def isWordStart (c : Char) : Bool := ('a' ≤ c && c ≤ 'z') || ('A' ≤ c && c ≤ 'Z') || c == '_'

/-- What a word goes on with: also a digit. -/
def isWordPart (c : Char) : Bool := isWordStart c || isDigit c

/-- The kind of a punctuation mark, for the nine characters that are one. -/
def markKind? (c : Char) : Option TokenKind :=
  TokenKind.all.find? fun k => !k.isKeyword && k.spelling? == some (String.singleton c)

/-- The kind of a word: the keyword with that spelling, or else an identifier. -/
def wordKind (word : String) : TokenKind :=
  (TokenKind.all.find? fun k => k.isKeyword && k.spelling? == some word).getD .identifier

/-- A mark is no keyword and is spelled as the character. -/
theorem spelling_of_markKind? {c : Char} {k : TokenKind} (h : markKind? c = some k) :
    k.isKeyword = false ∧ k.spelling? = some (String.singleton c) := by
  have hk := List.find?_some h
  rwa [Bool.and_eq_true, Bool.not_eq_true', beq_iff_eq] at hk

/-- A word is a keyword, and then its kind is spelled that way, or else an identifier. -/
theorem wordKind_cases (word : String) :
    ((wordKind word).isKeyword = true ∧ (wordKind word).spelling? = some word) ∨
      (wordKind word = .identifier ∧ ∀ k : TokenKind, k.isKeyword = true → k.spelling? ≠ some word) := by
  unfold wordKind
  cases hfind : TokenKind.all.find? fun k => k.isKeyword && k.spelling? == some word with
  | none =>
    rw [List.find?_eq_none] at hfind
    refine .inr ⟨rfl, fun k hk hs => hfind k (TokenKind.mem_all k) ?_⟩
    rw [hk, hs, Bool.true_and, beq_iff_eq]
  | some k =>
    have hk := List.find?_some hfind
    rw [Bool.and_eq_true, beq_iff_eq] at hk
    exact .inl hk

theorem wordKind_ne {k : TokenKind} (hkey : k.isKeyword = false) (hk : k ≠ .identifier) (word : String) : wordKind word ≠ k := by
  rintro rfl
  rcases wordKind_cases word with ⟨h, -⟩ | ⟨h, -⟩
  · rw [hkey] at h
    cases h
  · exact hk h

/-- Whether a text starts with the two slashes of a comment. -/
def startsComment : List Char → Bool
  | '/' :: '/' :: _ => true
  | _ => false

/-- A piece of a source text: its characters, and the kind of token that they are, if they are one. -/
structure Piece where
  kind : Option TokenKind
  text : List Char
deriving DecidableEq

/-- What is read next of a text that is not empty, given its first character and the others, and the rest of the text. A character
that nothing else starts with is invalid, and is read alone. -/
def nextRaw (c : Char) (cs : List Char) : Piece × List Char :=
  if isSpace c then (⟨none, [c]⟩, cs)
  else if startsComment (c :: cs) then (⟨none, c :: cs.takeWhile (· != '\n')⟩, cs.dropWhile (· != '\n'))
  else if isWordStart c then
    let word := c :: cs.takeWhile isWordPart
    (⟨some (wordKind (String.ofList word)), word⟩, cs.dropWhile isWordPart)
  else if isDigit c then (⟨some .integer, c :: cs.takeWhile isDigit⟩, cs.dropWhile isDigit)
  else (⟨some ((markKind? c).getD .invalid), [c]⟩, cs)

/-- No character is lost between what is read next and the rest of the text. -/
theorem nextRaw_append (c : Char) (cs : List Char) : (nextRaw c cs).1.text ++ (nextRaw c cs).2 = c :: cs := by
  unfold nextRaw
  repeat' split
  all_goals simp [List.takeWhile_append_dropWhile]

/-- At least one character is read. -/
theorem nextRaw_ne_nil (c : Char) (cs : List Char) : (nextRaw c cs).1.text ≠ [] := by
  unfold nextRaw
  repeat' split
  all_goals simp

/-- The rest of a text after what is read next is shorter than the text. -/
theorem nextRaw_rest_lt (c : Char) (cs : List Char) : (nextRaw c cs).2.length < (c :: cs).length := by
  have happ := congrArg List.length (nextRaw_append c cs)
  have hpos := List.length_pos_iff.2 (nextRaw_ne_nil c cs)
  rw [List.length_append] at happ
  omega

end QuillFrontEnd.Lexing
