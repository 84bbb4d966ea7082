import QuillFrontEnd.Span
import QuillFrontEnd.Token.Kind
import QuillFrontEnd.Text.Quoted

/-!
# Tokens

A token is a kind, the text it was made from, and where that text stands.
-/

namespace QuillFrontEnd

/-- A token: its kind, its text (empty at the end of the input), and the place of that text. -/
structure Token where
  kind : TokenKind
  lexeme : String
  span : Span
  position : Position
deriving DecidableEq

namespace Token

/-- A token of a kind that stands nowhere: its text is the friendly name of the kind. -/
def placeholder (kind : TokenKind) : Token := ⟨kind, kind.friendlyName, .zero, .first⟩

/-- Whether a token marks the end of the input. -/
def isEnd (t : Token) : Bool := t.kind == .endOfInput

/-- A token in a sentence: its text between backticks, or `end of input`. -/
def describe (t : Token) : String := if t.isEnd then "end of input" else "`" ++ t.lexeme ++ "`"

/-- A token in full, on one line: its kind, its quoted text and its position. -/
def inspect (t : Token) : String :=
  t.kind.name ++ "(" ++ Text.quoted t.lexeme ++ ") @ " ++ t.position.text

end Token

end QuillFrontEnd
