import QuillFrontEnd.Text.Unprintable

/-!
# Quoted text

A lexeme is shown between double quotes, with an escape for every character that would not show as itself. A quoted text
therefore holds no line break, whatever the lexeme holds.
-/

namespace QuillFrontEnd.Text

/-- A number in hexadecimal, in lower case and without leading zeros. -/
def hexadecimal (n : Nat) : List Char := Nat.toDigits 16 n

/-- How a character is written between quotes: a short escape for the common ones, the code point in hexadecimal for the
others without a glyph, and itself otherwise. -/
def escapeChar (c : Char) : List Char :=
  match c with
  | '\x00' => ['\\', '0']
  | '\t' => ['\\', 't']
  | '\r' => ['\\', 'r']
  | '\n' => ['\\', 'n']
  | '\\' => ['\\', '\\']
  | '"' => ['\\', '"']
  | c => if isUnprintable c then ['\\', 'u', '\x7b'] ++ hexadecimal c.toNat ++ ['\x7d'] else [c]

/-- A text between double quotes, each character escaped where it has to be. -/
def quoted (text : String) : String := String.ofList ('"' :: text.toList.flatMap escapeChar ++ ['"'])

end QuillFrontEnd.Text
