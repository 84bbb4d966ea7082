/-!
# Widths and counts

Columns and indents are made of spaces, and things are counted in the singular and the plural.
-/

namespace QuillFrontEnd.Text

/-- So many spaces. -/
def spaces (count : Nat) : String := String.ofList (List.replicate count ' ')

/-- A text filled up with spaces on the right to a width; a longer text is left as it is. -/
def padRight (width : Nat) (text : String) : String := text ++ spaces (width - text.length)

/-- A number of things: `1 error`, `2 errors`. -/
def counted (n : Nat) (thing : String) : String := n.repr ++ " " ++ thing ++ if n = 1 then "" else "s"

end QuillFrontEnd.Text
