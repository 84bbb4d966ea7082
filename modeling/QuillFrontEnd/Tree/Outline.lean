import QuillFrontEnd.Tree.Element
import QuillFrontEnd.Text.Layout

/-!
# The outline of a tree

The outline has a line for every element of a tree, each before its children, indented by two spaces for each level below the
root. A node is shown by its rule and span, a terminal by its kind, text and position, and a missing terminal as such.
-/

namespace QuillFrontEnd

/-- The line of a terminal in an outline. -/
def Terminal.outlineText (t : Terminal) : String :=
  if t.missing then "<missing " ++ t.kind.displayName ++ ">"
  else t.kind.name ++ " " ++ Text.quoted t.lexeme ++ " @ " ++ t.position.text

namespace Element

/-- The line of an element in an outline, without its indent and its end. -/
def outlineText : Element → String
  | leaf t => t.outlineText
  | node rule span _ => rule.name ++ " " ++ span.text

/-- A line of an outline at a depth below the root. -/
def outlineLine (depth : Nat) (text : String) : String := Text.spaces (2 * depth) ++ text ++ "\n"

mutual

/-- The outline of an element at a depth below the root. -/
def outline (depth : Nat) : Element → String
  | leaf t => outlineLine depth (leaf t).outlineText
  | node rule span children =>
    outlineLine depth (node rule span children).outlineText ++ outlineOfAll (depth + 1) children

/-- The outlines of several elements at a depth below the root. -/
def outlineOfAll (depth : Nat) : List Element → String
  | [] => ""
  | e :: es => e.outline depth ++ outlineOfAll depth es

end

end Element

/-- The outline of a program. -/
def Program.outline (n : Program) : String := n.element.outline 0

end QuillFrontEnd
