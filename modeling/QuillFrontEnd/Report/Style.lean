/-!
# Styled text

A report is a list of chunks of text, each with a style. Painting a report gives its text, with the escape sequences for the
styles of a terminal around the chunks or without any.
-/

namespace QuillFrontEnd

/-- When a report is painted in colours. -/
inductive ColorMode where
  /-- On a terminal, unless the environment asks for no colours. -/
  | auto
  | always
  | never
deriving DecidableEq

namespace ColorMode

/-- The mode that the value of a flag names. -/
def ofFlag? (value : String) : Option ColorMode :=
  if value = "auto" then some auto
  else if value = "always" then some always
  else if value = "never" then some never
  else none

/-- Whether a mode means colours, on a terminal or not, and with the wish for no colours or without it. -/
def colors (mode : ColorMode) (terminal noColor : Bool) : Bool :=
  match mode with
  | auto => terminal && !noColor
  | always => true
  | never => false

end ColorMode

namespace Report

/-- What a chunk of a report is, which decides how it is painted. -/
inductive Style where
  | plain
  | error
  | warning
  | note
  | bold
  | gutter
deriving DecidableEq

/-- The parameters of the escape sequence that starts a style; plain text has none. -/
def Style.parameters? : Style → Option String
  | plain => none
  | error => some "1;31"
  | warning => some "1;33"
  | note => some "1;36"
  | bold => some "1"
  | gutter => some "1;34"

/-- A piece of text in one style. -/
structure Chunk where
  style : Style
  text : String
deriving DecidableEq

/-- The escape sequence with the given parameters. -/
def escapeSequence (parameters : String) : String := "\x1b[" ++ parameters ++ "m"

/-- The text of a chunk, between the sequence that starts its style and the one that ends all styles if colours are on. -/
def Chunk.paint (colors : Bool) (c : Chunk) : String :=
  match colors, c.style.parameters? with
  | true, some parameters => escapeSequence parameters ++ c.text ++ escapeSequence "0"
  | _, _ => c.text

/-- The text of a report, with or without colours. -/
def paint (colors : Bool) (chunks : List Chunk) : String := String.join (chunks.map (Chunk.paint colors))

end Report

end QuillFrontEnd
