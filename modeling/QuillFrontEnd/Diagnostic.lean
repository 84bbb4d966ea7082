import QuillFrontEnd.Token
import QuillFrontEnd.Diagnostic.Code

/-!
# Diagnostics

A diagnostic is one problem of the input: its code and severity, a sentence, where it is, and, where they help, what was
expected there, which token was found, and notes. It is made by starting from a code and adding what is known.
-/

namespace QuillFrontEnd

/-- One problem of the input. -/
structure Diagnostic where
  code : Code
  severity : Severity
  message : String
  /-- Where the problem is; empty where something is missing. -/
  span : Span
  /-- The position of the start of the span. -/
  position : Position
  /-- What would have been accepted, in words. -/
  expected : Option String
  /-- The token that is to blame. -/
  found : Option Token
  notes : List String
deriving DecidableEq

namespace Diagnostic

/-- A diagnostic of a code, of its default severity and with nothing said yet. -/
def ofCode (code : Code) : Diagnostic := ⟨code, code.defaultSeverity, "", .zero, .first, none, none, []⟩

/-- The diagnostic with this sentence. -/
def saying (d : Diagnostic) (message : String) : Diagnostic := { d with message }

/-- The diagnostic with this severity. -/
def rated (d : Diagnostic) (severity : Severity) : Diagnostic := { d with severity }

/-- The diagnostic at this place. -/
def located (d : Diagnostic) (span : Span) (position : Position) : Diagnostic := { d with span, position }

/-- The diagnostic at the place of a token, with that token to blame. -/
def blaming (d : Diagnostic) (t : Token) : Diagnostic :=
  { d with span := t.span, position := t.position, found := some t }

/-- The diagnostic at the point before a token, which is not to blame. -/
def before (d : Diagnostic) (t : Token) : Diagnostic := { d with span := .point t.span.start, position := t.position }

/-- The diagnostic with these words for what was expected. -/
def expecting (d : Diagnostic) (expected : String) : Diagnostic := { d with expected := some expected }

/-- The diagnostic with one more note. -/
def noting (d : Diagnostic) (note : String) : Diagnostic := { d with notes := d.notes ++ [note] }

/-- The diagnostic of a token that fits nowhere at its place. -/
def unexpected (t : Token) (expected : String) : Diagnostic :=
  (((ofCode .unexpectedToken).saying ("unexpected " ++ t.describe)).blaming t).expecting expected

/-- Whether the problem makes the input wrong. -/
def isError (d : Diagnostic) : Bool := d.severity.isError

/-- Whether the problem ended the examination of the input. -/
def isFatal (d : Diagnostic) : Bool := d.severity == .fatal

/-- The words beside the carets: what was expected and what was found, as far as they are known. -/
def label (d : Diagnostic) : Option String :=
  match d.expected, d.found with
  | some expected, some found => some ("expected " ++ expected ++ ", found " ++ found.describe)
  | some expected, none => some ("expected " ++ expected)
  | none, some found => some ("found " ++ found.describe)
  | none, none => none

/-- A diagnostic on one line: its code, its position and its sentence. -/
def text (d : Diagnostic) : String := d.code.text ++ " at " ++ d.position.text ++ ": " ++ d.message

end Diagnostic

end QuillFrontEnd
