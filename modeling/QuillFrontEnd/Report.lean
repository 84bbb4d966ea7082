import QuillFrontEnd.Diagnostic
import QuillFrontEnd.Report.Style
import QuillFrontEnd.Text.Layout
import QuillFrontEnd.Text.Slice

/-!
# Reports

A diagnostic is reported by a headline, its place, the line of the source that it is about with carets under the part that is
wrong, and its notes. Where the source is not at hand, or has no such line, the words beside the carets stand on a line of their
own.
-/

namespace QuillFrontEnd

/-- A source text with the path it was read from. -/
structure SourceFile where
  path : String
  text : String
deriving DecidableEq

namespace Report

/-- The style of what is said about a problem. -/
def styleOf : Severity → Style
  | .fatal | .error => .error
  | .warning => .warning

/-- A chunk of plain text. -/
def plain (text : String) : Chunk := ⟨.plain, text⟩

/-- The line of a source that has a number, counted from 1. -/
def sourceLine? (source : String) (number : Nat) : Option (List Char) :=
  match number with
  | 0 => none
  | n + 1 => (Text.lines source.toList)[n]?

/-- The blanks that stand under the characters of a line before a column: a tab under a tab and a space under any other. -/
def indent (line : List Char) (column : Nat) : List Char :=
  (line.take (column - 1)).map fun c => if c = '\t' then '\t' else ' '

/-- The number of characters of a span up to the end of its first line; none if the span is no part of the source. -/
def spanWidth (source : String) (span : Span) : Nat :=
  match Text.slice? source.toList span.start span.stop with
  | some cs => (cs.takeWhile (· != '\n')).length
  | none => 0

/-- The carets under a span, of which there is at least one. -/
def carets (source : String) (span : Span) : String := String.ofList (List.replicate (max 1 (spanWidth source span)) '^')

/-- The margin to the left of a line that has no number. -/
def margin (gutter : Nat) (mark : String) : Chunk := ⟨.gutter, Text.spaces gutter ++ mark⟩

/-- The line of the source that a diagnostic is about, with carets and label below it. -/
def snippet (source : String) (d : Diagnostic) (gutter : Nat) (line : List Char) : List Chunk :=
  let style := styleOf d.severity
  [margin gutter " |", plain "\n",
   ⟨.gutter, d.position.line.repr ++ " |"⟩, plain (" " ++ String.ofList line ++ "\n"),
   margin gutter " |", plain (" " ++ String.ofList (indent line d.position.column)), ⟨style, carets source d.span⟩] ++
  (match d.label with
   | some label => [plain " ", ⟨style, label⟩]
   | none => []) ++
  [plain "\n"]

/-- The label of a diagnostic on a line of its own. -/
def bareLabel (d : Diagnostic) (gutter : Nat) : List Chunk :=
  match d.label with
  | some label => [margin gutter " =", plain (" " ++ label ++ "\n")]
  | none => []

/-- A note on a line of its own. -/
def noteLine (gutter : Nat) (note : String) : List Chunk :=
  [margin gutter " =", plain " ", ⟨.note, "note"⟩, plain (": " ++ note ++ "\n")]

/-- The snippet of a diagnostic, or its label where there is no line to show. -/
def excerpt (source : Option SourceFile) (d : Diagnostic) (gutter : Nat) : List Chunk :=
  match source with
  | none => bareLabel d gutter
  | some file =>
    match sourceLine? file.text d.position.line with
    | some line => snippet file.text d gutter line
    | none => bareLabel d gutter

/-- The place of a diagnostic: its position, after the path of the source if that is at hand. -/
def place (source : Option SourceFile) (d : Diagnostic) : String :=
  match source with
  | some file => file.path ++ ":" ++ d.position.text
  | none => d.position.text

/-- The report of a diagnostic, with an empty line after it. The margin is as wide as the number of its line. -/
def ofDiagnostic (source : Option SourceFile) (d : Diagnostic) : List Chunk :=
  let gutter := d.position.line.repr.length
  [⟨styleOf d.severity, d.severity.text ++ "[" ++ d.code.text ++ "]"⟩, ⟨.bold, ": " ++ d.message⟩, plain "\n",
   margin gutter "-->", plain (" " ++ place source d ++ "\n")] ++
  excerpt source d gutter ++ d.notes.flatMap (noteLine gutter) ++ [plain "\n"]

/-- The report of several diagnostics, one after the other. -/
def ofDiagnostics (source : Option SourceFile) (ds : List Diagnostic) : List Chunk := ds.flatMap (ofDiagnostic source)

/-- The closing line of a report: how many errors and warnings there are, or nothing if there are none. -/
def tally (errors warnings : Nat) : List Chunk :=
  if 0 < errors then
    let both := if 0 < warnings then " and " ++ Text.counted warnings "warning" else ""
    [⟨.error, "error"⟩, plain (": " ++ Text.counted errors "error" ++ both ++ " emitted\n")]
  else if 0 < warnings then [⟨.warning, "warning"⟩, plain (": " ++ Text.counted warnings "warning" ++ " emitted\n")]
  else []

/-- The whole report on a source file, or nothing if there are no diagnostics. -/
def ofFile (file : SourceFile) (ds : List Diagnostic) (errors warnings : Nat) : List Chunk :=
  if ds.isEmpty then [] else ofDiagnostics (some file) ds ++ tally errors warnings

end Report

end QuillFrontEnd
