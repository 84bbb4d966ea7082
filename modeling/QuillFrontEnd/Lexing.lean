import QuillFrontEnd.Lexing.Piece
import QuillFrontEnd.Diagnostic
import QuillFrontEnd.Token.TokenList
import QuillFrontEnd.Text.Slice

/-!
# Lexing

Lexing a source text gives its tokens, each at its place, and a diagnostic for each run of invalid characters. A loop reads the
text front to back, follows the line and column, and glues an invalid character to an invalid token that it touches. Lexing fails
only for a text with more bytes than a span can count.
-/

namespace QuillFrontEnd

namespace Position

/-- The position after a character: a line feed starts a new line, and columns stop counting at `maxOffset`. -/
def next (p : Position) (c : Char) : Position :=
  if c = '\n' then ⟨p.line + 1, 1⟩ else ⟨p.line, min (p.column + 1) maxOffset⟩

/-- The position after a text. -/
def after (p : Position) (text : List Char) : Position := text.foldl next p

theorem after_append (p : Position) (text more : List Char) : p.after (text ++ more) = (p.after text).after more :=
  List.foldl_append

end Position

namespace Lexing

/-- Walks a text front to back and tells the lines and columns of its offsets. -/
structure LineTracker where
  /-- The part of the text from the offset on. -/
  ahead : List Char
  /-- The offset that has been reached. -/
  offset : Nat
  /-- Its line and column. -/
  position : Position

namespace LineTracker

/-- The tracker at the start of a text. -/
def start (text : List Char) : LineTracker := ⟨text, 0, .first⟩

/-- The tracker after a walk to an offset, given the text, offset and position that it starts from. -/
def walk (target : Nat) : List Char → Nat → Position → LineTracker
  | [], offset, p => ⟨[], offset, p⟩
  | c :: cs, offset, p => if offset < target then walk target cs (offset + c.utf8Size) (p.next c) else ⟨c :: cs, offset, p⟩

/-- The tracker moved on to an offset, which is not before the one that it has reached. -/
def moveTo (t : LineTracker) (target : Nat) : LineTracker := walk target t.ahead t.offset t.position

end LineTracker

/-- An invalid character and the tokens before it, the last one first: it is glued to the last token if that is invalid and stops
where the character starts. -/
def glue (t : Token) : List Token → List Token
  | [] => [t]
  | last :: before =>
    if last.kind == .invalid && last.span.stop == t.span.start then
      { last with span := last.span.merge t.span, lexeme := last.lexeme ++ t.lexeme } :: before
    else t :: last :: before

/-- How far the loop over a text has come. -/
structure Progress where
  /-- The tokens so far, the last one first. -/
  tokens : List Token
  /-- Where the last token starts. -/
  tracker : LineTracker

/-- One step of the loop: a piece is read at an offset. -/
def Progress.read (s : Progress) (offset : Nat) (piece : Piece) : Except SpanError Progress :=
  match piece.kind with
  | none => .ok s
  | some kind => do
    let span ← Span.ofRange offset (offset + Text.byteLength piece.text)
    let tracker := s.tracker.moveTo offset
    let token : Token := ⟨kind, String.ofList piece.text, span, tracker.position⟩
    return { tokens := if kind == .invalid then glue token s.tokens else token :: s.tokens, tracker }

/-- The loop over a text from an offset on. -/
def readAll (offset : Nat) (s : Progress) : List Char → Except SpanError Progress
  | [] => .ok s
  | c :: cs => do
    let s' ← s.read offset (nextRaw c cs).1
    readAll (offset + Text.byteLength (nextRaw c cs).1.text) s' (nextRaw c cs).2
termination_by text => text.length
decreasing_by exact nextRaw_rest_lt c cs

/-- The diagnostic of an invalid token. -/
def invalidCharacters (t : Token) : Diagnostic :=
  let plural := if t.lexeme.length = 1 then "" else "s"
  ((Diagnostic.ofCode .invalidCharacter).saying ("invalid character" ++ plural ++ " " ++ t.describe)).blaming t

end Lexing

/-- What lexing a source text gives. -/
structure LexOutput where
  /-- The tokens, up to the end of the input. -/
  tokens : TokenList
  /-- One diagnostic for each invalid token, in order. -/
  diagnostics : List Diagnostic

/-- The tokens and diagnostics of a source text. -/
def lex (source : String) : Except SpanError LexOutput := do
  let text := source.toList
  let size := Text.byteLength text
  let stop ← Span.ofRange size size
  let last ← Lexing.readAll 0 ⟨[], .start text⟩ text
  let tokens := last.tokens.reverse
  let sentinel : Token := ⟨.endOfInput, "", stop, (last.tracker.moveTo size).position⟩
  return {
    tokens := TokenList.ofTokens (tokens ++ [sentinel])
    diagnostics := (tokens.filter fun t => t.kind == .invalid).map Lexing.invalidCharacters }

end QuillFrontEnd
