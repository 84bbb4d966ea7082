/-!
# Causes and severities of diagnostics

Every diagnostic has a code for its cause. The codes of the lexer begin with `E0` and those of the parser with `E1`.
-/

namespace QuillFrontEnd

/-- How bad a problem is, from the worst on. -/
inductive Severity where
  /-- Nothing after the problem was examined. -/
  | fatal
  /-- The input is wrong, and the rest of it was examined. -/
  | error
  | warning
deriving DecidableEq

namespace Severity

/-- How a severity is written. -/
def text : Severity → String
  | fatal => "fatal error"
  | error => "error"
  | warning => "warning"

/-- Whether a problem of this severity makes the input wrong. -/
def isError : Severity → Bool
  | fatal | error => true
  | warning => false

/-- The place of a severity in their order: the lower, the worse. -/
def rank : Severity → Nat
  | fatal => 0
  | error => 1
  | warning => 2

end Severity

/-- What a diagnostic is about. -/
inductive Code where
  | invalidCharacter
  | unexpectedToken
  | missingToken
  | skippedToken
  | tooManyDimensions
  | trailingInput
  | endOfInput
deriving DecidableEq

namespace Code

/-- Every code, in order. -/
def all : List Code :=
  [invalidCharacter, unexpectedToken, missingToken, skippedToken, tooManyDimensions, trailingInput, endOfInput]

/-- How a code is written. -/
def text : Code → String
  | invalidCharacter => "E0001"
  | unexpectedToken => "E1001"
  | missingToken => "E1002"
  | skippedToken => "E1003"
  | tooManyDimensions => "E1004"
  | trailingInput => "E1005"
  | endOfInput => "E1006"

/-- What a code stands for, in a few words. -/
def description : Code → String
  | invalidCharacter => "invalid character in source"
  | unexpectedToken => "unexpected token"
  | missingToken => "missing token"
  | skippedToken => "unexpected token skipped"
  | tooManyDimensions => "too many array dimensions"
  | trailingInput => "unexpected input after main block"
  | endOfInput => "unrecoverable end of input"

/-- Whether a code is one of the lexer's. -/
def ofLexer : Code → Bool
  | invalidCharacter => true
  | _ => false

/-- Whether a code is one of the parser's. -/
def ofParser (c : Code) : Bool := !c.ofLexer

/-- The severity of a diagnostic that is not given another one: only the end of the input is fatal. -/
def defaultSeverity : Code → Severity
  | endOfInput => .fatal
  | _ => .error

/-- The place of a code in `all`, counted from 0. -/
def index (c : Code) : Nat := all.idxOf c

/-- A text that is no code. -/
structure UnknownCode where
  text : String
deriving DecidableEq

/-- The sentence that reports a text that is no code. -/
def UnknownCode.message (e : UnknownCode) : String := "unknown error code: " ++ e.text

/-- The code that is written as a text; upper and lower case of ASCII letters are the same. -/
def ofText (s : String) : Except UnknownCode Code :=
  match all.find? fun c => c.text.toList == s.toList.map Char.toUpper with
  | some c => .ok c
  | none => .error ⟨s⟩

end Code

end QuillFrontEnd
