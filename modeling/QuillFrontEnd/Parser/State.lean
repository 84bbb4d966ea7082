import QuillFrontEnd.Diagnostic
import QuillFrontEnd.Grammar.Table
import QuillFrontEnd.Token.Cursor
import QuillFrontEnd.Tree

/-!
# The state of a parse

A parse reads its tokens through a cursor and keeps a trace of all that it does: what it set out to read, which tokens it took
into the tree and which it dropped, which terminals it put in, and what it reported. The diagnostics and the dropped tokens of a
parse are read off the trace. Besides, the state says whether the parse is on track or looking for a place to go on.
-/

namespace QuillFrontEnd

namespace Parser

/-- Whether a parse is on track. -/
inductive Mode where
  | normal
  /-- An error was reported, and the parse has not found a place to go on. -/
  | recovering
deriving DecidableEq

/-- What a parse sets out to do. -/
inductive Goal where
  /-- To read a phrase of a rule. -/
  | rule (rule : Rule)
  /-- To make a decision. -/
  | decision (decision : Decision)
  /-- To read a terminal. -/
  | terminal (kind : TokenKind)
deriving DecidableEq

/-- A step of a parse. -/
inductive Event where
  /-- Set out to do something, in a mode. -/
  | attempt (goal : Goal) (mode : Mode)
  /-- Took a token into the tree. -/
  | shift (token : Token)
  /-- Dropped a token. -/
  | drop (token : Token)
  /-- Put in a terminal before a token. -/
  | insert (kind : TokenKind) (before : Token)
  /-- Reported a problem. -/
  | report (diagnostic : Diagnostic)
  /-- Left a problem unreported that was met while recovering from another one. -/
  | mute (diagnostic : Diagnostic)
  /-- Gave up in a rule, in front of a token. -/
  | abandon (rule : Rule) (lookahead : Token)
deriving DecidableEq

/-- The state of a parse between two steps. -/
structure State where
  cursor : Cursor
  /-- The number of tokens that were taken or dropped. -/
  consumed : Nat := 0
  /-- Where the last of these tokens ends. -/
  lastEnd : Nat := 0
  mode : Mode := .normal
  /-- What the parse has done, the last step first. -/
  trace : List Event := []

namespace State

/-- The state of a parse that has done nothing. -/
def initial (tokens : TokenList) : State := { cursor := .ofTokenList tokens }

/-- The next token. -/
def lookahead (s : State) : Token := s.cursor.peek

/-- The kind of the next token. -/
def nextKind (s : State) : TokenKind := s.lookahead.kind

/-- The number of tokens ahead, the sentinel not counted. -/
def remaining (s : State) : Nat := s.cursor.rest.length

/-- The state after a step that only leaves a trace. -/
def log (s : State) (e : Event) : State := { s with trace := e :: s.trace }

/-- The state after setting out to do something. -/
def attempt (s : State) (goal : Goal) : State := s.log (.attempt goal s.mode)

/-- The state after moving over the next token, which leaves the trace `mark` of that token. -/
def pass (s : State) (mark : Token → Event) : State :=
  let (token, cursor) := s.cursor.advance
  { s with
    cursor
    consumed := s.consumed + 1
    lastEnd := token.span.stop
    trace := mark token :: s.trace }

/-- The state after taking the next token into the tree. -/
def shift (s : State) : State := s.pass .shift

/-- The state after dropping the next token. -/
def drop (s : State) : State := s.pass .drop

/-- Drops the tokens of a list that lie ahead for as long as their kinds pass a test. -/
def dropAhead (test : TokenKind → Bool) : List Token → State → State
  | [], s => s
  | t :: ts, s => if test t.kind then dropAhead test ts s.drop else s

/-- The state after dropping tokens for as long as their kinds pass a test; the sentinel is not dropped. -/
def dropWhile (s : State) (test : TokenKind → Bool) : State := dropAhead test s.cursor.rest s

/-- The state after reporting a problem without losing track. -/
def report (s : State) (d : Diagnostic) : State := s.log (.report d)

/-- The state after meeting a problem that puts the parse off its track. A parse that is off its track already says nothing. -/
def mismatch (s : State) (d : Diagnostic) : State :=
  match s.mode with
  | .normal => { s.report d with mode := .recovering }
  | .recovering => s.log (.mute d)

/-- The state of a parse that is on track again. -/
def resume (s : State) : State := { s with mode := .normal }

/-- The diagnostic of a parse that comes to the end of the input before it is on track again. -/
def prematureEnd (rule : Rule) (t : Token) : Diagnostic :=
  (((Diagnostic.ofCode .endOfInput).saying
    "unexpected end of input while recovering from a syntax error").before t).noting rule.context

/-- The state after giving up in a rule. -/
def abandon (s : State) (rule : Rule) : State :=
  (s.log (.abandon rule s.lookahead)).report (prematureEnd rule s.lookahead)

end State

end Parser

end QuillFrontEnd
