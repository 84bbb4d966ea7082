import QuillFrontEnd.Diagnostic.Queue
import QuillFrontEnd.Lexing
import QuillFrontEnd.Parser

/-!
# Analysing a source text

The analysis of a source text lexes and parses it and collects the diagnostics of both in one queue, those of the lexer first.
-/

namespace QuillFrontEnd

/-- Whether an input is right. -/
inductive Status where
  | clean
  /-- The input has errors. -/
  | failed
deriving DecidableEq

namespace Status

/-- The exit status of a command that ended in a status. -/
def exitCode : Status → Nat
  | clean => 0
  | failed => 1

/-- The status of an input with a number of errors. -/
def ofErrorCount (errors : Nat) : Status := if errors = 0 then clean else failed

end Status

/-- What is known of a source text. -/
structure Analysis where
  tokens : TokenList
  parse : ParseOutput
  /-- The diagnostics of the lexer and the parser that were kept, in the order of their positions. -/
  diagnostics : List Diagnostic
  errorCount : Nat
  warningCount : Nat

/-- The status of an analysed text. -/
def Analysis.status (a : Analysis) : Status := .ofErrorCount a.errorCount

/-- The queue of the diagnostics of a lexed text and of its parse. -/
def Analysis.queue (lexed : LexOutput) (parsed : ParseOutput) : Queue :=
  ((Queue.empty .standard).addAll lexed.diagnostics).addAll parsed.diagnostics

/-- Analyses a source text. It fails only for a text that is too large to lex. -/
def analyze (source : String) : Except SpanError Analysis :=
  match lex source with
  | .error e => .error e
  | .ok lexed =>
    let parsed := parse lexed.tokens
    let queue := Analysis.queue lexed parsed
    .ok ⟨lexed.tokens, parsed, queue.sorted, queue.errorCount, queue.warningCount⟩

end QuillFrontEnd
