import QuillFrontEnd.Parser.Rules

/-!
# Parsing

Parsing a token list gives a tree, however broken the input is, and with it what was wrong. Every token is in the tree or among
the skipped tokens.
-/

namespace QuillFrontEnd

/-- What parsing a token list gives. -/
structure ParseOutput where
  tree : Program
  /-- How reading the program ended. -/
  verdict : Parser.Verdict
  /-- What the parse has done, the last step first. -/
  trace : List Parser.Event
  /-- The number of tokens that were taken or dropped. -/
  consumed : Nat

namespace Parser.Event

/-- The diagnostic that a step reports. -/
def reported? : Event → Option Diagnostic
  | report d => some d
  | _ => none

/-- The token that a step drops. -/
def dropped? : Event → Option Token
  | drop t => some t
  | _ => none

end Parser.Event

namespace ParseOutput

/-- The diagnostics, in the order in which they were reported. -/
def diagnostics (o : ParseOutput) : List Diagnostic := o.trace.reverse.filterMap Parser.Event.reported?

/-- The tokens that are not in the tree, in order. -/
def skipped (o : ParseOutput) : List Token := o.trace.reverse.filterMap Parser.Event.dropped?

/-- Whether an error was reported. -/
def hasErrors (o : ParseOutput) : Bool := o.diagnostics.any Diagnostic.isError

/-- Whether the parse gave up before the end. -/
def isFatal (o : ParseOutput) : Bool := o.diagnostics.any Diagnostic.isFatal

/-- Whether nothing was reported and nothing skipped. -/
def isClean (o : ParseOutput) : Bool := o.diagnostics.isEmpty && o.skipped.isEmpty

end ParseOutput

/-- Parses a token list with a decision table. -/
def parseWith (table : Table) (tokens : TokenList) : ParseOutput :=
  let o := Parser.program table (.initial tokens)
  ⟨o.node, o.verdict, o.state.trace, o.state.consumed⟩

/-- Parses a token list with the standard decision table. -/
def parse (tokens : TokenList) : ParseOutput := parseWith .standard tokens

end QuillFrontEnd
