import QuillFrontEnd.Grammar.Resync
import QuillFrontEnd.Parser.State

/-!
# Steps of a rule

A rule reads its phrase in steps. Each step fills in a part of the node of the phrase and ends in a verdict; the next step is made
only if the verdict is `matched`, and what was filled in before stays in the node. The rule itself sets the span of its node and,
if it has a policy, goes on after an error.
-/

namespace QuillFrontEnd.Parser

/-- How reading a part of a phrase ended. -/
inductive Verdict where
  /-- The part was read, or mended. -/
  | matched
  /-- There was an error, and the parse is off its track. -/
  | mismatched
  /-- The parse gave up: the input ended before it was on track again. -/
  | outOfInput
  /-- The parse gave up: a repetition would go on for ever, because nothing was consumed in a turn of it. -/
  | stalled
deriving DecidableEq

/-- What reading a part of a phrase gives: its node, as far as it was filled in, the verdict, and the state after it. -/
structure Outcome (ν : Type) where
  node : ν
  verdict : Verdict
  state : State

/-- A reader of a phrase or of a part of one. -/
abbrev Reader (ν : Type) := State → Outcome ν

/-- A step of a rule: from the node as filled in so far to the node with one part more. -/
abbrev Step (ν : Type) := ν → State → Outcome ν

variable {ν μ : Type}

/-- The steps of a list, made in order up to the first one that does not end in `matched`. -/
def sequence : List (Step ν) → Step ν
  | [], n, s => ⟨n, .matched, s⟩
  | step :: steps, n, s =>
    let o := step n s
    match o.verdict with
    | .matched => sequence steps o.node o.state
    | _ => o

/-- The step that reads a part of its own and puts it in the node, however far that was read. -/
def child (reader : Reader μ) (put : ν → μ → ν) : Step ν := fun n s =>
  let o := reader s
  ⟨put n o.node, o.verdict, o.state⟩

/-! ## Terminals -/

/-- The diagnostic of a terminal that is put in before a token. -/
def missingTerminal (kind : TokenKind) (rule : Rule) (t : Token) : Diagnostic :=
  ((((Diagnostic.ofCode .missingToken).saying ("missing " ++ kind.displayName)).before t).expecting
    kind.displayName).noting rule.context

/-- The state after putting in a terminal of a kind before the next token. -/
def State.insert (s : State) (kind : TokenKind) (rule : Rule) : State :=
  (s.report (missingTerminal kind rule s.lookahead)).log (.insert kind s.lookahead)

/-- Reads a terminal of a kind in a phrase of a rule. A terminal that is not there is put in if the next token is one that may
follow it; otherwise that token is unexpected. -/
def readTerminal (rule : Rule) (kind : TokenKind) (follow : KindSet) (s : State) : Option Terminal × State :=
  let s := s.attempt (.terminal kind)
  if s.nextKind = kind then (some (.ofToken s.lookahead), s.shift)
  else if s.nextKind ∈ follow then (some (.inserted kind s.lookahead), s.insert kind rule)
  else (none, s.mismatch ((Diagnostic.unexpected s.lookahead kind.displayName).noting rule.context))

/-- The step that reads a terminal and puts it in the node. -/
def terminal (rule : Rule) (kind : TokenKind) (follow : KindSet) (put : ν → Terminal → ν) : Step ν := fun n s =>
  match readTerminal rule kind follow s with
  | (some t, s) => ⟨put n t, .matched, s⟩
  | (none, s) => ⟨n, .mismatched, s⟩

/-! ## Decisions -/

/-- The diagnostic of a token that is refused at a decision and dropped. -/
def skippedToken (table : Table) (d : Decision) (t : Token) : Diagnostic :=
  ((((Diagnostic.ofCode .skippedToken).saying ("unexpected " ++ t.describe)).blaming t).expecting
    (table.expected d).phrase).noting d.rule.context

/-- The state after a token that is refused at a decision was reported and tokens were dropped up to the first that is not
refused. Where the next token is not refused, or is the sentinel, nothing is done. -/
def dropRefused (table : Table) (d : Decision) (s : State) : State :=
  if table.refuses d s.nextKind && !s.lookahead.isEnd then
    (s.mismatch (skippedToken table d s.lookahead)).dropWhile (table.refuses d)
  else s

/-- Makes a decision, after dropping the tokens that are refused. If all are, the parse gives up. -/
def choose (table : Table) (d : Decision) (s : State) : Option Action × State :=
  let s := dropRefused table d (s.attempt (.decision d))
  match table.action d s.nextKind with
  | .reject => (none, s.abandon d.rule)
  | action => (some action, s.resume)

/-- The step that makes a decision and then another step if the decision is to go in. -/
def optional (table : Table) (d : Decision) (step : Step ν) : Step ν := fun n s =>
  match choose table d s with
  | (some (.descend _), s) => step n s
  | (some _, s) => ⟨n, .matched, s⟩
  | (none, s) => ⟨n, .outOfInput, s⟩

/-- The steps that are made if the table says to go in, without dropping anything. -/
def whenDescends (table : Table) (d : Decision) (steps : List (Step ν)) : Step ν := fun n s =>
  match table.action d s.nextKind with
  | .descend _ => sequence steps n s
  | _ => ⟨n, .matched, s⟩

/-- Reads phrases one after the other for as long as the decision is to go in. A turn in which nothing was consumed would be
repeated for ever, so the parse gives up after it. -/
def many (table : Table) (d : Decision) (reader : Reader μ) (s : State) : Outcome (List μ) :=
  match choose table d s with
  | (none, s') => ⟨[], .outOfInput, s'⟩
  | (some (.descend _), s') =>
    let o := reader s'
    match o.verdict with
    | .matched =>
      if o.state.remaining < s.remaining then
        let others := many table d reader o.state
        ⟨o.node :: others.node, others.verdict, others.state⟩
      else ⟨[o.node], .stalled, o.state⟩
    | verdict => ⟨[o.node], verdict, o.state⟩
  | (some _, s') => ⟨[], .matched, s'⟩
termination_by s.remaining

/-- Reads an item, and then a separator and an item for as long as the table says to take the separator. The reader of items gives
the items that it has read, one or none. -/
def separated (table : Table) (d : Decision) (item : Reader (List μ)) (s : State) : Outcome (Separated μ) :=
  let o := item s
  match o.verdict with
  | .matched =>
    match table.action d o.state.nextKind with
    | .take _ =>
      let separator := Terminal.ofToken o.state.lookahead
      if o.state.shift.remaining < s.remaining then
        let others := separated table d item o.state.shift
        ⟨⟨o.node ++ others.node.items, separator :: others.node.separators⟩, others.verdict, others.state⟩
      else ⟨⟨o.node, [separator]⟩, .stalled, o.state.shift⟩
    | _ => ⟨⟨o.node, []⟩, .matched, o.state⟩
  | verdict => ⟨⟨o.node, []⟩, verdict, o.state⟩
termination_by s.remaining

/-! ## Rules -/

/-- A type of node: its span can be set, and a phrase that was cut short can be closed with its terminator. -/
class Node (ν : Type) where
  withSpan : Span → ν → ν
  close : Terminal → ν → ν := fun _ n => n

/-- Goes on after an error in a rule: tokens are dropped up to the terminator of the policy, which closes the phrase, or up to a
stop token. If there is neither, the parse gives up. -/
def resynchronize [Node ν] (rule : Rule) (policy : ResyncPolicy) (n : ν) (s : State) : Outcome ν :=
  let s := s.dropWhile fun k => !(policy.terminator == some k) && !policy.stop.contains k
  if policy.terminator = some s.nextKind then ⟨Node.close (.ofToken s.lookahead) n, .matched, s.shift.resume⟩
  else if s.nextKind ∈ policy.stop then ⟨n, .matched, s.resume⟩
  else ⟨n, .outOfInput, s.abandon rule⟩

/-- Goes on after an error in a rule that has a policy; any other outcome is left as it is. -/
def recover [Node ν] (rule : Rule) (o : Outcome ν) : Outcome ν :=
  match o.verdict, rule.resyncPolicy? with
  | .mismatched, some policy => resynchronize rule policy o.node o.state
  | _, _ => o

/-- Reads a phrase of a rule by a step that fills in its node from `blank`. The span of the node goes from the first token of the
phrase to the end of the last one that was consumed, and is a point where none was. -/
def phrase [Node ν] (rule : Rule) (blank : ν) (step : Step ν) : Reader ν := fun s =>
  let start := s.lookahead.span.start
  let o := recover rule (step blank (s.attempt (.rule rule)))
  let span := if s.consumed < o.state.consumed then ⟨start, o.state.lastEnd⟩ else .point start
  ⟨Node.withSpan span o.node, o.verdict, o.state⟩

end QuillFrontEnd.Parser
