import QuillFrontEnd.Diagnostic

/-!
# Collecting diagnostics

A queue takes the diagnostics of one text in any order, drops those that would only repeat what is known, keeps the number of
errors within a limit, and hands the others over in the order of their positions.
-/

namespace QuillFrontEnd

/-- What a queue leaves out. -/
structure QueueConfig where
  /-- The number of errors that closes a queue to further errors, or 0 for no limit. -/
  errorLimit : Nat
  /-- Whether complaints of the parser about invalid tokens are left out; the lexer has reported them. -/
  dropFollowOns : Bool
deriving DecidableEq

namespace QueueConfig

/-- At most fifty errors, and no follow-ons. -/
def standard : QueueConfig := ⟨50, true⟩

/-- No limit, and nothing left out but repetitions. -/
def unlimited : QueueConfig := ⟨0, false⟩

end QueueConfig

/-- A complaint of the parser that blames an invalid token. -/
def Diagnostic.isFollowOn (d : Diagnostic) : Bool :=
  d.code.ofParser && d.found.any fun t => t.kind == .invalid

/-- Whether two diagnostics say the same: they have the same code at the same span. -/
def Diagnostic.repeats (d other : Diagnostic) : Bool := d.code == other.code && d.span == other.span

/-- The diagnostics that have been accepted since the last flush, in that order, and how many of them are errors and warnings. -/
structure Queue where
  config : QueueConfig
  kept : List Diagnostic
  errorCount : Nat
  warningCount : Nat
deriving DecidableEq

namespace Queue

/-- The queue without diagnostics. -/
def empty (config : QueueConfig) : Queue := ⟨config, [], 0, 0⟩

/-- Whether a queue takes no further errors that are not fatal. -/
def limitReached (q : Queue) : Bool := 0 < q.config.errorLimit && q.config.errorLimit ≤ q.errorCount

/-- Whether a queue takes a diagnostic: it is no error beyond the limit unless it is fatal, no follow-on where they are left out,
and no repetition. -/
def accepts (q : Queue) (d : Diagnostic) : Bool :=
  !(d.isError && q.limitReached && !d.isFatal) && !(q.config.dropFollowOns && d.isFollowOn) && !q.kept.any d.repeats

/-- Offers a diagnostic to a queue: whether the queue takes it, and the queue after that. -/
def add (q : Queue) (d : Diagnostic) : Bool × Queue :=
  if q.accepts d then
    (true, { q with
      kept := q.kept ++ [d]
      errorCount := if d.isError then q.errorCount + 1 else q.errorCount
      warningCount := if d.isError then q.warningCount else q.warningCount + 1 })
  else (false, q)

/-- The queue after several diagnostics were offered to it, one after the other. -/
def addAll (q : Queue) (ds : List Diagnostic) : Queue := ds.foldl (fun q d => (q.add d).2) q

/-- The number of diagnostics in a queue. -/
def size (q : Queue) : Nat := q.kept.length

/-- Whether a queue holds an error. -/
def hasErrors (q : Queue) : Bool := 0 < q.errorCount

/-- The diagnostics of a queue in the order of their positions, those at one position in the order they came in. -/
def sorted (q : Queue) : List Diagnostic := q.kept.mergeSort fun a b => a.position.notAfter b.position

/-- Takes all diagnostics out of a queue, in the order of their positions. -/
def flush (q : Queue) : List Diagnostic × Queue := (q.sorted, empty q.config)

end Queue

end QuillFrontEnd
