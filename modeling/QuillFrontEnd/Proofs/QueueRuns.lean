import QuillFrontEnd.Proofs.QueueInvariant
import Mathlib.Data.List.DropRight

/-!
# Runs of a queue

A queue is used by offering diagnostics to it and flushing it from time to time. Whatever was done with it, a queue is in order, it
says truly whether it takes a diagnostic, and it refuses a fatal one for no other reason than that it says nothing new. The history
of a run tells of each diagnostic whether it was accepted; what a flush hands over are the ones accepted since the flush before it.
-/

namespace QuillFrontEnd

namespace Queue

variable {q : Queue}

/-- What is done with a queue: one diagnostic is offered to it, or several one after the other, or it is flushed. -/
inductive Operation where
  | add (d : Diagnostic)
  | extend (ds : List Diagnostic)
  | flush

/-- The queue after an operation. -/
def perform (q : Queue) : Operation → Queue
  | .add d => (q.add d).2
  | .extend ds => q.addAll ds
  | .flush => q.flush.2

/-- The queue after several operations. -/
def run (q : Queue) (ops : List Operation) : Queue := ops.foldl perform q

theorem run_append (q : Queue) (ops ops' : List Operation) : q.run (ops ++ ops') = (q.run ops).run ops' := List.foldl_append

/-! ## Queues in order -/

@[simp] theorem config_perform (q : Queue) (op : Operation) : (q.perform op).config = q.config := by
  cases op with
  | add d => exact q.config_add d
  | extend ds => exact q.config_addAll ds
  | flush => rfl

@[simp] theorem config_run (q : Queue) (ops : List Operation) : (q.run ops).config = q.config := by
  induction ops generalizing q with
  | nil => rfl
  | cons op ops ih => exact (ih _).trans (q.config_perform op)

theorem Tidy.perform (h : q.Tidy) (op : Operation) : (q.perform op).Tidy := by
  cases op with
  | add d => exact h.add d
  | extend ds => exact h.addAll ds
  | flush => exact tidy_empty q.config

/-- A queue stays in order whatever is done with it. -/
theorem Tidy.run (h : q.Tidy) (ops : List Operation) : (q.run ops).Tidy := by
  induction ops generalizing q with
  | nil => exact h
  | cons op ops ih => exact ih (h.perform op)

theorem Tidy.size (h : q.Tidy) : q.size = q.errorCount + q.warningCount := by
  rw [h.errorCount, h.warningCount, Queue.size, List.length_eq_countP_add_countP Diagnostic.isError]
  simp only [Bool.not_eq_true, Bool.decide_eq_false]

/-- The answer to an offer is true exactly if the offer puts the diagnostic at the end. -/
theorem fst_add_iff_kept_add {d : Diagnostic} : (q.add d).1 = true ↔ (q.add d).2.kept = q.kept ++ [d] := by
  rw [fst_add]
  constructor
  · exact kept_add_of_accepts
  · intro h
    by_contra hd
    rw [Bool.not_eq_true] at hd
    rw [add_of_not_accepts hd] at h
    simp at h

/-- A fatal diagnostic is refused as a follow-on or as a repetition only. -/
theorem refused_fatal {d : Diagnostic} (hfatal : d.isFatal = true) (h : q.accepts d = false) :
    q.config.dropFollowOns = true ∧ d.isFollowOn = true ∨ ∃ e ∈ q.kept, d.repeats e = true := by
  by_contra hno
  rw [not_or, not_and, not_exists] at hno
  have haccepts : q.accepts d = true := by
    refine accepts_iff.2 ⟨fun _ _ => hfatal, fun hconfig => ?_, fun e he => ?_⟩
    · exact Bool.eq_false_iff.2 (hno.1 hconfig)
    · exact Bool.eq_false_iff.2 fun hrepeats => hno.2 e ⟨he, hrepeats⟩
  rw [h] at haccepts
  cases haccepts

/-- A queue of a configuration in order. Its counts are those of the errors and the warnings in it, and there is nothing else in it;
no two diagnostics in it have the same code and span; where follow-ons are left out, none of the parser blames an invalid token; and
if there is a limit, there are no more errors in it that are not fatal. -/
structure Consistent (config : QueueConfig) (q : Queue) : Prop where
  errorCount : q.errorCount = q.kept.countP fun d => d.severity = .fatal ∨ d.severity = .error
  warningCount : q.warningCount = q.kept.countP fun d => d.severity = .warning
  size : q.size = q.errorCount + q.warningCount
  distinct : q.kept.Pairwise fun d e => ¬(d.code = e.code ∧ d.span = e.span)
  blames : config.dropFollowOns = true → ∀ d ∈ q.kept, d.code.ofParser = true → ∀ t ∈ d.found, t.kind ≠ .invalid
  limit : 0 < config.errorLimit → q.kept.countP (fun d => d.severity = .error) ≤ config.errorLimit

theorem Tidy.consistent (h : q.Tidy) : q.Consistent q.config where
  errorCount := by
    rw [h.errorCount]
    refine List.countP_congr fun d _ => ?_
    rw [Diagnostic.isError, decide_eq_true_iff]
    cases d.severity <;> decide
  warningCount := by
    rw [h.warningCount]
    refine List.countP_congr fun d _ => ?_
    rw [Diagnostic.isError, decide_eq_true_iff]
    cases d.severity <;> decide
  size := h.size
  distinct := h.apart.imp fun {d e} hde heq => by simp [Diagnostic.repeats_iff.2 heq] at hde
  blames := fun hconfig d hd hcode t ht hkind => by
    have hfollow := h.followOns hconfig d hd
    rw [Option.mem_def] at ht
    simp [Diagnostic.isFollowOn, hcode, ht, hkind] at hfollow
  limit := fun hpos => by
    have hlimit := h.limit hpos
    rwa [List.countP_congr fun d _ => ?_] at hlimit
    rw [Diagnostic.isError, Diagnostic.isFatal, decide_eq_true_iff]
    cases d.severity <;> decide

/-- Whatever was done with a queue, it is in order. The answer to an offer is true exactly if the diagnostic is then at the end of the
queue, and otherwise the queue is as before; and a fatal diagnostic is refused only if it is a follow-on and these are left out, or
if a diagnostic with its code and span is there already. -/
theorem run_consistent (config : QueueConfig) (ops : List Operation) :
    let q := (empty config).run ops
    q.Consistent config ∧ ∀ d,
      ((q.add d).1 = true ↔ (q.add d).2.kept = q.kept ++ [d]) ∧
      ((q.add d).1 = false → (q.add d).2 = q) ∧
      (d.severity = .fatal → (q.add d).1 = false →
        config.dropFollowOns = true ∧ d.code.ofParser = true ∧ (∃ t ∈ d.found, t.kind = .invalid) ∨
          ∃ e ∈ q.kept, e.code = d.code ∧ e.span = d.span) := by
  intro q
  have hconfig : q.config = config := config_run _ ops
  refine ⟨hconfig ▸ ((tidy_empty config).run ops).consistent, fun d => ⟨fst_add_iff_kept_add, ?_, ?_⟩⟩
  · rw [fst_add]
    exact add_of_not_accepts
  rw [fst_add]
  intro hfatal hrefused
  rcases refused_fatal (by rw [Diagnostic.isFatal, hfatal]; rfl) hrefused with ⟨hdrop, hfollow⟩ | ⟨e, he, hrepeats⟩
  · rw [Diagnostic.isFollowOn, Bool.and_eq_true, Option.any_eq_true] at hfollow
    obtain ⟨hcode, t, ht, hkind⟩ := hfollow
    exact .inl ⟨hconfig ▸ hdrop, hcode, t, ht, by simpa using hkind⟩
  · obtain ⟨hcode, hspan⟩ := Diagnostic.repeats_iff.1 hrepeats
    exact .inr ⟨e, he, hcode.symm, hspan.symm⟩

/-- A queue with a limit of one error, after a flush: it has taken an error, a warning and a fatal diagnostic, refuses another error
for its limit, and refuses the fatal one only because it is there already. -/
theorem run_consistent_limit :
    let config : QueueConfig := ⟨1, true⟩
    let first := (Diagnostic.ofCode .unexpectedToken).located ⟨0, 1⟩ ⟨1, 1⟩
    let second := (Diagnostic.ofCode .unexpectedToken).located ⟨2, 3⟩ ⟨1, 3⟩
    let warning := (Diagnostic.ofCode .skippedToken).rated .warning
    let last := (Diagnostic.ofCode .endOfInput).located ⟨4, 4⟩ ⟨1, 5⟩
    let q := (empty config).run [.add second, .flush, .extend [first, second, warning, last]]
    q.Consistent config ∧ config.dropFollowOns = true ∧ 0 < config.errorLimit ∧ q.kept = [first, warning, last] ∧
      (q.add second).1 = false ∧ (q.add second).2 = q ∧ last.severity = .fatal ∧ (q.add last).1 = false ∧
      ∃ e ∈ q.kept, e.code = last.code ∧ e.span = last.span := by
  intro config first second warning last q
  obtain ⟨hconsistent, hanswers⟩ := run_consistent config [.add second, .flush, .extend [first, second, warning, last]]
  have hrefused : (q.add last).1 = false := by decide
  refine ⟨hconsistent, rfl, by decide, by decide, by decide, (hanswers second).2.1 (by decide), rfl, hrefused, ?_⟩
  rcases (hanswers last).2.2 rfl hrefused with ⟨-, -, t, ht, -⟩ | hrepeated
  · cases ht
  · exact hrepeated

/-! ## Histories -/

/-- What came of a diagnostic that was offered, or of a flush. -/
inductive Happening where
  | accepted (d : Diagnostic)
  | refused (d : Diagnostic)
  | flushed (ds : List Diagnostic)

namespace Happening

/-- The diagnostic that was accepted, if one was. -/
def accepted? : Happening → Option Diagnostic
  | accepted d => some d
  | refused _ | flushed _ => none

def isFlush : Happening → Bool
  | flushed _ => true
  | accepted _ | refused _ => false

end Happening

/-- What comes of offering diagnostics one after the other. -/
def offers (q : Queue) : List Diagnostic → List Happening
  | [] => []
  | d :: ds => (if (q.add d).1 then .accepted d else .refused d) :: (q.add d).2.offers ds

/-- What comes of an operation. -/
def happenings (q : Queue) : Operation → List Happening
  | .add d => q.offers [d]
  | .extend ds => q.offers ds
  | .flush => [.flushed q.flush.1]

/-- What comes of several operations, in order. -/
def history (q : Queue) : List Operation → List Happening
  | [] => []
  | op :: ops => q.happenings op ++ (q.perform op).history ops

/-- The diagnostics that were accepted since the last flush of a history, or since its start if there was none, in that order. -/
def sinceFlush (hs : List Happening) : List Diagnostic := (hs.rtakeWhile fun h => !h.isFlush).filterMap Happening.accepted?

theorem history_concat (q : Queue) (ops : List Operation) (op : Operation) :
    q.history (ops ++ [op]) = q.history ops ++ (q.run ops).happenings op := by
  induction ops generalizing q with
  | nil => exact List.append_nil _
  | cons op' ops ih =>
    rw [List.cons_append, history, history, ih, List.append_assoc]
    rfl

theorem isFlush_of_mem_offers {ds : List Diagnostic} {h : Happening} (hh : h ∈ q.offers ds) : h.isFlush = false := by
  induction ds generalizing q with
  | nil => cases hh
  | cons d ds ih =>
    rcases List.mem_cons.1 hh with rfl | hh
    · cases (q.add d).1 <;> rfl
    · exact ih hh

/-- What is accepted of several diagnostics comes to the end of the queue. -/
theorem kept_addAll (q : Queue) (ds : List Diagnostic) :
    (q.addAll ds).kept = q.kept ++ (q.offers ds).filterMap Happening.accepted? := by
  induction ds generalizing q with
  | nil => exact (List.append_nil _).symm
  | cons d ds ih =>
    rw [addAll_cons, ih, offers, fst_add]
    cases hd : q.accepts d with
    | true =>
      rw [kept_add_of_accepts hd, List.append_assoc]
      rfl
    | false =>
      rw [add_of_not_accepts hd]
      rfl

theorem sinceFlush_offers (hs : List Happening) (q : Queue) (ds : List Diagnostic) :
    sinceFlush (hs ++ q.offers ds) = sinceFlush hs ++ (q.offers ds).filterMap Happening.accepted? := by
  have hall : ∀ h ∈ (q.offers ds).reverse, (!h.isFlush) = true := fun h hh => by
    rw [isFlush_of_mem_offers (List.mem_reverse.1 hh)]
    rfl
  rw [sinceFlush, sinceFlush, List.rtakeWhile, List.reverse_append, List.takeWhile_append_of_pos hall, List.reverse_append,
    List.reverse_reverse, List.filterMap_append]
  rfl

theorem sinceFlush_flushed (hs : List Happening) (ds : List Diagnostic) : sinceFlush (hs ++ [.flushed ds]) = [] := by
  rw [sinceFlush, List.rtakeWhile_concat_neg _ _ _ (by simp [Happening.isFlush])]
  rfl

/-- A queue holds what was accepted since it was flushed. -/
theorem kept_run (config : QueueConfig) (ops : List Operation) :
    ((empty config).run ops).kept = sinceFlush ((empty config).history ops) := by
  induction ops using List.reverseRecOn with
  | nil => rfl
  | append_singleton ops op ih =>
    rw [history_concat, run_append]
    cases op with
    | add d => exact (kept_addAll _ [d]).trans (by rw [happenings, sinceFlush_offers, ih])
    | extend ds => exact (kept_addAll _ ds).trans (by rw [happenings, sinceFlush_offers, ih])
    | flush => exact (sinceFlush_flushed _ _).symm

/-- The diagnostics at one position are handed over in the order in which they came in. -/
theorem filter_sorted (q : Queue) (p : Position) :
    q.sorted.filter (fun d => d.position = p) = q.kept.filter fun d => d.position = p := by
  have htied : (q.kept.filter fun d => d.position = p).Pairwise fun d e => d.position.notAfter e.position = true := by
    refine List.pairwise_of_forall_mem_list fun d hd e he => ?_
    rw [List.mem_filter, decide_eq_true_iff] at hd he
    rw [hd.2, he.2, Position.notAfter_refl]
  have hsublist : (q.kept.filter fun d => d.position = p).Sublist q.sorted :=
    List.sublist_mergeSort notAfter_trans notAfter_total htied List.filter_sublist
  have hfiltered := hsublist.filter fun d => d.position = p
  rw [List.filter_filter, List.filter_congr fun d _ => Bool.and_self _] at hfiltered
  exact (hfiltered.eq_of_length ((q.sorted_perm.filter _).length_eq).symm).symm

/-- A flush loses nothing and invents nothing. After any operations it hands over exactly the diagnostics accepted since the flush
before it: in the order of their positions, and those at one position in the order in which they were accepted. What it leaves is the
queue that the run started with. -/
theorem flush_hands_over_accepted (config : QueueConfig) (ops : List Operation) :
    let (ds, q) := ((empty config).run ops).flush
    ds.Perm (sinceFlush ((empty config).history ops)) ∧
      ds.Pairwise (fun d e => d.position.line < e.position.line ∨
        d.position.line = e.position.line ∧ d.position.column ≤ e.position.column) ∧
      (∀ p, ds.filter (fun d => d.position = p) =
        (sinceFlush ((empty config).history ops)).filter fun d => d.position = p) ∧
      q = empty config := by
  rw [← kept_run]
  exact ⟨sorted_perm _, (pairwise_sorted _).imp Position.notAfter_iff.1, filter_sorted _, congrArg empty (config_run _ ops)⟩

end Queue

end QuillFrontEnd
