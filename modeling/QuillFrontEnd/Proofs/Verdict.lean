import QuillFrontEnd.Analysis
import QuillFrontEnd.Proofs.Language
import QuillFrontEnd.Proofs.Tiling

/-!
# The verdict on a source text

A source text is clean exactly if it has no invalid characters and its tokens are a program. The verdict is read off the number of
errors that the queue has kept, so the point is that the queue never drops all of them: the first diagnostic that is offered to it
is neither a repetition nor beyond the limit, and where it is a follow-on the lexer has offered another one before.
-/

namespace QuillFrontEnd

open QuillFrontEnd.Parser

/-- The diagnostics of a parse are errors, and the tokens that they blame are tokens of the list. -/
theorem diagnostics_error (ts : TokenList) :
    ∀ d ∈ (parse ts).diagnostics, d.isError = true ∧ ∀ x ∈ d.found, x ∈ ts.toList := by
  intro d hd
  obtain ⟨es, t, hr, -, htrace, -⟩ := parseWith_run Table.standard_orderly ts
  have hdiag : (parse ts).diagnostics = reports es := diagnostics_of_trace htrace
  rw [hdiag] at hd
  obtain ⟨es₁, es₂, u, h₁, -, -, hraised⟩ := hr.exists_raisedIn hd
  refine ⟨hraised.isError, fun x hx => ?_⟩
  obtain ⟨xs, hu⟩ := u.ahead_eq_lookahead_cons
  have hahead : ts.toList = passes es₁ ++ u.ahead := h₁.ahead
  rw [hraised.found x hx, hahead, hu]
  simp

/-! ## The queue -/

namespace Queue

/-- An offered diagnostic adds to the number of errors exactly if it is an error and is accepted. -/
theorem errorCount_add (q : Queue) (d : Diagnostic) :
    (q.add d).2.errorCount = if q.accepts d && d.isError then q.errorCount + 1 else q.errorCount := by
  unfold add
  cases q.accepts d <;> cases d.isError <;> rfl

@[simp] theorem addAll_nil (q : Queue) : q.addAll [] = q := rfl

/-- The number of errors never goes down while diagnostics are offered. -/
theorem errorCount_le_addAll (q : Queue) (ds : List Diagnostic) : q.errorCount ≤ (q.addAll ds).errorCount := by
  induction ds generalizing q with
  | nil => exact Nat.le_refl _
  | cons d ds ih =>
    have hstep : q.errorCount ≤ (q.add d).2.errorCount := by
      rw [errorCount_add]
      split
      · exact Nat.le_succ _
      · exact Nat.le_refl _
    exact Nat.le_trans hstep (ih (q.add d).2)

/-- An empty queue takes whatever is no follow-on: nothing is repeated yet, and the limit is not reached. -/
theorem accepts_empty {d : Diagnostic} (h : d.isFollowOn = false) : (empty .standard).accepts d = true := by
  simp [accepts, empty, limitReached, QueueConfig.standard, h]

/-- Where the first diagnostic that is offered is an error and no follow-on, at least one error is counted. -/
theorem errorCount_addAll_pos {d : Diagnostic} (ds : List Diagnostic) (herror : d.isError = true) (h : d.isFollowOn = false) :
    0 < ((empty .standard).addAll (d :: ds)).errorCount := by
  have hfirst : ((empty .standard).add d).2.errorCount = 1 := by
    rw [errorCount_add, accepts_empty h, herror]
    rfl
  have hle := errorCount_le_addAll ((empty .standard).add d).2 ds
  have hcons : (empty .standard).addAll (d :: ds) = ((empty .standard).add d).2.addAll ds := rfl
  rw [hcons]
  omega

end Queue

/-- A queue that took diagnostics of a lexer and of a parser counts no error only if there were none at all. -/
theorem Analysis.errorCount_queue_eq_zero_iff {lexed : LexOutput} {parsed : ParseOutput}
    (hlexed : ∀ d ∈ lexed.diagnostics, d.isError = true ∧ d.isFollowOn = false)
    (hparsed : ∀ d ∈ parsed.diagnostics, d.isError = true ∧ (lexed.diagnostics = [] → d.isFollowOn = false)) :
    (Analysis.queue lexed parsed).errorCount = 0 ↔ lexed.diagnostics = [] ∧ parsed.diagnostics = [] := by
  unfold Analysis.queue
  constructor
  · intro hzero
    cases hl : lexed.diagnostics with
    | cons d ds =>
      -- The first complaint of the lexer is counted, and nothing that comes later takes it away.
      obtain ⟨herror, hfollow⟩ := hlexed d (by rw [hl]; exact List.mem_cons_self)
      have hpos := Queue.errorCount_addAll_pos ds herror hfollow
      have hle := Queue.errorCount_le_addAll ((Queue.empty .standard).addAll (d :: ds)) parsed.diagnostics
      rw [hl] at hzero
      omega
    | nil =>
      refine ⟨rfl, ?_⟩
      rw [hl, Queue.addAll_nil] at hzero
      cases hp : parsed.diagnostics with
      | nil => rfl
      | cons d ds =>
        obtain ⟨herror, hfollow⟩ := hparsed d (by rw [hp]; exact List.mem_cons_self)
        have hpos := Queue.errorCount_addAll_pos ds herror (hfollow hl)
        rw [hp] at hzero
        omega
  · intro hnil
    rw [hnil.1, hnil.2]
    rfl

/-! ## Verdicts -/

/-- The complaints of a lexer are errors, never follow-ons, and there are none exactly if no token is invalid. -/
theorem lexed_diagnostics {source : String} {out : LexOutput} (h : source.utf8ByteSize ≤ maxOffset) (hlex : lex source = .ok out) :
    (∀ d ∈ out.diagnostics, d.isError = true ∧ d.isFollowOn = false) ∧
      (out.diagnostics = [] ↔ ∀ t ∈ out.tokens.toList, t.kind ≠ .invalid) := by
  obtain ⟨out', hlex', -, hsentinel, hdiag⟩ := exists_tiled_of_lex h
  obtain rfl : out = out' := Except.ok.inj (hlex.symm.trans hlex')
  constructor
  · intro d hd
    rw [hdiag] at hd
    obtain ⟨t, -, rfl⟩ := List.mem_map.1 hd
    exact ⟨rfl, rfl⟩
  · rw [hdiag, List.map_eq_nil_iff, List.filter_eq_nil_iff, TokenList.toList]
    constructor
    · intro hbody t ht
      rcases List.mem_append.1 ht with ht | ht
      · simpa using hbody t ht
      · rw [List.mem_singleton.1 ht, hsentinel]
        simp
    · intro hall t ht
      simpa using hall t (List.mem_append_left _ ht)

/-- A parser complains of follow-ons only where there is an invalid token to blame. -/
theorem not_isFollowOn_of_valid {ts : TokenList} (h : ∀ t ∈ ts.toList, t.kind ≠ .invalid) {d : Diagnostic}
    (hd : d ∈ (parse ts).diagnostics) : d.isFollowOn = false := by
  obtain ⟨-, hfound⟩ := diagnostics_error ts d hd
  have hnone : d.found.any (fun t => t.kind == .invalid) = false := by
    cases hf : d.found with
    | none => rfl
    | some t => simpa using h t (hfound t hf)
  rw [Diagnostic.isFollowOn, hnone, Bool.and_false]

/-- A parser has nothing to complain of exactly in a program. -/
theorem diagnostics_eq_nil_iff_isProgram (ts : TokenList) : (parse ts).diagnostics = [] ↔ IsProgram ts.kinds := by
  rw [diagnostics_eq_nil_iff_quiet]
  constructor
  · exact isProgram_of_quiet
  · intro h
    obtain ⟨-, -, -, hq, -⟩ := exists_tree_of_isProgram h
    exact hq

/-- Every text with fewer bytes than the largest offset is analysed. It is clean, and a command that analyses it exits with 0, if and
only if it has no invalid token and its tokens are a program; otherwise it has failed, and the command exits with 1. What the
queue leaves out makes no difference to that: the text is clean if and only if neither the lexer nor the parser has reported
anything. -/
theorem analyze_clean_iff (source : String) (h : source.utf8ByteSize < maxOffset) :
    ∃ lexed analysis, lex source = .ok lexed ∧ analyze source = .ok analysis ∧
      (analysis.status = .clean ∧ analysis.status.exitCode = 0 ↔
        (∀ t ∈ lexed.tokens.toList, t.kind ≠ .invalid) ∧ IsProgram lexed.tokens.kinds) ∧
      (¬((∀ t ∈ lexed.tokens.toList, t.kind ≠ .invalid) ∧ IsProgram lexed.tokens.kinds) →
        analysis.status = .failed ∧ analysis.status.exitCode = 1) ∧
      (analysis.status = .clean ↔ lexed.diagnostics = [] ∧ (parse lexed.tokens).diagnostics = []) := by
  obtain ⟨lexed, hlex, -⟩ := exists_tiled_of_lex (Nat.le_of_lt h)
  obtain ⟨herrors, hnil⟩ := lexed_diagnostics (Nat.le_of_lt h) hlex
  have hparsed : ∀ d ∈ (parse lexed.tokens).diagnostics,
      d.isError = true ∧ (lexed.diagnostics = [] → d.isFollowOn = false) :=
    fun d hd => ⟨(diagnostics_error _ d hd).1, fun hl => not_isFollowOn_of_valid (hnil.1 hl) hd⟩
  have hcount := Analysis.errorCount_queue_eq_zero_iff herrors hparsed
  have hright : lexed.diagnostics = [] ∧ (parse lexed.tokens).diagnostics = [] ↔
      (∀ t ∈ lexed.tokens.toList, t.kind ≠ .invalid) ∧ IsProgram lexed.tokens.kinds := by
    rw [hnil, diagnostics_eq_nil_iff_isProgram]
  refine ⟨lexed, _, hlex, by rw [analyze, hlex], ?_⟩
  rw [← hright, ← hcount]
  unfold Analysis.status Status.ofErrorCount
  by_cases hzero : (Analysis.queue lexed (parse lexed.tokens)).errorCount = 0
  · simp [hzero, Status.exitCode]
  · simp [hzero, Status.exitCode]

/-- The parser only has a follow-on to report of `program ?`, which the queue leaves out. -/
theorem analyze_clean_iff_invalid :
    "program ?".utf8ByteSize < maxOffset ∧ ∃ analysis, analyze "program ?" = .ok analysis ∧ analysis.status = .failed := by
  have hsize : "program ?".utf8ByteSize < maxOffset := by decide
  have hinvalid : ((lex "program ?").toOption.any fun out => out.diagnostics.isEmpty) = false := by decide +kernel
  obtain ⟨lexed, analysis, hlex, hanalysis, -, -, hclean⟩ := analyze_clean_iff "program ?" hsize
  rw [hlex] at hinvalid
  refine ⟨hsize, analysis, hanalysis, ?_⟩
  cases hstatus : analysis.status with
  | failed => rfl
  | clean => simp [Except.toOption, (hclean.1 hstatus).1] at hinvalid

end QuillFrontEnd
