import QuillFrontEnd.Proofs.Cascades
import QuillFrontEnd.Proofs.Formatting
import QuillFrontEnd.Proofs.QueueInvariant

/-!
# The diagnostics of an analysis

The diagnostics of the lexer and of the parser stand at tokens of one list, and the queue merges them in the order of these tokens.
It leaves out no more than it says: what the lexer reports comes first and is kept up to the limit, and a fatal report is kept in
any case and comes last.
-/

namespace QuillFrontEnd

open QuillFrontEnd.Parser

section

variable {source : String} {lexed : LexOutput}

/-! ## What is offered to the queue -/

/-- What the lexer reports: recoverable errors that are no follow-ons, each at a token of its own. -/
theorem diagnostics_lexed (hsize : source.utf8ByteSize ≤ maxOffset) (hlex : lex source = .ok lexed) :
    (∀ d ∈ lexed.diagnostics, d.code = .invalidCharacter ∧ d.severity = .error ∧ ∃ i, d.StandsIn lexed.tokens i) ∧
      lexed.diagnostics.Pairwise fun d e => d.repeats e = false := by
  obtain ⟨_, hok, -, -, hdiagnostics⟩ := exists_tiled_of_lex hsize
  obtain rfl := Except.ok.inj (hlex.symm.trans hok)
  rw [hdiagnostics]
  constructor
  · intro d hd
    obtain ⟨t, ht, rfl⟩ := List.mem_map.1 hd
    obtain ⟨i, hi⟩ := List.mem_iff_getElem?.1 (List.mem_append_left [lexed.tokens.sentinel] (List.mem_filter.1 ht).1)
    exact ⟨rfl, rfl, i, t, hi, rfl, rfl⟩
  · rw [List.pairwise_map]
    have hstarts : (lexed.tokens.body.filter fun t => t.kind == .invalid).Pairwise fun a b => a.span.start < b.span.start :=
      (List.pairwise_append.1 (startsIncrease_of_lex hsize hlex)).1.sublist List.filter_sublist
    refine hstarts.imp fun {a b} hlt => ?_
    rw [← Bool.not_eq_true, Diagnostic.repeats_iff]
    rintro ⟨-, hspan⟩
    have hstart : a.span.start = b.span.start := congrArg Span.start hspan
    omega

/-- What the queue of an analysis keeps comes from the lexer or the parser. -/
theorem mem_of_mem_queue {parsed : ParseOutput} {d : Diagnostic} (h : d ∈ (Analysis.queue lexed parsed).kept) :
    d ∈ lexed.diagnostics ∨ d ∈ parsed.diagnostics := by
  rcases Queue.mem_of_mem_addAll h with h | h
  · exact .inl ((Queue.mem_of_mem_addAll h).resolve_left List.not_mem_nil)
  · exact .inr h

theorem tidy_queue (lexed : LexOutput) (parsed : ParseOutput) : (Analysis.queue lexed parsed).Tidy :=
  ((Queue.tidy_empty .standard).addAll _).addAll _

theorem config_queue (lexed : LexOutput) (parsed : ParseOutput) : (Analysis.queue lexed parsed).config = .standard := by
  rw [Analysis.queue, Queue.config_addAll, Queue.config_addAll]
  rfl

/-- What the queue keeps are errors at tokens of the text. -/
theorem standsIn_queue (hsize : source.utf8ByteSize ≤ maxOffset) (hlex : lex source = .ok lexed) :
    ∀ d ∈ (Analysis.queue lexed (parse lexed.tokens)).kept, d.isError = true ∧ ∃ i, d.StandsIn lexed.tokens i := by
  intro d hd
  rcases mem_of_mem_queue hd with hd | hd
  · obtain ⟨-, hseverity, hplace⟩ := (diagnostics_lexed hsize hlex).1 d hd
    exact ⟨by rw [Diagnostic.isError, hseverity]; rfl, hplace⟩
  · exact ⟨(diagnostics_error _ d hd).1, standsIn_parse _ d hd⟩

/-- The first reports of the lexer are kept, as many as the limit allows. -/
theorem take_lexed_prefix_queue (hsize : source.utf8ByteSize ≤ maxOffset) (hlex : lex source = .ok lexed) (parsed : ParseOutput) :
    lexed.diagnostics.take 50 <+: (Analysis.queue lexed parsed).kept := by
  obtain ⟨hall, hapart⟩ := diagnostics_lexed hsize hlex
  have hkept : ((Queue.empty .standard).addAll lexed.diagnostics).kept = lexed.diagnostics.take 50 := by
    refine Queue.kept_addAll_empty (by decide) _ (fun d hd => ?_) hapart
    obtain ⟨hcode, hseverity, -⟩ := hall d hd
    rw [Diagnostic.isError, Diagnostic.isFatal, Diagnostic.isFollowOn, hcode, hseverity]
    exact ⟨rfl, rfl, rfl⟩
  rw [← hkept]
  exact Queue.kept_prefix_addAll _ _

/-- A fatal report of the parser is kept, after all others. -/
theorem kept_queue_of_fatal (hsize : source.utf8ByteSize ≤ maxOffset) (hlex : lex source = .ok lexed) {front : List Diagnostic}
    {d : Diagnostic} (hparse : (parse lexed.tokens).diagnostics = front ++ [d]) (hfront : ∀ e ∈ front, e.isFatal = false)
    (hd : d.Voices .ended lexed.tokens.sentinel) :
    ∃ kept, (Analysis.queue lexed (parse lexed.tokens)).kept = kept ++ [d] ∧ ∀ e ∈ kept, e.isFatal = false := by
  let q := ((Queue.empty .standard).addAll lexed.diagnostics).addAll front
  have hothers : ∀ e ∈ q.kept, e.isFatal = false ∧ e.code ≠ .endOfInput := by
    intro e he
    rcases Queue.mem_of_mem_addAll he with he | he
    · obtain ⟨hcode, hseverity, -⟩ := (diagnostics_lexed hsize hlex).1 e
        ((Queue.mem_of_mem_addAll he).resolve_left List.not_mem_nil)
      rw [Diagnostic.isFatal, hseverity, hcode]
      exact ⟨rfl, by decide⟩
    · obtain ⟨c, t, -, hvoices⟩ := voices_parse lexed.tokens e (by rw [hparse]; exact List.mem_append_left _ he)
      refine ⟨hfront e he, fun hcode => ?_⟩
      have hfatal : e.isFatal = true := by
        rw [Diagnostic.isFatal, hvoices.severity, ← hvoices.code, hcode]
        rfl
      rw [hfront e he] at hfatal
      cases hfatal
  have haccepts : q.accepts d = true := by
    refine Queue.accepts_iff.2 ⟨fun _ _ => hd.isFatal_iff.2 rfl, fun _ => ?_, fun e he => ?_⟩
    · rw [Diagnostic.isFollowOn, hd.found]
      exact Bool.and_false _
    · rw [← Bool.not_eq_true, Diagnostic.repeats_iff, hd.code]
      exact fun hrepeats => (hothers e he).2 hrepeats.1.symm
  refine ⟨q.kept, ?_, fun e he => (hothers e he).1⟩
  rw [Analysis.queue, hparse, Queue.addAll_append, Queue.addAll_cons, Queue.addAll_nil, Queue.kept_add_of_accepts haccepts]

/-- Offsets are in the order of positions. -/
theorem start_le_of_notAfter {ts : TokenList} (hstarts : ts.StartsIncrease) (hpositions : ts.PositionsIncrease) {i j : Nat}
    {d e : Diagnostic} (hd : d.StandsIn ts i) (he : e.StandsIn ts j) (h : d.position.notAfter e.position = true) :
    d.span.start ≤ e.span.start := by
  have hle := (hd.notAfter_iff hpositions he).1 h
  obtain ⟨t, ht, hdt⟩ := hd
  obtain ⟨u, hu, heu⟩ := he
  rw [hdt.anchoredAt.start, heu.anchoredAt.start]
  rcases Nat.lt_or_eq_of_le hle with hlt | rfl
  · exact Nat.le_of_lt (hstarts.start_lt ht hu hlt)
  · rw [Option.some.inj (ht.symm.trans hu)]

/-- No token of a list is at a later position than the sentinel. -/
theorem notAfter_sentinel {ts : TokenList} (hpositions : ts.PositionsIncrease) {i : Nat} {d e : Diagnostic}
    (hd : d.StandsIn ts i) (he : e.StandsAt ts.sentinel) : d.position.notAfter e.position = true := by
  have hlast : ts.get? ts.body.length = some ts.sentinel := by simp [TokenList.get?, TokenList.toList]
  refine (hd.notAfter_iff hpositions ⟨_, hlast, he⟩).2 ?_
  obtain ⟨t, ht, -⟩ := hd
  obtain ⟨hi, -⟩ := List.getElem?_eq_some_iff.1 ht
  rw [TokenList.toList, List.length_append, List.length_singleton] at hi
  omega

/-- A fatal report is handed over last, and there is one exactly if the parse was fatal. -/
theorem fatal_sorted (hsize : source.utf8ByteSize < maxOffset) (hlex : lex source = .ok lexed) :
    ((parse lexed.tokens).isFatal = false ∧
        ∀ d ∈ (Analysis.queue lexed (parse lexed.tokens)).sorted, d.isFatal = false) ∨
      ((parse lexed.tokens).isFatal = true ∧ ∃ front d,
        (Analysis.queue lexed (parse lexed.tokens)).sorted = front ++ [d] ∧ d.isFatal = true ∧ d.code = .endOfInput ∧
        ∀ e ∈ front, e.isFatal = false) := by
  rcases fatal_parse lexed.tokens with ⟨-, hnone⟩ | ⟨-, front, d, hparse, hfront, hd⟩
  · refine .inl ⟨List.any_eq_false.2 fun d hd => by rw [hnone d hd]; decide, fun d hd => ?_⟩
    rcases mem_of_mem_queue (Queue.mem_sorted.1 hd) with hd | hd
    · obtain ⟨-, hseverity, -⟩ := (diagnostics_lexed (Nat.le_of_lt hsize) hlex).1 d hd
      rw [Diagnostic.isFatal, hseverity]
      rfl
    · exact hnone d hd
  · have hfatal : d.isFatal = true := hd.isFatal_iff.2 rfl
    obtain ⟨kept, hkept, hothers⟩ := kept_queue_of_fatal (Nat.le_of_lt hsize) hlex hparse hfront hd
    have hlast : ∀ e ∈ kept, e.position.notAfter d.position = true := by
      intro e he
      obtain ⟨-, i, hi⟩ := standsIn_queue (Nat.le_of_lt hsize) hlex e (by rw [hkept]; exact List.mem_append_left _ he)
      exact notAfter_sentinel (positionsIncrease_of_lex hsize hlex) hi hd.standsAt
    obtain ⟨before, hsorted, hperm⟩ := (tidy_queue lexed (parse lexed.tokens)).sorted_concat hkept hlast
    refine .inr ⟨List.any_eq_true.2 ⟨d, by rw [hparse]; simp, hfatal⟩, before, d, hsorted, hfatal, hd.code, fun e he => ?_⟩
    exact hothers e (hperm.mem_iff.1 he)

end

/-! ## The merged diagnostics -/

/-- The diagnostics of an analysis in good order: sorted by position and by offset, counted, none of them twice, no complaint of the
parser about an invalid token, within the limit, with the first reports of the lexer, and with a fatal one exactly if the parse
was fatal, which is then the last. -/
structure Analysis.WellMerged (lexed : LexOutput) (a : Analysis) : Prop where
  byPosition : a.diagnostics.Pairwise fun d e => d.position.notAfter e.position = true
  byOffset : a.diagnostics.Pairwise fun d e => d.span.start ≤ e.span.start
  errorCount : a.errorCount = a.diagnostics.length
  warningCount : a.warningCount = 0
  distinct : a.diagnostics.Pairwise fun d e => ¬(d.code = e.code ∧ d.span = e.span)
  blames : ∀ d ∈ a.diagnostics, d.code.ofParser = true → ∀ t ∈ d.found, t.kind ≠ .invalid
  bounded : (a.diagnostics.filter fun d => !d.isFatal).length ≤ 50
  lexed : ∀ d ∈ lexed.diagnostics.take 50, d ∈ a.diagnostics
  isFatal_iff : a.parse.isFatal = true ↔ ∃ d ∈ a.diagnostics, d.isFatal = true
  fatal_last : a.parse.isFatal = true → ∃ front d, a.diagnostics = front ++ [d] ∧ d.isFatal = true ∧ d.code = .endOfInput ∧
    ∀ e ∈ front, e.isFatal = false

/-- Every text with fewer bytes than the largest offset is analysed, and the diagnostics of the analysis are in good order. -/
theorem analyze_wellMerged (source : String) (h : source.utf8ByteSize < maxOffset) :
    ∃ lexed analysis, lex source = .ok lexed ∧ analyze source = .ok analysis ∧ analysis.WellMerged lexed := by
  obtain ⟨lexed, hlex, -⟩ := exists_tiled_of_lex (Nat.le_of_lt h)
  refine ⟨lexed, _, hlex, by rw [analyze, hlex], ?_⟩
  have hstands := standsIn_queue (Nat.le_of_lt h) hlex
  have htidy := tidy_queue lexed (parse lexed.tokens)
  have hfatal := fatal_sorted h hlex
  have hlength : (Analysis.queue lexed (parse lexed.tokens)).sorted.length =
      (Analysis.queue lexed (parse lexed.tokens)).kept.length := (Queue.sorted_perm _).length_eq
  have hsorted : ∀ {d}, d ∈ (Analysis.queue lexed (parse lexed.tokens)).sorted ↔
      d ∈ (Analysis.queue lexed (parse lexed.tokens)).kept := Queue.mem_sorted
  exact {
    byPosition := Queue.pairwise_sorted _
    byOffset := by
      refine (Queue.pairwise_sorted _).imp_of_mem fun {d e} hd he hde => ?_
      obtain ⟨-, i, hi⟩ := hstands d (hsorted.1 hd)
      obtain ⟨-, j, hj⟩ := hstands e (hsorted.1 he)
      exact start_le_of_notAfter (startsIncrease_of_lex (Nat.le_of_lt h) hlex) (positionsIncrease_of_lex h hlex) hi hj hde
    errorCount := by
      rw [htidy.errorCount, hlength, List.countP_eq_length]
      exact fun d hd => (hstands d hd).1
    warningCount := by
      rw [htidy.warningCount, List.countP_eq_zero]
      exact fun d hd => by simp [(hstands d hd).1]
    distinct := htidy.apart_sorted.imp fun {d e} hde heq => by simp [Diagnostic.repeats_iff.2 heq] at hde
    blames := fun d hd hcode t ht hkind => by
      have hfollow := htidy.followOns (by rw [config_queue]; rfl) d (hsorted.1 hd)
      rw [Option.mem_def] at ht
      simp [Diagnostic.isFollowOn, hcode, ht, hkind] at hfollow
    bounded := by
      have hlimit := htidy.limit (by rw [config_queue]; decide)
      have hcount : (Analysis.queue lexed (parse lexed.tokens)).sorted.countP (fun d => !d.isFatal) =
          (Analysis.queue lexed (parse lexed.tokens)).kept.countP fun d => d.isError && !d.isFatal := by
        rw [(Queue.sorted_perm _).countP_eq]
        exact List.countP_congr fun d hd => by rw [(hstands d hd).1, Bool.true_and]
      rw [config_queue, ← hcount, List.countP_eq_length_filter] at hlimit
      exact hlimit
    lexed := fun d hd => hsorted.2 ((take_lexed_prefix_queue (Nat.le_of_lt h) hlex _).subset hd)
    isFatal_iff := by
      rcases hfatal with ⟨hparse, hnone⟩ | ⟨hparse, front, d, hlast, hd, -⟩
      · refine iff_of_false (by simp [hparse]) ?_
        rintro ⟨d, hd, hf⟩
        simp [hnone d hd] at hf
      · exact iff_of_true hparse ⟨d, by rw [hlast]; simp, hd⟩
    fatal_last := fun hparse => by
      rcases hfatal with ⟨hnot, -⟩ | ⟨-, hlast⟩
      · rw [hparse] at hnot
        cases hnot
      · exact hlast }

/-- An invalid character in a header that breaks off: what the parser says of it is left out, and the fatal report is last. -/
theorem analyze_wellMerged_fatal :
    "program ? :".utf8ByteSize < maxOffset ∧
      ∃ lexed analysis, lex "program ? :" = .ok lexed ∧ analyze "program ? :" = .ok analysis ∧ analysis.WellMerged lexed ∧
        analysis.parse.isFatal = true ∧ analysis.errorCount = 2 := by
  have hsize : "program ? :".utf8ByteSize < maxOffset := by decide
  have hvalues : (analyze "program ? :").map (fun a => (a.parse.isFatal, a.errorCount)) = .ok (true, 2) := by decide +kernel
  obtain ⟨lexed, analysis, hlex, hanalysis, hmerged⟩ := analyze_wellMerged "program ? :" hsize
  rw [hanalysis] at hvalues
  obtain ⟨hfatal, hcount⟩ := Prod.mk.inj (Except.ok.inj hvalues)
  exact ⟨hsize, lexed, analysis, hlex, hanalysis, hmerged, hfatal, hcount⟩

end QuillFrontEnd
