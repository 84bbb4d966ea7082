import QuillFrontEnd.Proofs.MergedDiagnostics

/-!
# What a queue drops as a repetition

A queue drops a diagnostic that has the code and the span of one that it holds, whatever the two say. Below the limit this loses
one kind of report only: where a colon or a semicolon is missing before the brace of a main block without a keyword, the missing
keyword has the same code at the same point. All other reports of the parser with one code at one token say the same.
-/

namespace QuillFrontEnd

open QuillFrontEnd.Parser

/-- A report of the parser that repeats an earlier one by its code and its span says the same, except for the missing keyword of a
main block at a brace before which a colon or a semicolon is missing too. -/
theorem message_eq_of_repeats {ts : TokenList} (hts : ts.StartsIncrease) {front back : List Diagnostic} {d e : Diagnostic}
    (hparse : (parse ts).diagnostics = front ++ d :: back) (he : e ∈ front) (hrepeats : d.repeats e = true) :
    e.message = d.message ∨ ∃ t ∈ ts.toList, t.kind = .leftBrace ∧ d.Voices (.missing .main) t ∧
      (e.Voices (.missing .colon) t ∨ e.Voices (.missing .semicolon) t) := by
  have hlocated : (parse ts).Located ts := located_parseWith Table.standard_orderly ts
  rw [← hlocated.diagnostics, List.map_eq_append_iff] at hparse
  obtain ⟨ps, qs, hps, rfl, hqs⟩ := hparse
  obtain ⟨q, qs, rfl, rfl, -⟩ := List.map_eq_cons_iff.1 hqs
  obtain ⟨p, hp, rfl⟩ := List.mem_map.1 he
  have hpair := cascading_parse ts
  have hstands := hlocated.standsIn
  rw [hps] at hpair hstands
  have hplace := ((hstands q (by simp)).repeats_iff hts (hstands p (List.mem_append_left _ hp))).1 hrepeats
  rcases (List.pairwise_append.1 hpair).2.2 p hp q List.mem_cons_self with hlt | ⟨-, hcascading⟩
  · omega
  · obtain ⟨t, ht, c, c', cs, hvoices, hvoices', hc, hallowed⟩ := hcascading
    have hcode : c.code = c'.code := by rw [← hvoices.code, ← hvoices'.code, hplace.1]
    rcases Complaint.message_eq_of_code_eq hcode t with hmessage | ⟨j, k, rfl, rfl⟩
    · exact .inl (by rw [hvoices.message, hvoices'.message, hmessage])
    · obtain ⟨hj, rfl, hkind⟩ := hallowed.of_missing hc
      refine .inr ⟨t, ht, hkind, hvoices', hj.imp ?_ ?_⟩
      · rintro rfl
        exact hvoices
      · rintro rfl
        exact hvoices

theorem le_maxOffset_of_lex {source : String} {lexed : LexOutput} (h : lex source = .ok lexed) :
    source.utf8ByteSize ≤ maxOffset := by
  rw [← Text.byteLength_toList]
  exact (Lexing.lex_eq_ok_iff.1 h).1

/-- What becomes of a report of the parser that is offered to the queue below its limit and is no follow-on: it is kept, or it
repeats an earlier one that was kept. -/
theorem mem_queue_or_repeats {lexed : LexOutput} {parsed : ParseOutput} {front back : List Diagnostic} {d : Diagnostic}
    (hparse : parsed.diagnostics = front ++ d :: back) (hfew : lexed.diagnostics.length + parsed.diagnostics.length < 50)
    (hfollow : d.isFollowOn = false) :
    d ∈ (Analysis.queue lexed parsed).kept ∨
      ∃ e ∈ (Analysis.queue lexed parsed).kept, d.repeats e = true ∧ (e ∈ lexed.diagnostics ∨ e ∈ front) := by
  let q := (Queue.empty .standard).addAll (lexed.diagnostics ++ front)
  have hqueue : Analysis.queue lexed parsed = (q.add d).2.addAll back := by
    rw [Analysis.queue, hparse, Queue.addAll_append, Queue.addAll_cons, ← Queue.addAll_append]
  have hkept := Queue.kept_prefix_addAll (q.add d).2 back
  rw [← hqueue] at hkept
  by_cases hrepeats : ∃ e ∈ q.kept, d.repeats e = true
  · obtain ⟨e, he, hde⟩ := hrepeats
    have hoffered := (Queue.mem_of_mem_addAll he).resolve_left List.not_mem_nil
    have hstays : q.kept <+: (q.add d).2.kept := Queue.kept_prefix_addAll q [d]
    exact .inr ⟨e, (hstays.trans hkept).subset he, hde, List.mem_append.1 hoffered⟩
  · have hbelow : q.limitReached = false := by
      have hcount : q.errorCount = q.kept.countP Diagnostic.isError :=
        ((Queue.tidy_empty .standard).addAll (lexed.diagnostics ++ front)).errorCount
      have hless : q.kept.countP Diagnostic.isError ≤ q.kept.length := List.countP_le_length
      have hlength : q.kept.length ≤ 0 + (lexed.diagnostics ++ front).length := Queue.length_kept_addAll_le (.empty .standard) _
      have hconfig : q.config = .standard := Queue.config_addAll _ _
      rw [hparse, List.length_append, List.length_cons] at hfew
      rw [List.length_append] at hlength
      rw [Queue.limitReached, hconfig, Bool.and_eq_false_iff]
      right
      rw [decide_eq_false_iff_not, Nat.not_le]
      change q.errorCount < 50
      omega
    have haccepts : q.accepts d = true := by
      refine Queue.accepts_iff.2 ⟨fun _ hreached => ?_, fun _ => hfollow, fun e he => ?_⟩
      · rw [hbelow] at hreached
        cases hreached
      · exact Bool.eq_false_iff.2 fun hde => hrepeats ⟨e, he, hde⟩
    rw [Queue.kept_add_of_accepts haccepts] at hkept
    exact .inl (hkept.subset (by simp))

/-- Below the limit the queue loses no report of the parser that blames no invalid token, unless it is a repetition: the report is
among the diagnostics of the analysis, or one with the same code, span and sentence is, or it is the missing keyword of a main
block at a brace before which a colon or a semicolon was reported missing. -/
theorem reports_kept_or_repeated (source : String) {lexed : LexOutput} (hlex : lex source = .ok lexed)
    (hfew : lexed.diagnostics.length + (parse lexed.tokens).diagnostics.length < 50) :
    ∃ analysis, analyze source = .ok analysis ∧ analysis.parse = parse lexed.tokens ∧
      ∀ d ∈ (parse lexed.tokens).diagnostics, (∀ t ∈ d.found, t.kind ≠ .invalid) →
        d ∈ analysis.diagnostics ∨
        (∃ e ∈ analysis.diagnostics, e.code = d.code ∧ e.span = d.span ∧ e.message = d.message) ∨
        ∃ t ∈ lexed.tokens.toList, t.kind = .leftBrace ∧ d.Voices (.missing .main) t ∧
          ∃ e ∈ analysis.diagnostics, e.span = d.span ∧
            (e.Voices (.missing .colon) t ∨ e.Voices (.missing .semicolon) t) := by
  refine ⟨_, by rw [analyze, hlex], rfl, fun d hd hvalid => ?_⟩
  have hsize := le_maxOffset_of_lex hlex
  have hfollow : d.isFollowOn = false := by
    rw [Diagnostic.isFollowOn, Bool.and_eq_false_iff]
    right
    cases hfound : d.found with
    | none => rfl
    | some t => simpa using hvalid t hfound
  obtain ⟨front, back, hparse⟩ := List.append_of_mem hd
  rcases mem_queue_or_repeats hparse hfew hfollow with hkept | ⟨e, hkept, hrepeats, hoffered⟩
  · exact .inl (Queue.mem_sorted.2 hkept)
  · have hsame := Diagnostic.repeats_iff.1 hrepeats
    have hfront : e ∈ front := by
      refine hoffered.resolve_left fun he => ?_
      obtain ⟨c, t, -, hvoices⟩ := voices_parse lexed.tokens d hd
      have hcode := ((diagnostics_lexed hsize hlex).1 e he).1
      rw [← hsame.1, hvoices.code] at hcode
      cases c <;> cases hcode
    rcases message_eq_of_repeats (startsIncrease_of_lex hsize hlex) hparse hfront hrepeats with
      hmessage | ⟨t, ht, hkind, hmain, hearlier⟩
    · exact .inr (.inl ⟨e, Queue.mem_sorted.2 hkept, hsame.1.symm, hsame.2.symm, hmessage⟩)
    · exact .inr (.inr ⟨t, ht, hkind, hmain, e, Queue.mem_sorted.2 hkept, hsame.2.symm, hearlier⟩)

/-- Both the colon and the keyword of the main block are missing at the brace of `program P { }`. -/
theorem reports_kept_or_repeated_brace :
    ∃ lexed, lex "program P \x7b \x7d" = .ok lexed ∧
      lexed.diagnostics.length + (parse lexed.tokens).diagnostics.length < 50 ∧ (parse lexed.tokens).diagnostics.length = 2 ∧
      ∃ analysis, analyze "program P \x7b \x7d" = .ok analysis ∧ analysis.parse = parse lexed.tokens ∧
        ∀ d ∈ (parse lexed.tokens).diagnostics, (∀ t ∈ d.found, t.kind ≠ .invalid) →
          d ∈ analysis.diagnostics ∨
          (∃ e ∈ analysis.diagnostics, e.code = d.code ∧ e.span = d.span ∧ e.message = d.message) ∨
          ∃ t ∈ lexed.tokens.toList, t.kind = .leftBrace ∧ d.Voices (.missing .main) t ∧
            ∃ e ∈ analysis.diagnostics, e.span = d.span ∧
              (e.Voices (.missing .colon) t ∨ e.Voices (.missing .semicolon) t) := by
  have hsize : "program P \x7b \x7d".utf8ByteSize ≤ maxOffset := by decide
  obtain ⟨lexed, hlex, -⟩ := exists_tiled_of_lex hsize
  have hcounts : (lex "program P \x7b \x7d").map (fun out =>
      (out.diagnostics.length, (parse out.tokens).diagnostics.length)) = .ok (0, 2) := by decide +kernel
  rw [hlex] at hcounts
  obtain ⟨hlexed, hparsed⟩ := Prod.mk.inj (Except.ok.inj hcounts)
  have hfew : lexed.diagnostics.length + (parse lexed.tokens).diagnostics.length < 50 := by omega
  exact ⟨lexed, hlex, hfew, hparsed, reports_kept_or_repeated _ hlex hfew⟩

/-- Two terminals are missing at the brace of `program P { }`, the colon and the keyword of the main block. The parser reports both,
but no diagnostic of the analysis says that the keyword is missing. -/
theorem missing_main_hidden :
    ∃ lexed analysis, lex "program P \x7b \x7d" = .ok lexed ∧ analyze "program P \x7b \x7d" = .ok analysis ∧
      lexed.diagnostics.length + (parse lexed.tokens).diagnostics.length < 50 ∧
      ∃ d ∈ (parse lexed.tokens).diagnostics, d.found = none ∧ d.message = "missing `main`" ∧
        ∀ e ∈ analysis.diagnostics, e.message ≠ d.message := by
  have hsize : "program P \x7b \x7d".utf8ByteSize ≤ maxOffset := by decide
  obtain ⟨lexed, hlex, -⟩ := exists_tiled_of_lex hsize
  have hvalues : (lex "program P \x7b \x7d").map (fun out => (out.diagnostics.length, (parse out.tokens).diagnostics.length,
      (parse out.tokens).diagnostics.any fun d => d.found.isNone && d.message == "missing `main`" &&
        (Analysis.queue out (parse out.tokens)).kept.all fun e => e.message != d.message)) = .ok (0, 2, true) := by
    decide +kernel
  rw [hlex] at hvalues
  obtain ⟨hlexed, hrest⟩ := Prod.mk.inj (Except.ok.inj hvalues)
  obtain ⟨hparsed, hhidden⟩ := Prod.mk.inj hrest
  obtain ⟨d, hd, hmain⟩ := List.any_eq_true.1 hhidden
  rw [Bool.and_eq_true, Bool.and_eq_true, Option.isNone_iff_eq_none, beq_iff_eq] at hmain
  obtain ⟨⟨hfound, hmessage⟩, hall⟩ := hmain
  refine ⟨lexed, _, hlex, by rw [analyze, hlex], by omega, d, hd, hfound, hmessage, fun e he => ?_⟩
  simpa using List.all_eq_true.1 hall e (Queue.mem_sorted.1 he)

end QuillFrontEnd
