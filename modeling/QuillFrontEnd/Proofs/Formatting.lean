import QuillFrontEnd.Analysis
import QuillFrontEnd.Proofs.Steering
import QuillFrontEnd.Proofs.TokenOrder
import QuillFrontEnd.Summary
import Mathlib.Data.List.Forall2

/-!
# Formatting does not matter

Two texts with the same tokens, apart from where these stand, have the same analysis, apart from where its diagnostics stand. To
the parser this is clear, but the queue compares the spans of diagnostics to drop repetitions, and their positions to sort them.
Each diagnostic stands at a token, though, and tokens that come one after the other have different spans and positions in the same
order: so what the queue does is decided by the places of the tokens in their lists.
-/

namespace QuillFrontEnd

open QuillFrontEnd.Parser

/-! ## Diagnostics at places of a token list -/

section

variable {ts : TokenList} {i j : Nat} {d e : Diagnostic}

/-- Diagnostics repeat one another exactly if they are of one code and stand at one place. -/
theorem Diagnostic.StandsIn.repeats_iff (hts : ts.StartsIncrease) (hd : d.StandsIn ts i) (he : e.StandsIn ts j) :
    d.repeats e = true ↔ d.code = e.code ∧ i = j := by
  obtain ⟨t, ht, hdt⟩ := hd
  obtain ⟨u, hu, heu⟩ := he
  rw [Diagnostic.repeats, Bool.and_eq_true, beq_iff_eq, beq_iff_eq]
  refine and_congr_right fun hcode => ?_
  constructor
  · intro hspan
    have hstart : t.span.start = u.span.start := by
      rw [← hdt.anchoredAt.start, ← heu.anchoredAt.start, hspan]
    rcases Nat.lt_trichotomy i j with hlt | heq | hlt
    · exact absurd (hts.start_lt ht hu hlt) (by omega)
    · exact heq
    · exact absurd (hts.start_lt hu ht hlt) (by omega)
  · rintro rfl
    obtain rfl : t = u := Option.some.inj (ht.symm.trans hu)
    rw [hdt.span, heu.span, hcode]

/-- The order of the positions of diagnostics is the order of their places. -/
theorem Diagnostic.StandsIn.notAfter_iff (hts : ts.PositionsIncrease) (hd : d.StandsIn ts i) (he : e.StandsIn ts j) :
    d.position.notAfter e.position = true ↔ i ≤ j := by
  obtain ⟨t, ht, hdt⟩ := hd
  obtain ⟨u, hu, heu⟩ := he
  rw [hdt.position, heu.position]
  rcases Nat.lt_trichotomy i j with hlt | rfl | hlt
  · exact iff_of_true (hts.before ht hu hlt).notAfter (Nat.le_of_lt hlt)
  · obtain rfl : t = u := Option.some.inj (ht.symm.trans hu)
    exact iff_of_true (Position.notAfter_refl _) (Nat.le_refl i)
  · refine iff_of_false ?_ (Nat.not_le.2 hlt)
    rw [Position.before_iff.1 (hts.before hu ht hlt)]
    decide

end

/-- Two diagnostics, each at a place of a list of its own, that say the same and stand at the same place. -/
structure Twins (ts ts' : TokenList) (d d' : Diagnostic) : Prop where
  seen : d.seen .texts = d'.seen .texts
  place : ∃ i, d.StandsIn ts i ∧ d'.StandsIn ts' i

/-- All that a diagnostic says. -/
def Diagnostic.wording (d : Diagnostic) : Code × Severity × String × Option String × Option String × List String :=
  (d.code, d.severity, d.message, d.expected, d.label, d.notes)

theorem Diagnostic.wording_seen (d : Diagnostic) : (d.seen .texts).wording = d.wording := by
  have hlabel : (d.seen .texts).label = d.label := by
    obtain ⟨_, _, _, _, _, expected, found, _⟩ := d
    cases expected <;> cases found <;> rfl
  rw [Diagnostic.wording, hlabel]
  rfl

theorem Diagnostic.isFollowOn_seen (v : Detail) (d : Diagnostic) : (d.seen v).isFollowOn = d.isFollowOn := by
  rw [Diagnostic.isFollowOn, Diagnostic.isFollowOn, Diagnostic.seen, Option.any_map]
  rfl

/-! ## What a queue does with related diagnostics -/

namespace Queue

variable {R : Diagnostic → Diagnostic → Prop} {q q' : Queue}

/-- A relation of diagnostics that a queue treats in the same way. -/
structure Respects (R : Diagnostic → Diagnostic → Prop) : Prop where
  severity : ∀ ⦃d d'⦄, R d d' → d.severity = d'.severity
  isFollowOn : ∀ ⦃d d'⦄, R d d' → d.isFollowOn = d'.isFollowOn
  repeats : ∀ ⦃d d' e e'⦄, R d d' → R e e' → d.repeats e = d'.repeats e'
  notAfter : ∀ ⦃d d' e e'⦄, R d d' → R e e' → d.position.notAfter e.position = d'.position.notAfter e'.position

/-- A diagnostic repeats one of several others exactly if its relative repeats one of their relatives. -/
theorem Respects.any_repeats (hR : Respects R) {d d' : Diagnostic} (hd : R d d') {ds ds' : List Diagnostic}
    (hds : List.Forall₂ R ds ds') : ds.any d.repeats = ds'.any d'.repeats := by
  induction hds with
  | nil => rfl
  | cons he _ ih => rw [List.any_cons, List.any_cons, hR.repeats hd he, ih]

/-- Two queues with related diagnostics in them. -/
structure Matches (R : Diagnostic → Diagnostic → Prop) (q q' : Queue) : Prop where
  config : q.config = q'.config
  kept : List.Forall₂ R q.kept q'.kept
  errorCount : q.errorCount = q'.errorCount
  warningCount : q.warningCount = q'.warningCount

theorem Matches.add (hR : Respects R) (h : Matches R q q') {d d' : Diagnostic} (hd : R d d') :
    Matches R (q.add d).2 (q'.add d').2 := by
  have herror : d.isError = d'.isError := by rw [Diagnostic.isError, Diagnostic.isError, hR.severity hd]
  have hfatal : d.isFatal = d'.isFatal := by rw [Diagnostic.isFatal, Diagnostic.isFatal, hR.severity hd]
  have haccepts : q.accepts d = q'.accepts d' := by
    rw [accepts, accepts, limitReached, limitReached, herror, hfatal, h.config, h.errorCount, hR.isFollowOn hd,
      hR.any_repeats hd h.kept]
  unfold Queue.add
  rw [haccepts, herror, h.errorCount, h.warningCount]
  split
  · exact ⟨h.config, List.rel_append h.kept (.cons hd .nil), rfl, rfl⟩
  · exact h

theorem Matches.addAll (hR : Respects R) (h : Matches R q q') {ds ds' : List Diagnostic} (hds : List.Forall₂ R ds ds') :
    Matches R (q.addAll ds) (q'.addAll ds') :=
  List.rel_foldl (fun _ _ hq _ _ hd => hq.add hR hd) h hds

/-- The diagnostics that are handed over are related one by one. -/
theorem Matches.sorted (hR : Respects R) (h : Matches R q q') : List.Forall₂ R q.sorted q'.sorted := by
  obtain ⟨hlength, hzip⟩ := List.forall₂_iff_zip.1 h.kept
  -- Sorting the pairs by either component sorts both lists.
  let pairs := (q.kept.zip q'.kept).mergeSort fun p p' => p.1.position.notAfter p'.1.position
  have hfst : pairs.map Prod.fst = q.sorted := by
    have hmap : pairs.map Prod.fst = ((q.kept.zip q'.kept).map Prod.fst).mergeSort
        fun d e => d.position.notAfter e.position := List.map_mergeSort fun _ _ _ _ => rfl
    rw [hmap, List.map_fst_zip (Nat.le_of_eq hlength), Queue.sorted]
  have hsnd : pairs.map Prod.snd = q'.sorted := by
    have hmap : pairs.map Prod.snd = ((q.kept.zip q'.kept).map Prod.snd).mergeSort
        fun d e => d.position.notAfter e.position :=
      List.map_mergeSort fun p hp p' hp' => hR.notAfter (hzip hp) (hzip hp')
    rw [hmap, List.map_snd_zip (Nat.le_of_eq hlength.symm), Queue.sorted]
  rw [← hfst, ← hsnd, List.forall₂_map_left_iff, List.forall₂_map_right_iff, List.forall₂_same]
  exact fun p hp => hzip (List.mem_mergeSort.1 hp)

end Queue

/-- A queue treats twins in the same way, if the tokens of both lists are in order. -/
theorem respects_twins {ts ts' : TokenList} (hstarts : ts.StartsIncrease) (hstarts' : ts'.StartsIncrease)
    (hpositions : ts.PositionsIncrease) (hpositions' : ts'.PositionsIncrease) : Queue.Respects (Twins ts ts') where
  severity d d' h := by injection h.seen
  isFollowOn d d' h := by rw [← d.isFollowOn_seen .texts, h.seen, d'.isFollowOn_seen]
  repeats d d' e e' hd he := by
    obtain ⟨i, hi, hi'⟩ := hd.place
    obtain ⟨j, hj, hj'⟩ := he.place
    have hcode : d.code = d'.code := by injection hd.seen
    have hcode' : e.code = e'.code := by injection he.seen
    rw [Bool.eq_iff_iff, hi.repeats_iff hstarts hj, hi'.repeats_iff hstarts' hj', hcode, hcode']
  notAfter d d' e e' hd he := by
    obtain ⟨i, hi, hi'⟩ := hd.place
    obtain ⟨j, hj, hj'⟩ := he.place
    rw [Bool.eq_iff_iff, hi.notAfter_iff hpositions hj, hi'.notAfter_iff hpositions' hj']

/-! ## Texts with the same tokens -/

section

variable {ts ts' : TokenList}

/-- The tokens of two lists that look alike, one by one at their places. -/
theorem forall₂_body (h : ts.toList.map (Token.seen .texts) = ts'.toList.map (Token.seen .texts)) :
    List.Forall₂ (fun t t' => t.seen .texts = t'.seen .texts ∧ ∃ i, ts.get? i = some t ∧ ts'.get? i = some t')
      ts.body ts'.body := by
  obtain ⟨hbody, -⟩ := TokenList.map_seen_parts h
  have hget : ∀ (ts : TokenList) (i : Nat) (hi : i < ts.body.length), ts.get? i = some (ts.body.get ⟨i, hi⟩) := by
    intro ts i hi
    rw [TokenList.get?, TokenList.toList, List.getElem?_append_left hi, List.getElem?_eq_getElem hi, List.get_eq_getElem]
  rw [List.forall₂_iff_get]
  refine ⟨by simpa using congrArg List.length hbody, fun i hi hi' => ⟨?_, i, hget ts i hi, hget ts' i hi'⟩⟩
  have hseen := congrArg (fun xs => xs[i]?) hbody
  simpa [hi, hi'] using hseen

/-- What the lexer complains of in two texts with the same tokens are twins. -/
theorem twins_lexed {source source' : String} {out out' : LexOutput} (hsize : source.utf8ByteSize ≤ maxOffset)
    (hsize' : source'.utf8ByteSize ≤ maxOffset) (hlex : lex source = .ok out) (hlex' : lex source' = .ok out')
    (h : out.tokens.toList.map (Token.seen .texts) = out'.tokens.toList.map (Token.seen .texts)) :
    List.Forall₂ (Twins out.tokens out'.tokens) out.diagnostics out'.diagnostics := by
  obtain ⟨_, hok, -, -, hdiagnostics⟩ := exists_tiled_of_lex hsize
  obtain rfl := Except.ok.inj (hlex.symm.trans hok)
  obtain ⟨_, hok', -, -, hdiagnostics'⟩ := exists_tiled_of_lex hsize'
  obtain rfl := Except.ok.inj (hlex'.symm.trans hok')
  rw [hdiagnostics, hdiagnostics', List.forall₂_map_left_iff, List.forall₂_map_right_iff]
  have hinvalid := List.rel_filter (p := fun t => t.kind == .invalid) (q := fun t => t.kind == .invalid)
    (fun t t' ht => by dsimp only; rw [Token.kind_eq_of_seen ht.1]) (forall₂_body h)
  refine hinvalid.imp fun t t' ⟨hseen, i, hi, hi'⟩ => ⟨?_, i, ⟨t, hi, rfl, rfl⟩, t', hi', rfl, rfl⟩
  have hlexeme : t.lexeme = t'.lexeme := by injection hseen
  simp only [Lexing.invalidCharacters, Diagnostic.seen, Diagnostic.blaming, Diagnostic.saying, hlexeme,
    Token.describe_eq_of_seen hseen, Option.map_some, hseen]

/-- What the parser complains of in two token lists that look alike are twins. -/
theorem twins_parsed (h : ts.toList.map (Token.seen .texts) = ts'.toList.map (Token.seen .texts)) :
    List.Forall₂ (Twins ts ts') (parse ts).diagnostics (parse ts').diagnostics := by
  have hseen : (parse ts).seen .texts = (parse ts').seen .texts := seen_parseWith .standard h
  have hlocated : (parse ts).Located ts := located_parseWith Table.standard_orderly ts
  have hlocated' : (parse ts').Located ts' := located_parseWith Table.standard_orderly ts'
  have hreported := congrArg ParseOutput.reportedAt hseen
  rw [ParseOutput.reportedAt_seen, ParseOutput.reportedAt_seen, ← List.forall₂_eq_eq_eq, List.forall₂_map_left_iff,
    List.forall₂_map_right_iff, List.forall₂_iff_zip] at hreported
  rw [← hlocated.diagnostics, ← hlocated'.diagnostics, List.forall₂_map_left_iff, List.forall₂_map_right_iff, List.forall₂_iff_zip]
  refine ⟨hreported.1, fun {p p'} hp => ?_⟩
  obtain ⟨hplace, hsaid⟩ := Prod.ext_iff.1 (hreported.2 hp)
  obtain ⟨hmem, hmem'⟩ := List.of_mem_zip hp
  have hindex : p'.1 = p.1 := hplace.symm
  exact ⟨hsaid, p.1, hlocated.standsIn p hmem, hindex ▸ hlocated'.standsIn p' hmem'⟩

end

/-! ## Summaries -/

theorem FunctionDecl.signature_seen (f : FunctionDecl) : (f.mapTerminals (Terminal.seen .texts)).signature = f.signature := by
  have hparams : (f.mapTerminals (Terminal.seen .texts)).paramItems =
      f.paramItems.map (Param.mapTerminals (Terminal.seen .texts)) := by
    unfold FunctionDecl.paramItems FunctionDecl.mapTerminals
    cases f.params <;> rfl
  have hnames : ((fun p : Param => p.name.text?.getD "_") ∘ Param.mapTerminals (Terminal.seen .texts)) =
      fun p => p.name.text?.getD "_" := rfl
  rw [FunctionDecl.signature, hparams, List.map_map, hnames]
  rfl

namespace ParseOutput

variable (o : ParseOutput)

theorem diagnostics_seen (v : Detail) : (o.seen v).diagnostics = o.diagnostics.map (Diagnostic.seen v) := by
  have hreported : ∀ e : Event, (e.seen v).reported? = e.reported?.map (Diagnostic.seen v) := by
    intro e
    cases e <;> rfl
  rw [diagnostics, diagnostics, seen, ← List.map_reverse, List.filterMap_map, List.map_filterMap]
  exact congrArg (fun f => o.trace.reverse.filterMap f) (funext hreported)

theorem length_skipped_seen (v : Detail) : (o.seen v).skipped.length = o.skipped.length := by
  have hskipped : ∀ o : ParseOutput, o.skippedAt.map Prod.snd = o.skipped := fun o => map_snd_placesOf _ _ _
  rw [← hskipped, ← hskipped, skippedAt_seen, List.length_map, List.length_map, List.length_map]

theorem statusText_seen (v : Detail) : (o.seen v).statusText = o.statusText := by
  rw [statusText, statusText, isFatal, isFatal, hasErrors, hasErrors, diagnostics_seen, List.any_map, List.any_map]
  rfl

theorem functionsText_seen : (o.seen .texts).functionsText = o.functionsText := by
  have hsignature : FunctionDecl.signature ∘ FunctionDecl.mapTerminals (Terminal.seen .texts) = FunctionDecl.signature :=
    funext FunctionDecl.signature_seen
  unfold functionsText seen Program.mapTerminals Functions.mapTerminals
  cases o.tree.functions.decls with
  | nil => rfl
  | cons f fs => simp only [List.map_cons, List.map_map, hsignature, FunctionDecl.signature_seen]

theorem globalCount_seen (v : Detail) : (o.seen v).globalCount = o.globalCount := by
  simp [globalCount, seen, Program.mapTerminals, VarDecls.mapTerminals, List.flatMap_map, VarDecl.mapTerminals,
    Separated.mapTerminals]

/-- A summary says nothing of where things stand. -/
theorem summary_seen (path : String) : (o.seen .texts).summary path = o.summary path := by
  have hdecls : (o.seen .texts).tree.globals.decls.length = o.tree.globals.decls.length := List.length_map _
  have hstatements : (o.seen .texts).tree.main.block.statements.length = o.tree.main.block.statements.length :=
    List.length_map _
  have hname : (o.seen .texts).tree.name.text? = o.tree.name.text? := rfl
  have hconsumed : (o.seen .texts).consumed = o.consumed := rfl
  unfold summary
  rw [hname, hdecls, globalCount_seen, functionsText_seen, hstatements, hconsumed, length_skipped_seen, statusText_seen]

end ParseOutput

/-! ## Analyses -/

/-- Formatting does not matter to an analysis. Let two texts, not too large, have tokens of the same kinds with the same texts, so
that they differ in white space and comments only. Then their analyses count the same errors and warnings and have the same status,
their diagnostics say the same in the same order, and the summaries of their parses are the same. -/
theorem formatting_does_not_matter (source source' : String) (hsize : source.utf8ByteSize < maxOffset)
    (hsize' : source'.utf8ByteSize < maxOffset) :
    ∃ lexed lexed' analysis analysis', lex source = .ok lexed ∧ lex source' = .ok lexed' ∧
      analyze source = .ok analysis ∧ analyze source' = .ok analysis' ∧
      (lexed.tokens.toList.map (fun t => (t.kind, t.lexeme)) = lexed'.tokens.toList.map (fun t => (t.kind, t.lexeme)) →
        analysis.errorCount = analysis'.errorCount ∧ analysis.warningCount = analysis'.warningCount ∧
        analysis.status = analysis'.status ∧
        analysis.diagnostics.map Diagnostic.wording = analysis'.diagnostics.map Diagnostic.wording ∧
        ∀ path, analysis.parse.summary path = analysis'.parse.summary path) := by
  obtain ⟨lexed, hlex, -⟩ := exists_tiled_of_lex (Nat.le_of_lt hsize)
  obtain ⟨lexed', hlex', -⟩ := exists_tiled_of_lex (Nat.le_of_lt hsize')
  refine ⟨lexed, lexed', _, _, hlex, hlex', by rw [analyze, hlex], by rw [analyze, hlex'], fun h => ?_⟩
  have hlike : lexed.tokens.toList.map (Token.seen .texts) = lexed'.tokens.toList.map (Token.seen .texts) :=
    TokenList.map_seen_of_map (g := fun p => ⟨p.1, p.2, .zero, .first⟩) (fun _ => rfl) h
  have hR : Queue.Respects (Twins lexed.tokens lexed'.tokens) := respects_twins
    (startsIncrease_of_lex (Nat.le_of_lt hsize) hlex) (startsIncrease_of_lex (Nat.le_of_lt hsize') hlex')
    (positionsIncrease_of_lex hsize hlex) (positionsIncrease_of_lex hsize' hlex')
  have hempty : Queue.Matches (Twins lexed.tokens lexed'.tokens) (.empty .standard) (.empty .standard) :=
    ⟨rfl, .nil, rfl, rfl⟩
  have hqueue : Queue.Matches (Twins lexed.tokens lexed'.tokens) (Analysis.queue lexed (parse lexed.tokens))
      (Analysis.queue lexed' (parse lexed'.tokens)) :=
    (hempty.addAll hR (twins_lexed (Nat.le_of_lt hsize) (Nat.le_of_lt hsize') hlex hlex' hlike)).addAll hR (twins_parsed hlike)
  have hwording : (Analysis.queue lexed (parse lexed.tokens)).sorted.map Diagnostic.wording =
      (Analysis.queue lexed' (parse lexed'.tokens)).sorted.map Diagnostic.wording := by
    rw [← List.forall₂_eq_eq_eq, List.forall₂_map_left_iff, List.forall₂_map_right_iff]
    refine (hqueue.sorted hR).imp fun d d' hd => ?_
    rw [← d.wording_seen, hd.seen, d'.wording_seen]
  have hseen : (parse lexed.tokens).seen .texts = (parse lexed'.tokens).seen .texts := seen_parseWith .standard hlike
  refine ⟨hqueue.errorCount, hqueue.warningCount, ?_, hwording, fun path => ?_⟩
  · rw [Analysis.status, Analysis.status, hqueue.errorCount]
  · rw [← ParseOutput.summary_seen, hseen, ParseOutput.summary_seen]

/-- A program with a comma too many, an invalid character and no braces, on one line and on several with a comment. -/
theorem formatting_does_not_matter_lines :
    let source := "program p: , ? main ;"
    let source' := "program\n  p :,// a note\n?\n\nmain\n;"
    source.utf8ByteSize < maxOffset ∧ source'.utf8ByteSize < maxOffset ∧
      ∃ analysis analysis', analyze source = .ok analysis ∧ analyze source' = .ok analysis' ∧
        analysis.errorCount = 4 ∧ analysis'.errorCount = 4 ∧ analysis'.status = .failed ∧
        analysis.diagnostics.map Diagnostic.wording = analysis'.diagnostics.map Diagnostic.wording ∧
        analysis.parse.summary "p.quill" = analysis'.parse.summary "p.quill" := by
  intro source source'
  have hsize : source.utf8ByteSize < maxOffset := by decide
  have hsize' : source'.utf8ByteSize < maxOffset := by decide
  obtain ⟨lexed, lexed', analysis, analysis', hlex, hlex', hanalysis, hanalysis', hsame⟩ :=
    formatting_does_not_matter source source' hsize hsize'
  have htokens : (lex source).map (fun out => out.tokens.toList.map fun t => (t.kind, t.lexeme)) =
      (lex source').map fun out => out.tokens.toList.map fun t => (t.kind, t.lexeme) := by decide +kernel
  have hcount : (analyze source).map Analysis.errorCount = .ok 4 := by decide +kernel
  rw [hlex, hlex'] at htokens
  rw [hanalysis] at hcount
  obtain ⟨herrors, -, hstatus, hwording, hsummary⟩ := hsame (Except.ok.inj htokens)
  have hfour : analysis.errorCount = 4 := Except.ok.inj hcount
  have hfailed : analysis.status = .failed := by
    rw [Analysis.status, hfour]
    rfl
  exact ⟨hsize, hsize', analysis, analysis', hanalysis, hanalysis', hfour, herrors.symm.trans hfour,
    hstatus.symm.trans hfailed, hwording, hsummary _⟩

end QuillFrontEnd
