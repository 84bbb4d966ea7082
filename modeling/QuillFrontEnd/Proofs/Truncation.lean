import QuillFrontEnd.Proofs.Cascades
import QuillFrontEnd.Proofs.Containment
import QuillFrontEnd.Proofs.ValidPrefix
import Mathlib.Data.List.Basic

/-!
# Programs that are cut off

If a program is cut off before its end, the parser takes all that is left into the tree and complains only at the end of the input.
What it complains of there depends on whether the brace that opens the main block is left. If it is, only the brace that closes
the block is missing, and it is put in. If it is not, the main block cannot be read, and the parse gives up.
-/

namespace QuillFrontEnd

open QuillFrontEnd.Parser

variable {before inner w p : List TokenKind}

/-! ## Where the main block of a program opens -/

/-- What comes before the main block of a program. -/
def Pattern.preamble : Pattern :=
  .append (.append (.token .program) (.append (.token .identifier) (.token .colon)))
    (.append (.phrase .globalVars) (.phrase .functions))

/-- The keyword of the main block is nowhere but in front of that block. -/
theorem Derives.main_not_mem {q : Pattern} {v : List TokenKind} (h : Derives q v) (hq : q.avoids .main [.main, .start] = true) :
    .main ∉ v := h.not_mem_of_avoids (fun r => by cases r <;> decide) hq

/-- Statements are semicolons. -/
theorem derives_statements_iff {v : List TokenKind} :
    Derives (.repeated (.phrase .statement)) v ↔ ∀ k ∈ v, k = .semicolon := by
  constructor
  · intro h k hk
    obtain ⟨us, rfl, hus⟩ := Derives.repeated_iff.1 h
    obtain ⟨u, hu, hk⟩ := List.mem_flatten.1 hk
    obtain ⟨e, s, rfl, he, hs⟩ := Derives.append_iff.1 (Derives.phrase_iff.1 (hus u hu))
    rw [Derives.empty_iff.1 (Derives.phrase_iff.1 he), Derives.token_iff.1 hs] at hk
    exact List.mem_singleton.1 hk
  · intro h
    induction v with
    | nil => exact .none
    | cons k v ih =>
      rw [List.forall_mem_cons] at h
      obtain ⟨rfl, hv⟩ := h
      have hexpression : Derives (.phrase .expression) [] := .phrase .empty
      have hstatement : Derives (.phrase .statement) [.semicolon] := .phrase (.append hexpression (.token _))
      exact .more hstatement (ih hv)

/-- A program without the end of its input, cut at the brace that opens its main block: `before` is all up to the keyword, and
`inner` is what comes after the brace. -/
structure OpensMain (before inner w : List TokenKind) : Prop where
  eq : w = before ++ .main :: .leftBrace :: inner
  preamble : Derives .preamble before
  block : Derives (.phrase .block) (.leftBrace :: inner)

/-- Every program has a main block. -/
theorem IsProgram.exists_opensMain (h : IsProgram (w ++ [.endOfInput])) : ∃ before inner, OpensMain before inner w := by
  obtain ⟨k, _, hw, hk, h⟩ := Derives.append_iff.1 (Derives.phrase_iff.1 h)
  obtain ⟨i, _, rfl, hi, h⟩ := Derives.append_iff.1 h
  obtain ⟨c, _, rfl, hc, h⟩ := Derives.append_iff.1 h
  obtain ⟨vs, _, rfl, hvs, h⟩ := Derives.append_iff.1 h
  obtain ⟨fs, _, rfl, hfs, h⟩ := Derives.append_iff.1 h
  obtain ⟨m, e, rfl, hm, he⟩ := Derives.append_iff.1 h
  obtain ⟨j, b, rfl, hj, hb⟩ := Derives.append_iff.1 (Derives.phrase_iff.1 hm)
  obtain ⟨l, inner, rfl, hl, -⟩ := Derives.append_iff.1 (Derives.phrase_iff.1 hb)
  obtain rfl := Derives.token_iff.1 hj
  obtain rfl := Derives.token_iff.1 hl
  obtain rfl := Derives.token_iff.1 he
  refine ⟨(k ++ (i ++ c)) ++ (vs ++ fs), inner, ?_, .append (.append hk (.append hi hc)) (.append hvs hfs), hb⟩
  refine List.append_cancel_right (?_ : w ++ [.endOfInput] = _ ++ [.endOfInput])
  simpa using hw

namespace OpensMain

/-- A main block with the end of the input after it ends a program. -/
theorem isProgram (h : OpensMain before inner w) : IsProgram (w ++ [.endOfInput]) := by
  obtain ⟨_, _, rfl, hhead, hparts⟩ := Derives.append_iff.1 h.preamble
  have hmain : Derives (.append (.phrase .main) .empty) ([.main] ++ (.leftBrace :: inner) ++ []) :=
    .append (.phrase (.append (.token _) h.block)) .empty
  obtain ⟨vs, fs, rfl, hvs, hfs⟩ := Derives.append_iff.1 hparts
  have hprogram := isProgram_of_parts (.append (.append hhead (.append hvs (.append hfs hmain))) (.token _))
  rw [h.eq]
  simpa using hprogram

/-- In the main block there are only semicolons, up to the brace that closes it. -/
theorem exists_statements (h : OpensMain before inner w) : ∃ v, inner = v ++ [.rightBrace] ∧ ∀ k ∈ v, k = .semicolon := by
  obtain ⟨l, _, heq, hl, hrest⟩ := Derives.append_iff.1 (Derives.phrase_iff.1 h.block)
  obtain ⟨v, r, rfl, hv, hr⟩ := Derives.append_iff.1 hrest
  rw [Derives.token_iff.1 hl, Derives.token_iff.1 hr] at heq
  exact ⟨v, (List.cons.inj heq).2, derives_statements_iff.1 hv⟩

/-- A block is complete with any number of statements. -/
theorem of_statements {v : List TokenKind} (hbefore : Derives .preamble before) (hv : ∀ k ∈ v, k = .semicolon) :
    OpensMain before (v ++ [.rightBrace]) (before ++ .main :: .leftBrace :: (v ++ [.rightBrace])) :=
  ⟨rfl, hbefore, .phrase (.append (.token _) (.append (derives_statements_iff.2 hv) (.token _)))⟩

/-- There is one keyword of a main block in a program. -/
theorem before_eq {u v : List TokenKind} (h : OpensMain before inner w) (hw : w = u ++ .main :: v) :
    u = before ∧ v = .leftBrace :: inner := by
  rw [h.eq] at hw
  obtain ⟨hu, -, hv⟩ := (List.append_cons_inj_of_notMem (h.preamble.main_not_mem rfl) (h.block.main_not_mem rfl)).1 hw
  exact ⟨hu.symm, hv.symm⟩

/-- A beginning of a program in which the main block is opened ends with statements of it. -/
theorem exists_statements_of_prefix (h : OpensMain before inner w) (hp : p <+: w) (hne : p ≠ w)
    (hopened : before ++ [.main, .leftBrace] <+: p) : ∃ v, p = before ++ .main :: .leftBrace :: v ∧ ∀ k ∈ v, k = .semicolon := by
  obtain ⟨v, rfl⟩ := hopened
  refine ⟨v, by simp, ?_⟩
  obtain ⟨statements, rfl, hstatements⟩ := h.exists_statements
  have hinner : v <+: statements ++ [.rightBrace] := by
    have heq : w = (before ++ [.main, .leftBrace]) ++ (statements ++ [.rightBrace]) := by rw [h.eq]; simp
    rw [heq] at hp
    exact (List.prefix_append_right_inj _).1 hp
  rcases List.prefix_concat_iff.1 hinner with rfl | hv
  · exact absurd (by rw [h.eq]; simp) hne
  · exact fun k hk => hstatements k (hv.subset hk)

/-- A beginning of a program in which the main block is opened lacks nothing but the brace that closes it. -/
theorem isProgram_of_opened (h : OpensMain before inner w) (hp : p <+: w) (hne : p ≠ w)
    (hopened : before ++ [.main, .leftBrace] <+: p) : IsProgram (p ++ [.rightBrace, .endOfInput]) := by
  obtain ⟨v, rfl, hv⟩ := h.exists_statements_of_prefix hp hne hopened
  have hprogram := (of_statements h.preamble hv).isProgram
  simpa using hprogram

/-- The main block is opened in a beginning of a program if the keyword and a brace are in it. -/
theorem opened_of_eq {u v : List TokenKind} (h : OpensMain before inner w) (hp : p <+: w)
    (hpuv : p = u ++ .main :: .leftBrace :: v) : before ++ [.main, .leftBrace] <+: p := by
  obtain ⟨q, rfl⟩ := hp
  have hw : p ++ q = u ++ .main :: (.leftBrace :: v ++ q) := by rw [hpuv]; simp
  obtain ⟨rfl, -⟩ := h.before_eq hw
  exact ⟨v, by rw [hpuv]; simp⟩

/-- No program is a proper beginning of another. -/
theorem not_isProgram_of_prefix (h : OpensMain before inner w) (hp : p <+: w) (hne : p ≠ w) :
    ¬IsProgram (p ++ [.endOfInput]) := by
  intro hprogram
  obtain ⟨before', inner', h'⟩ := hprogram.exists_opensMain
  obtain ⟨v, hv, hsemicolons⟩ := h.exists_statements_of_prefix hp hne (h.opened_of_eq hp h'.eq)
  obtain ⟨v', hinner, -⟩ := h'.exists_statements
  have hsame : .leftBrace :: v = .leftBrace :: inner' := (h'.before_eq hv).2
  have hbrace := hsemicolons .rightBrace (by simp [(List.cons.inj hsame).2, hinner])
  cases hbrace

end OpensMain

/-! ## Parses that complain at the end of the input only -/

/-- The events of a parse that takes all tokens without a complaint, and has complaints only after that. -/
structure TakesAllFirst (ts : TokenList) (es fs : List Event) : Prop where
  trace : (parse ts).trace.reverse = es ++ (fs ++ [.shift ts.sentinel])
  quiet : Quiet es
  taken : shifts es = ts.body
  passed : passes fs = []
  noisy : ¬Quiet fs

/-- The beginning of a program that is not a program itself is taken without a complaint. -/
theorem exists_takesAllFirst {ts : TokenList} (hpre : IsProgramPrefix (ts.body.map Token.kind)) (hnot : ¬IsProgram ts.kinds) :
    ∃ es fs, TakesAllFirst ts es fs := by
  have hq : ¬Quiet (parse ts).trace.reverse := fun hq => hnot (isProgram_of_quiet hq)
  obtain ⟨d, ds, x, xs, -, -, hts⟩ := exists_first_report hq
  have himpossible := not_isProgramPrefix_of_not_quiet hq hts
  have hshifts : shifts (quietPart (parse ts).trace.reverse) = ts.body := by
    have hbegins : shifts (quietPart (parse ts).trace.reverse) ++ [x] <+: ts.body ++ [ts.sentinel] :=
      ⟨xs, by rw [List.append_assoc]; exact hts.symm⟩
    rcases List.prefix_concat_iff.1 hbegins with heq | hbody
    · exact (List.append_inj' heq rfl).1
    · exact absurd (hpre.of_prefix (hbody.map _)) himpossible
  obtain ⟨es, t, hr, hend, htrace, -⟩ := parseWith_run Table.standard_orderly ts
  have htrace' : (parse ts).trace.reverse = es ++ [.shift ts.sentinel] := htrace
  rw [htrace'] at hq hshifts
  have hes : ¬Quiet es := fun hes => hq (by simpa using hes)
  rw [quietPart_append_of_not_quiet hes] at hshifts
  have hparts := quietPart_append_noisyPart es
  have hquiet := quiet_quietPart es
  refine ⟨quietPart es, noisyPart es, ?_, hquiet, hshifts, ?_, fun hnoisy => hes ?_⟩
  · rw [htrace', ← List.append_assoc, hparts]
  · have hrest : ts.body = passes es ++ t.cursor.rest := hr.effect.rest
    rw [hend, List.append_nil, ← hparts, passes_append, passes_eq_shifts_of_quiet hquiet, hshifts] at hrest
    exact List.self_eq_append_right.1 hrest
  · rw [← hparts]
    exact (quiet_append _ _).2 ⟨hquiet, hnoisy⟩

namespace TakesAllFirst

variable {ts : TokenList} {es fs : List Event}

/-- Nothing is skipped. -/
theorem skipped (h : TakesAllFirst ts es fs) : (parse ts).skipped = [] := by
  have hdrops : drops fs = [] := by
    have hmerge := merge_passes fs
    rw [h.passed] at hmerge
    exact List.eq_nil_iff_forall_not_mem.2 fun t ht => List.not_mem_nil (hmerge.mem_of_mem_right ht)
  have hskipped : (parse ts).skipped = drops (parse ts).trace.reverse := rfl
  rw [hskipped, h.trace, drops_append, drops_append, drops_eq_nil_of_quiet h.quiet, hdrops]
  rfl

/-- Everything is reported at the end of the input. -/
theorem standsAt (h : TakesAllFirst ts es fs) : ∀ d ∈ (parse ts).diagnostics, d.StandsAt ts.sentinel := by
  intro d hd
  have hdiag : (parse ts).diagnostics = reports (parse ts).trace.reverse := rfl
  rw [hdiag, h.trace, reports_append, reports_eq_nil_of_quiet h.quiet, List.nil_append] at hd
  obtain ⟨e, he, hreport⟩ := List.mem_filterMap.1 hd
  obtain ⟨i, x, hi, hx, hfront⟩ := inFrontOf_of_later Table.standard_orderly h.trace he
  have hlast : x = ts.sentinel := by
    rw [passes_eq_shifts_of_quiet h.quiet, h.taken] at hi
    rw [TokenList.get?, TokenList.toList, List.getElem?_append_right hi] at hx
    exact List.mem_singleton.1 (List.mem_of_getElem? hx)
  cases e with
  | report d' =>
    obtain rfl : d' = d := Option.some.inj hreport
    exact hlast ▸ hfront
  | attempt | shift | drop | insert | mute | abandon => cases hreport

/-- As long as there are tokens left, there is no complaint. -/
theorem quiet_or_ended (h : TakesAllFirst ts es fs) {gs : List Event} {t : State} (hr : Run (.initial ts) gs t)
    (hgs : gs <+: (parse ts).trace.reverse) : Quiet gs ∨ t.cursor.rest = [] := by
  rw [h.trace] at hgs
  rcases List.prefix_or_prefix_of_prefix hgs (List.prefix_append es _) with hpre | ⟨as, rfl⟩
  · exact .inl fun e he => h.quiet e (hpre.subset he)
  · have hrest : ts.body = passes (es ++ as) ++ t.cursor.rest := hr.effect.rest
    rw [passes_append, passes_eq_shifts_of_quiet h.quiet, h.taken, List.append_assoc, List.self_eq_append_right] at hrest
    exact .inr (List.append_eq_nil_iff.1 hrest).2

/-- Nothing is passed after the first report. -/
theorem passes_after_report (h : TakesAllFirst ts es fs) {as bs : List Event} (hab : es ++ fs = as ++ bs) (has : reports as ≠ []) :
    passes bs = [] := by
  have hpre : es <+: as := by
    rcases List.prefix_or_prefix_of_prefix (List.prefix_append as bs) (hab ▸ List.prefix_append es fs) with hpre | hpre
    · exact absurd (reports_eq_nil_of_quiet fun e he => h.quiet e (hpre.subset he)) has
    · exact hpre
  obtain ⟨as, rfl⟩ := hpre
  have hpassed := h.passed
  rw [List.append_assoc] at hab
  rw [List.append_cancel_left hab, passes_append] at hpassed
  exact (List.append_eq_nil_iff.1 hpassed).2

/-- A parse that does not give up only misses the brace that closes the main block. -/
theorem missing_brace (h : TakesAllFirst ts es fs) (hv : (parse ts).verdict = .matched) :
    ∃ d, (parse ts).diagnostics = [d] ∧ d.Voices (.missing .rightBrace) ts.sentinel := by
  obtain ⟨trace, last, t, cs, htrace, hcs, hcases⟩ := standing_parse ts
  have hevents : trace.reverse = es ++ fs := by
    have heq := h.trace
    rw [htrace, List.reverse_cons, ← List.append_assoc] at heq
    exact (List.append_inj' heq rfl).1
  have hvoices := hcs.voices_all fun as bs hab has => h.passes_after_report (hevents.symm.trans hab) has
  rw [← diagnostics_eq_reports htrace] at hvoices
  rcases hcases with ⟨-, e, he, rfl, hkind⟩ | ⟨hv', -⟩
  · have hstands : ∀ e ∈ afterProgram, e.1 = [] ∨
        e.1 = [.missing .rightBrace] ∧ ∀ k ∈ TokenKind.all, k ∈ e.2 → k = .endOfInput := by decide
    rcases hstands e he with hnone | ⟨hmissing, hend⟩
    · rw [hnone] at hvoices
      have hquiet := (diagnostics_eq_nil_iff_quiet ts).1 (List.forall₂_nil_right_iff.1 hvoices)
      rw [h.trace, quiet_append, quiet_append] at hquiet
      exact absurd hquiet.2.1 h.noisy
    · rw [hmissing] at hvoices
      obtain ⟨d, ds, ⟨hmem, hd⟩, hds, hdiag⟩ := List.forall₂_cons_right_iff.1 hvoices
      obtain rfl := List.forall₂_nil_right_iff.1 hds
      rw [TokenList.eq_sentinel hmem (by rw [Token.isEnd, hend _ (TokenKind.mem_all _) hkind]; rfl)] at hd
      exact ⟨d, hdiag, hd⟩
  · rw [hv] at hv'
    cases hv'

end TakesAllFirst

namespace Parser

variable {ν : Type} {s : State}

/-! ## The main block is read only if it is opened -/

/-- A terminal is taken, or nothing is passed and there is a complaint. -/
theorem terminal_takes_or_stays (rule : Rule) {kind : TokenKind} (hk : kind ≠ .endOfInput) (follow : KindSet)
    (put : ν → Terminal → ν) (n : ν) (hs : s.Ready) :
    ∃ es, Reaches s es (terminal rule kind follow put n s) ∧
      (Quiet es ∧ shiftedKinds es = [kind] ∧ (terminal rule kind follow put n s).verdict = .matched ∨
        ¬Quiet es ∧ (terminal rule kind follow put n s).state.cursor = s.cursor) := by
  by_cases hnext : s.nextKind = kind
  · have hs' := hs.attempt (.terminal kind)
    have hne : (s.attempt (.terminal kind)).cursor.rest ≠ [] := hs'.rest_ne_nil (by rw [State.nextKind_attempt, hnext]; exact hk)
    rw [terminal_of_nextKind rule follow put n hnext]
    refine ⟨_, ⟨.head (.attempt _ hs.normal) (.ofMove (.shift hs'.normal hne)), hs'.normal⟩, .inl ⟨by simp, ?_, rfl⟩⟩
    rw [← hnext]
    rfl
  · have hcursor := cursor_terminal_of_ne rule follow put n hnext
    obtain ⟨es, hr, ⟨hkind, -⟩ | ⟨hq, -⟩ | ⟨-, -, hq, -⟩⟩ := terminal_reaches rule hk follow put n hs
    · exact absurd hkind hnext
    · exact ⟨es, hr, .inr ⟨hq, hcursor⟩⟩
    · exact ⟨es, hr, .inr ⟨hq, hcursor⟩⟩

/-- What a phrase does after its first step. -/
theorem run_after_first [Node ν] (rule : Rule) {blank : ν} {step : Step ν} {steps : List (Step ν)} {es : List Event} (hs : s.Ready)
    (h : Reaches (s.attempt (.rule rule)) es (step blank (s.attempt (.rule rule))))
    (hrest : ∀ n (t : State), t.Ready → ∃ fs, Reaches t fs (sequence steps n t)) :
    ∃ fs, Run (step blank (s.attempt (.rule rule))).state fs (phrase rule blank (sequence (step :: steps)) s).state := by
  have hsealed := h.run.sealed (hs.attempt (.rule rule)).toSealed
  have hsteps : ∃ fs, Reaches (step blank (s.attempt (.rule rule))).state fs
      (sequence (step :: steps) blank (s.attempt (.rule rule))) := by
    by_cases hv : (step blank (s.attempt (.rule rule))).verdict = .matched
    · rw [sequence_cons_of_matched steps hv]
      exact hrest _ _ (h.ready (hs.attempt (.rule rule)) hv)
    · rw [sequence_cons_of_ne_matched steps hv]
      exact ⟨[], .refl _, h.fits⟩
  obtain ⟨fs, hr⟩ := hsteps
  obtain ⟨gs, hr', -⟩ := recover_reaches rule hr hsealed
  exact ⟨fs ++ gs, hr'.run⟩

/-- At the end of the input a terminal is an error if it may not be put in there. -/
theorem terminal_of_ended (rule : Rule) {kind : TokenKind} {follow : KindSet} (put : ν → Terminal → ν) (n : ν) (hs : s.Ready)
    (hend : s.cursor.rest = []) (hk : kind ≠ .endOfInput) (hfollow : .endOfInput ∉ follow) :
    ∃ es, Reaches s es (terminal rule kind follow put n s) ∧ (terminal rule kind follow put n s).verdict = .mismatched := by
  have hnext := hs.nextKind_eq_endOfInput_iff.2 hend
  obtain ⟨es, hr, hv, -⟩ := terminal_of_notMem rule put n hs (hnext ▸ hk.symm) (hnext ▸ hfollow)
  exact ⟨es, hr, hv⟩

/-- After an error a phrase is not closed at the end of the input. -/
theorem resynchronize_of_ended [Node ν] (rule : Rule) {policy : ResyncPolicy} (n : ν) (hs : s.Sealed) (hend : s.cursor.rest = [])
    (hterm : policy.terminator ≠ some .endOfInput) (hstop : .endOfInput ∉ policy.stop) :
    (resynchronize rule policy n s).verdict = .outOfInput := by
  have hnext := hs.nextKind_eq_endOfInput_iff.2 hend
  unfold resynchronize State.dropWhile
  rw [hend]
  simp only [State.dropAhead, hnext, if_neg hterm, if_neg hstop]

/-- At the end of the input no block can be read. -/
theorem block_of_ended (hs : s.Ready) (hend : s.cursor.rest = []) : (block .standard s).verdict = .outOfInput := by
  obtain ⟨es, hr, hv⟩ := terminal_of_ended .block (fun (n : Block) t => { n with left := t }) {} (hs.attempt (.rule .block)) hend
    (show TokenKind.leftBrace ≠ .endOfInput by decide) (show _ ∉ Rule.statement.first.insert .rightBrace by decide)
  have hsealed := hr.run.sealed (hs.attempt (.rule .block)).toSealed
  unfold block phrase
  rw [sequence_cons_of_ne_matched _ (by rw [hv]; exact nofun), recover_of_mismatched hv rfl]
  exact resynchronize_of_ended _ _ hsealed (hr.run.rest_eq_nil hend) (by decide) (by decide)

/-- At the end of the input no main block can be read. -/
theorem mainBlock_of_ended (hs : s.Ready) (hend : s.cursor.rest = []) : (mainBlock .standard s).verdict = .mismatched := by
  obtain ⟨es, hr, hv⟩ := terminal_of_ended .main (fun (n : MainBlock) t => { n with keyword := t }) {} (hs.attempt (.rule .main))
    hend (show TokenKind.main ≠ .endOfInput by decide) (show _ ∉ Rule.block.first by decide)
  unfold mainBlock phrase
  rw [recover_of_no_policy rfl, sequence_cons_of_ne_matched _ (by rw [hv]; exact nofun)]
  exact hv

/-- A block starts with its brace, or with a complaint in front of a token that it does not pass. -/
theorem block_opens (hs : s.Ready) :
    ∃ es fs t, Run s es t ∧ Run t fs (block .standard s).state ∧
      (Quiet es ∧ shiftedKinds es = [.leftBrace] ∨ ¬Quiet es ∧ t.cursor = s.cursor) := by
  obtain ⟨es, hr, hcases⟩ := terminal_takes_or_stays .block (show TokenKind.leftBrace ≠ .endOfInput by decide)
    (Rule.statement.first.insert .rightBrace) (fun (n : Block) t => { n with left := t }) {} (hs.attempt (.rule .block))
  obtain ⟨fs, hr'⟩ := run_after_first .block hs hr fun n t ht =>
    (Follows.cons (.child (.many follows_statement statement_passesAt Table.standard_orderly.moreStatements) _)
      (.last (.terminal .block (show TokenKind.rightBrace ≠ _ by decide) _ _)) n t ht).imp fun _ h => h.1
  refine ⟨_, fs, _, .head (.attempt (.rule .block) hs.normal) hr.run, hr', ?_⟩
  rcases hcases with ⟨hq, hkinds, -⟩ | ⟨hq, hcursor⟩
  · exact .inl ⟨by simpa using hq, hkinds⟩
  · exact .inr ⟨by simpa using hq, hcursor⟩

/-- A main block that is read starts with its keyword and its brace, or with a complaint in front of a token of the input. -/
theorem mainBlock_opens (hs : s.Ready) (hv : (mainBlock .standard s).verdict = .matched) :
    ∃ es fs t, Run s es t ∧ Run t fs (mainBlock .standard s).state ∧
      (Quiet es ∧ shiftedKinds es = [.main, .leftBrace] ∨ ¬Quiet es ∧ t.cursor.rest ≠ []) := by
  have hrest : s.cursor.rest ≠ [] := fun hend => by
    rw [mainBlock_of_ended hs hend] at hv
    cases hv
  have hs' := hs.attempt (.rule .main)
  have ha : Run s [.attempt (.rule .main) .normal] (s.attempt (.rule .main)) := .ofMove (.attempt _ hs.normal)
  obtain ⟨es, hr, hcases⟩ := terminal_takes_or_stays .main (show TokenKind.main ≠ .endOfInput by decide) Rule.block.first
    (fun (n : MainBlock) t => { n with keyword := t }) {} hs'
  rcases hcases with ⟨hq, hkinds, hmatched⟩ | ⟨hq, hcursor⟩
  · -- The keyword was read, so the block after it was.
    have hready := hr.ready hs' hmatched
    unfold mainBlock phrase at hv ⊢
    rw [recover_of_no_policy rfl, sequence_cons_of_matched _ hmatched, sequence_singleton] at hv ⊢
    unfold child at hv ⊢
    dsimp only at hv ⊢
    obtain ⟨es', fs, t, hr', hrest', hcases⟩ := block_opens hready
    refine ⟨_, fs, t, ha.trans (hr.run.trans hr'), hrest', ?_⟩
    rcases hcases with ⟨hq', hkinds'⟩ | ⟨hq', hcursor⟩
    · refine .inl ⟨by simp [hq, hq'], ?_⟩
      rw [shiftedKinds_append, shiftedKinds_append, hkinds, hkinds']
      rfl
    · refine .inr ⟨by simp [hq'], fun hend => ?_⟩
      rw [hcursor] at hend
      rw [block_of_ended hready hend] at hv
      cases hv
  · obtain ⟨fs, hr'⟩ := run_after_first .main hs hr fun n t ht =>
      (Follows.last (.child follows_block _) n t ht).imp fun _ h => h.1
    exact ⟨_, fs, _, ha.trans hr.run, hr', .inr ⟨by simpa using hq, by rw [hcursor]; exact hrest⟩⟩

/-- The first of some steps has matched if all have. -/
theorem sequence_cons_matched {step : Step ν} {steps : List (Step ν)} {n : ν}
    (h : (sequence (step :: steps) n s).verdict = .matched) : (step n s).verdict = .matched := by
  by_contra hne
  rw [sequence_cons_of_ne_matched steps hne] at h
  exact hne h

theorem mainStep_of_matched {n : Program} (h : (mainStep .standard n s).verdict = .matched) :
    (mainBlock .standard s).verdict = .matched ∧ (mainStep .standard n s).state = (mainBlock .standard s).state := by
  unfold mainStep child at h ⊢
  dsimp only at h ⊢
  split at h
  · cases h
  · exact ⟨h, rfl⟩

/-- A parse that does not give up has read the main block, after everything that comes before it. -/
theorem exists_mainBlock_of_matched (hs : s.Ready) (hv : (sequence (programSteps .standard) {} s).verdict = .matched) :
    ∃ es fs t, Run s es t ∧ t.Ready ∧ (mainBlock .standard t).verdict = .matched ∧
      Run (mainBlock .standard t).state fs (sequence (programSteps .standard) {} s).state := by
  unfold programSteps at hv ⊢
  obtain ⟨es, hr, -⟩ := follows_header {} s hs
  have hheader := sequence_cons_matched hv
  have hs₁ := hr.ready hs hheader
  rw [sequence_cons_of_matched _ hheader] at hv ⊢
  obtain ⟨es₁, hr₁, -⟩ := follows_globalVars _ hs₁
  have hglobals := sequence_cons_matched hv
  have hs₂ := hr₁.ready hs₁ hglobals
  rw [sequence_cons_of_matched _ hglobals] at hv ⊢
  obtain ⟨es₂, hr₂, -⟩ := follows_functions _ hs₂
  have hfunctions := sequence_cons_matched hv
  have hs₃ := hr₂.ready hs₂ hfunctions
  rw [sequence_cons_of_matched _ hfunctions] at hv ⊢
  have hmain := sequence_cons_matched hv
  rw [sequence_cons_of_matched _ hmain, sequence_singleton]
  obtain ⟨hblock, hstate⟩ := mainStep_of_matched hmain
  obtain ⟨fs, hr₃⟩ := follows_mainBlock _ hs₃
  rw [hstate]
  obtain ⟨gs, hr₄, -⟩ := nothingLeft_reaches _ (hr₃.1.ready hs₃ hblock)
  exact ⟨_, gs, _, hr.run.trans (hr₁.run.trans hr₂.run), hs₃, hblock, hr₄.run⟩

end Parser

/-- In a parse that does not give up the main block was opened. -/
theorem TakesAllFirst.opened {ts : TokenList} {es fs : List Event} (h : TakesAllFirst ts es fs)
    (hv : (parse ts).verdict = .matched) : ∃ u v, ts.body.map Token.kind = u ++ .main :: .leftBrace :: v := by
  have hs := (State.ready_initial ts).attempt (.rule .start)
  have ha : Run (.initial ts) [.attempt (.rule .start) .normal] ((State.initial ts).attempt (.rule .start)) :=
    .ofMove (.attempt _ rfl)
  have hverdict : (parse ts).verdict = (program .standard (.initial ts)).verdict := rfl
  rw [hverdict, (program_eq .standard (.initial ts)).2.1] at hv
  obtain ⟨gs, ks, t, hr, ht, hmain, hrest⟩ := exists_mainBlock_of_matched hs hv
  obtain ⟨as, bs, u, hr₁, hr₂, hcases⟩ := mainBlock_opens ht hmain
  obtain ⟨htrace, -⟩ := parseWith_of_run Table.standard_orderly (hr.trans (hr₁.trans (hr₂.trans hrest)))
  have hrun := ha.trans (hr.trans hr₁)
  rcases hcases with ⟨hq, hkinds⟩ | ⟨hq, hne⟩
  · have hbody : ts.body = passes ([.attempt (.rule .start) .normal] ++ (gs ++ as)) ++ u.cursor.rest := hrun.effect.rest
    rw [passes_append, passes_append, passes_eq_shifts_of_quiet hq] at hbody
    refine ⟨(passes gs).map Token.kind, u.cursor.rest.map Token.kind, ?_⟩
    rw [shiftedKinds] at hkinds
    simp [hbody, hkinds]
  · -- There would be a complaint before all tokens are taken.
    have hbegins : [.attempt (.rule .start) .normal] ++ (gs ++ as) <+: (parse ts).trace.reverse := by
      rw [parse, htrace]
      exact ⟨bs ++ ks ++ [.shift ts.sentinel], by simp⟩
    rcases h.quiet_or_ended hrun hbegins with hquiet | hend
    · exact absurd ((quiet_append _ _).1 ((quiet_append _ _).1 hquiet).2).2 hq
    · exact absurd hend hne

/-! ## A main block that is opened is closed -/

namespace Parser

variable {ν : Type} {ok : Token → Prop} {x : Token}

/-- A terminal is put in before a token that may follow it. -/
theorem handles_inserted {rule : Rule} {kind : TokenKind} {follow : KindSet} {put : ν → Terminal → ν} {n : ν} {xs : List Token}
    (hkind : x.kind ≠ kind) (hfollow : x.kind ∈ follow) (hok : ok x) :
    Handles ok (fun _ => True) [] (x :: xs) (terminal rule kind follow put n) := by
  intro s hs ha
  have hlook : s.lookahead = x := State.lookahead_of_ahead ha
  have hnext : s.nextKind = x.kind := by rw [State.nextKind, hlook]
  have hs' := hs.attempt (.terminal kind)
  rw [terminal_eq, State.nextKind_attempt, hnext, if_neg hkind, if_pos hfollow]
  have hrun := Run.head (.attempt (.terminal kind) hs.normal) (.ofMove (.insert kind rule hs'.normal))
  refine ⟨rfl, trivial, ⟨hrun.sealed hs.toSealed, hs'.normal⟩, _, hrun, rfl, fun d hd => ?_⟩
  obtain rfl : d = missingTerminal kind rule x := by simpa [hlook] using hd
  exact ⟨rfl, x, hok, rfl, rfl⟩

/-- A block that has all but the brace that closes it is handled at the end of the input. -/
theorem handles_unclosed_block {n : Block} (hn : n.Complete) (hx : x.kind = .endOfInput) (hok : ok x) :
    Handles ok (fun _ => True) (n.left.toToken :: takenTokens (n.statements.flatMap fun t => t.element.leaves)) [x]
      (block .standard) := by
  have hstatements : Handles ok (fun ns => ns.map Statement.bare = n.statements.map Statement.bare)
      (takenTokens (n.statements.flatMap fun t => t.element.leaves)) [x] (many .standard .moreStatements statement) :=
    .ofRebuilds (.many rebuilds_statement (fun _ => startsWith_semicolon) rfl) hn.statements rfl (by rw [hx]; rfl)
  refine .phrase ?_ fun _ _ h => h
  change Handles ok _ ([n.left.toToken] ++ takenTokens _) _ _
  refine .cons (.terminal _ (by decide) _ _ hn.left.2) fun m _ => ?_
  rw [← List.append_nil (takenTokens _)]
  refine .cons (.child (P := fun _ => True) hstatements fun _ _ => trivial) fun _ _ => .last (handles_inserted ?_ ?_ hok)
  · rw [hx]
    decide
  · rw [hx]
    decide

end Parser

/-- If nothing but the brace that closes its main block is missing from a program, the parse does not give up. -/
theorem not_fatal_of_unclosed {ts : TokenList} (h : IsProgram (ts.body.map Token.kind ++ [.rightBrace, .endOfInput])) :
    ∀ d ∈ (parse ts).diagnostics, d.isFatal = false := by
  have hkinds : (ts.body ++ [Token.placeholder .rightBrace, ts.sentinel]).map Token.kind =
      ts.body.map Token.kind ++ [.rightBrace, .endOfInput] := by
    rw [List.map_append, List.map_cons, List.map_singleton, ts.kind_sentinel]
    rfl
  rw [← hkinds] at h
  obtain ⟨n, hn, htokens⟩ := (realized_program _).1 h
  have hleaves : takenTokens n.element.leaves =
      takenTokens n.heading ++ (takenTokens (n.globals.element .globalVars).leaves ++ (takenTokens n.functions.element.leaves ++
        (n.main.keyword.toToken :: n.main.block.left.toToken ::
          takenTokens (n.main.block.statements.flatMap fun t => t.element.leaves)))) ++
        [n.main.block.right.toToken, n.eof.toToken] := by
    rw [Program.leaves_element, MainBlock.leaves_element, Block.leaves_element]
    simp [Program.heading, hn.keyword.token?, hn.name.token?, hn.colon.token?, hn.main.keyword.token?, hn.main.block.left.token?,
      hn.main.block.right.token?, hn.eof.token?]
  have hbody := (List.append_inj' (hleaves.symm.trans htokens) rfl).1
  have hblock : Handles (fun t => t = ts.sentinel) (fun _ => True) (n.main.block.left.toToken ::
      takenTokens (n.main.block.statements.flatMap fun t => t.element.leaves)) [ts.sentinel] (block .standard) :=
    handles_unclosed_block hn.main.block ts.kind_sentinel rfl
  have hmainNext : StartsWith .main (n.main.keyword.toToken :: n.main.block.left.toToken ::
      takenTokens (n.main.block.statements.flatMap fun t => t.element.leaves) ++ [ts.sentinel]) := ⟨_, _, rfl, hn.main.keyword.2⟩
  have hhandles := handles_programSteps ts.kind_sentinel (handlesLeaving_header hn (by simp))
    (handles_globals hn (first_of_functions hn hmainNext)) (handles_functions hn hmainNext) (handles_mainBlock hn.main hblock)
  rw [hbody] at hhandles
  exact fun d hd => ((parse_of_handles hhandles).1 d hd).1

/-! ## Programs that are cut off -/

/-- If a program is cut off before its end, nothing is skipped and everything is reported at the end of the input. The parse gives
up, with its last report, exactly if the brace that opens the main block is cut off, too; otherwise there is one report, that the
brace that closes it is missing. -/
theorem truncated_program {ts : TokenList} (hw : IsProgram (w ++ [.endOfInput])) (hp : p <+: w) (hne : p ≠ w)
    (hts : ts.kinds = p ++ [.endOfInput]) :
    (parse ts).skipped = [] ∧ (∀ d ∈ (parse ts).diagnostics, d.StandsAt ts.sentinel) ∧
      ∃ before inner, OpensMain before inner w ∧
        ((parse ts).isFatal = true ↔ ¬before ++ [.main, .leftBrace] <+: p) ∧
        ((parse ts).isFatal = true → ∃ front d, (parse ts).diagnostics = front ++ [d] ∧ d.code = .endOfInput) ∧
        (before ++ [.main, .leftBrace] <+: p →
          ∃ d, (parse ts).diagnostics = [d] ∧ d.Voices (.missing .rightBrace) ts.sentinel) := by
  obtain ⟨before, inner, hopens⟩ := hw.exists_opensMain
  have hbody : ts.body.map Token.kind = p := by
    rw [TokenList.kinds, TokenList.toList, List.map_append] at hts
    exact (List.append_inj' hts rfl).1
  have hpre : IsProgramPrefix (ts.body.map Token.kind) := ⟨_, hw, by rw [hbody]; exact hp.trans (List.prefix_append _ _)⟩
  obtain ⟨es, fs, hfirst⟩ := exists_takesAllFirst hpre (by rw [hts]; exact hopens.not_isProgram_of_prefix hp hne)
  refine ⟨hfirst.skipped, hfirst.standsAt, before, inner, hopens, ?_⟩
  have hfatal : (parse ts).isFatal = true ↔ ∃ d ∈ (parse ts).diagnostics, d.isFatal = true := List.any_eq_true
  rcases fatal_parse ts with ⟨hv, hcalm⟩ | ⟨-, front, d, hdiag, -, hd⟩
  · have hnot : ¬(parse ts).isFatal = true := by
      rw [hfatal]
      rintro ⟨d, hd, hfatal⟩
      rw [hcalm d hd] at hfatal
      cases hfatal
    obtain ⟨u, v, huv⟩ := hfirst.opened hv
    have hopened := hopens.opened_of_eq hp (hbody.symm.trans huv)
    exact ⟨⟨fun h => absurd h hnot, fun h => absurd hopened h⟩, fun h => absurd h hnot, fun _ => hfirst.missing_brace hv⟩
  · have hmem : d ∈ (parse ts).diagnostics := by simp [hdiag]
    have hended : d.isFatal = true := hd.isFatal_iff.2 rfl
    have hcut : ¬before ++ [.main, .leftBrace] <+: p := by
      intro hopened
      have hclosed := hopens.isProgram_of_opened hp hne hopened
      rw [← hbody] at hclosed
      rw [not_fatal_of_unclosed hclosed d hmem] at hended
      cases hended
    exact ⟨⟨fun _ => hcut, fun _ => hfatal.2 ⟨d, hmem, hended⟩⟩, fun _ => ⟨front, d, hdiag, hd.code⟩, fun h => absurd h hcut⟩

/-- A program that is cut off in the body of its function, and one that is cut off after the statement of its main block. -/
theorem truncated_program_twice :
    let w : List TokenKind := [.program, .identifier, .colon, .function, .identifier, .leftParen, .rightParen, .leftBrace,
      .rightBrace, .main, .leftBrace, .semicolon, .rightBrace]
    IsProgram (w ++ [.endOfInput]) ∧ (parse (.ofKinds (w.take 8))).isFatal = true ∧
      ∃ d, (parse (.ofKinds (w.take 12))).diagnostics = [d] ∧ d.code = .missingToken := by
  intro w
  have hprogram : IsProgram (w ++ [.endOfInput]) := by
    have hclean : (parse (.ofKinds w)).isClean = true := by decide +kernel
    exact isProgram_of_quiet ((isClean_iff_quiet _).1 hclean)
  have hkinds : (TokenList.ofKinds (w.take 8)).kinds = w.take 8 ++ [.endOfInput] := by decide +kernel
  have hkinds' : (TokenList.ofKinds (w.take 12)).kinds = w.take 12 ++ [.endOfInput] := by decide +kernel
  refine ⟨hprogram, ?_, ?_⟩
  · obtain ⟨-, -, before, inner, -, hfatal, -⟩ := truncated_program hprogram (List.take_prefix 8 w) (by decide) hkinds
    rw [hfatal]
    intro hopened
    have hmain : TokenKind.main ∈ w.take 8 := hopened.subset (by simp)
    revert hmain
    decide
  · obtain ⟨-, -, before, inner, hopens, -, -, hmissing⟩ :=
      truncated_program hprogram (List.take_prefix 12 w) (by decide) hkinds'
    have hopened : w.take 12 = w.take 9 ++ .main :: .leftBrace :: [.semicolon] := rfl
    obtain ⟨d, hdiag, hd⟩ := hmissing (hopens.opened_of_eq (List.take_prefix 12 w) hopened)
    exact ⟨d, hdiag, hd.code⟩

end QuillFrontEnd
