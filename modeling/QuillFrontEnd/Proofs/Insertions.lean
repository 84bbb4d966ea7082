import QuillFrontEnd.Proofs.Confinement
import QuillFrontEnd.Proofs.Locality
import QuillFrontEnd.Proofs.Places
import QuillFrontEnd.Proofs.Region
import QuillFrontEnd.Proofs.Repair

/-!
# Terminals that are put in

A terminal that is missing in a tree was put in or was never reached, and only the former is reported. What a parse writes into its
tree, the tokens that it takes and the terminals that it puts in, stands in the tree in the order in which it was written: a place
is written once, and after an error a phrase is closed in a place that nothing was written to. Where the parse never loses track
there are no other places, so the tree is what was written and the terminals that are missing are those that were reported.
-/

namespace QuillFrontEnd

namespace Parser

/-! ## What a list of events writes -/

/-- The terminal that a step writes into the tree: a token that it takes, or a terminal that it puts in. -/
@[simp]
def Event.written? : Event → Option Terminal
  | shift t => some (.ofToken t)
  | insert kind t => some (.inserted kind t)
  | _ => none

/-- The terminals that are written into the tree, in order. -/
def writes (es : List Event) : List Terminal := es.filterMap Event.written?

section

variable (e : Event) (es fs : List Event)

@[simp] theorem writes_nil : writes [] = [] := rfl
@[simp] theorem writes_append : writes (es ++ fs) = writes es ++ writes fs := List.filterMap_append
@[simp] theorem writes_cons : writes (e :: es) = e.written?.toList ++ writes es := by cases e <;> rfl

end

variable {ν μ : Type} {s t : State} {es fs : List Event} {ts us : List Terminal}

/-- None of the events reports that a terminal was put in. -/
def Plain (es : List Event) : Prop := ∀ d ∈ reports es, d.code ≠ .missingToken

@[simp] theorem plain_append : Plain (es ++ fs) ↔ Plain es ∧ Plain fs := by
  simp only [Plain, reports_append, List.mem_append, or_imp, forall_and]

theorem plain_of_reports_eq_nil (h : reports es = []) : Plain es := by simp [Plain, h]

/-- A terminal is not put in without a report, so a run without such a report writes tokens only. -/
theorem Run.writes_of_plain (h : Run s es t) (hplain : Plain es) : writes es = (shifts es).map .ofToken := by
  induction h with
  | refl => rfl
  | head m _ ih =>
    rw [plain_append] at hplain
    rw [writes_append, shifts_append, List.map_append, ih hplain.2]
    cases m with
    | insert kind rule => exact absurd rfl (hplain.1 _ (List.mem_singleton_self _))
    | attempt | shift | close | drop | mismatch | resume | abandon => rfl

/-- The events of a run can be read off the trace that it leaves. -/
theorem Run.events_of_trace (h : Run s es t) (ht : t.trace = fs.reverse ++ s.trace) : es = fs :=
  List.reverse_inj.1 (List.append_cancel_right (h.effect.trace.symm.trans ht))

/-! Nothing is put in where tokens are dropped. -/

theorem plain_of_run_dropWhile {test : TokenKind → Bool} (hm : s.mode = .recovering) (h : Run s es (s.dropWhile test)) :
    Plain es := by
  obtain ⟨fs, hr, -, hreports⟩ := run_dropWhile_passes test hm
  rw [h.events_eq hr]
  exact plain_of_reports_eq_nil hreports

/-- The trace of a parse that gives up after some events. -/
theorem abandon_trace (rule : Rule) (h : t.trace = es.reverse ++ s.trace) :
    (t.abandon rule).trace =
      (es ++ [Event.abandon rule t.lookahead, .report (State.prematureEnd rule t.lookahead)]).reverse ++ s.trace := by
  simp only [State.abandon, State.report, State.log, List.reverse_append, List.reverse_cons, List.reverse_nil, List.nil_append,
    List.cons_append, h]

theorem plain_abandon (rule : Rule) (x : Token) : Plain [.abandon rule x, .report (State.prematureEnd rule x)] := by
  intro d hd
  obtain rfl : d = State.prematureEnd rule x := by simpa using hd
  exact nofun

theorem plain_of_run_resynchronize [Node ν] {rule : Rule} {policy : ResyncPolicy} {n : ν} (hm : s.mode = .recovering)
    (h : Run s es (resynchronize rule policy n s).state) : Plain es := by
  obtain ⟨fs, hr, -⟩ := run_dropWhile (fun k => !(policy.terminator == some k) && !policy.stop.contains k) hm
  have hplain := plain_of_run_dropWhile hm hr
  have htrace := hr.effect.trace
  unfold resynchronize at h
  generalize s.dropWhile (fun k => !(policy.terminator == some k) && !policy.stop.contains k) = u at h htrace
  dsimp only at h
  split at h
  · have hes : es = fs ++ [.shift u.lookahead] :=
      h.events_of_trace (by simp [State.resume, State.shift, State.pass_eq, htrace])
    rw [hes, plain_append]
    exact ⟨hplain, plain_of_reports_eq_nil rfl⟩
  · split at h
    · rwa [h.events_of_trace htrace]
    · rw [h.events_of_trace (abandon_trace rule htrace), plain_append]
      exact ⟨hplain, plain_abandon rule _⟩

theorem plain_of_run_restart {n : Program} (hm : s.mode = .recovering) (h : Run s es (restart n s).state) : Plain es := by
  obtain ⟨fs, hr, -⟩ := run_dropWhile (fun k => !headerRestarts.contains k) hm
  have hplain := plain_of_run_dropWhile hm hr
  have htrace := hr.effect.trace
  unfold restart at h
  generalize s.dropWhile (fun k => !headerRestarts.contains k) = u at h htrace
  dsimp only at h
  split at h
  · rwa [h.events_of_trace htrace]
  · rw [h.events_of_trace (abandon_trace .start htrace), plain_append]
    exact ⟨hplain, plain_abandon .start _⟩

/-- What is reported of a token that is dropped is not that something is missing. -/
theorem run_mismatch_dropWhile {d : Diagnostic} {test : TokenKind → Bool} (hs : s.Ready) (hd : d.Blames s.lookahead) :
    ∃ es, Run s es ((s.mismatch d).dropWhile test) ∧ Plain es := by
  obtain ⟨es, hr, -⟩ := run_dropWhile test (s.mode_mismatch d)
  refine ⟨_, .head (.mismatch d hs.normal hd) hr, plain_append.2 ⟨?_, plain_of_run_dropWhile (s.mode_mismatch d) hr⟩⟩
  have hcode := hd.code
  intro d' hd'
  obtain rfl : d' = d := by simpa using hd'
  intro hmissing
  rw [hmissing] at hcode
  revert hcode
  decide

theorem plain_of_run_choose {table : Table} {d : Decision} (hs : s.Ready) (h : Run s es (choose table d s).2) : Plain es := by
  have hs' := hs.attempt (.decision d)
  have hdropped : ∃ fs, Run (s.attempt (.decision d)) fs (dropRefused table d (s.attempt (.decision d))) ∧ Plain fs := by
    unfold dropRefused
    split
    · exact run_mismatch_dropWhile hs' (Diagnostic.blames_of_code (by decide) _ _ _ _)
    · exact ⟨[], .refl _, plain_of_reports_eq_nil rfl⟩
  obtain ⟨fs, hr, hplain⟩ := hdropped
  have hr' : Run s (.attempt (.decision d) .normal :: fs) _ := .head (.attempt _ hs.normal) hr
  have hplain' : Plain (.attempt (.decision d) .normal :: fs) := hplain
  have htrace := hr'.effect.trace
  rw [choose_eq] at h
  split at h
  · rw [h.events_of_trace (abandon_trace d.rule htrace), plain_append]
    exact ⟨hplain', plain_abandon d.rule _⟩
  · rwa [h.events_of_trace htrace]

theorem plain_of_run_nothingLeft {n : Program} (hs : s.Ready) (h : Run s es (nothingLeft n s).state) : Plain es := by
  unfold nothingLeft at h
  split at h
  · rw [h.events_eq (.refl s)]
    exact plain_of_reports_eq_nil rfl
  · have hblames : (trailingInput s.lookahead).Blames s.lookahead := Diagnostic.blames_of_code (by decide) _ _ _ _
    obtain ⟨fs, hr, hplain⟩ : ∃ fs, Run s fs ((s.mismatch (trailingInput s.lookahead)).dropWhile fun _ => true) ∧ Plain fs :=
      run_mismatch_dropWhile hs hblames
    rwa [h.events_of_trace hr.effect.trace]

/-! ## Readers and steps that write -/

/-- Events that fill in the places of some terminals: what they write stands in these places in order, and there are no other places
unless the parse has lost track. -/
structure Filled (es : List Event) (ts : List Terminal) : Prop where
  sublist : (writes es).Sublist ts
  eq_of_mended : Mended es → writes es = ts

theorem Filled.append (h : Filled es ts) (h' : Filled fs us) : Filled (es ++ fs) (ts ++ us) := by
  refine ⟨?_, fun hm => ?_⟩
  · rw [writes_append]
    exact h.sublist.append h'.sublist
  · rw [mended_append] at hm
    rw [writes_append, h.eq_of_mended hm.1, h'.eq_of_mended hm.2]

theorem Filled.of_writes_eq (h : writes es = ts) : Filled es ts := ⟨h ▸ .refl _, fun _ => h⟩

/-- After the parse has lost track, there may be more places. -/
theorem Filled.of_not_mended (h : (writes es).Sublist ts) (hm : ¬Mended es) : Filled es ts := ⟨h, fun hm' => absurd hm' hm⟩

/-- A reader that fills in the terminals of its node, and reports that the parse has lost track unless it succeeds. -/
def Writes (leaves : ν → List Terminal) (reader : Reader ν) : Prop :=
  ∀ s : State, s.Ready → ∃ es, Reaches s es (reader s) ∧ Filled es (leaves (reader s).node) ∧
    (Mended es → (reader s).verdict = .matched)

/-- How far a node has been filled in: the terminals in the places up to there, and what is known of the places after them. -/
structure Stage (ν : Type) where
  written : ν → List Terminal
  ahead : ν → Prop := fun _ => True

/-- An outcome in which the places of a node after the terminals `pre` were filled in up to a stage. Where that failed it was
reported that the parse has lost track, and what was filled in stands before everything else among `inner`. -/
def Writing (inner : ν → List Terminal) (pre : List Terminal) (stop : Stage ν) (s : State) (o : Outcome ν) : Prop :=
  ∃ es ts, Reaches s es o ∧ Filled es ts ∧
    (o.verdict = .matched → stop.ahead o.node ∧ stop.written o.node = pre ++ ts) ∧
    (o.verdict ≠ .matched → ¬Mended es ∧ pre ++ ts <+: inner o.node)

/-- A step that fills in the places of a node from one stage up to another. -/
def WritesPart (inner : ν → List Terminal) (start stop : Stage ν) (step : Step ν) : Prop :=
  ∀ (n : ν) (s : State), start.ahead n → s.Ready → Writing inner (start.written n) stop s (step n s)

variable {table : Table} {d : Decision} {leaves inner : ν → List Terminal} {pre : List Terminal} {start mid stop : Stage ν}

theorem Writing.nothing {o : Outcome ν} (hr : Reaches s es o) (hes : writes es = []) (hv : o.verdict = .matched)
    (h : stop.ahead o.node ∧ stop.written o.node = pre) : Writing inner pre stop s o :=
  ⟨es, [], hr, .of_writes_eq hes, fun _ => by rwa [List.append_nil], fun hne => absurd hv hne⟩

theorem Writing.mismatch {n : ν} (hs : s.Ready) {d : Diagnostic} (hd : d.Blames s.lookahead) (hcode : d.code ∈ Diagnostic.lostCodes)
    (hleft : pre <+: inner n) : Writing inner pre stop s ⟨n, .mismatched, s.mismatch d⟩ := by
  refine ⟨_, [], .mismatch n hs hd, .of_writes_eq rfl, nofun, fun _ => ⟨not_mended_of_mem List.mem_cons_self rfl hcode, ?_⟩⟩
  rwa [List.append_nil]

/-- What is filled in after a run that writes nothing. -/
theorem Writing.after {o : Outcome ν} (hr : Run s es t) (hes : writes es = []) (h : Writing inner pre stop t o) :
    Writing inner pre stop s o := by
  obtain ⟨fs, ts, hr', hfilled, hmatched, hfailed⟩ := h
  refine ⟨es ++ fs, ts, .trans hr hr', (Filled.of_writes_eq hes).append hfilled, hmatched, fun hv => ?_⟩
  exact ⟨fun hm => (hfailed hv).1 (mended_append.1 hm).2, (hfailed hv).2⟩

theorem Writing.cons {step : Step ν} {steps : List (Step ν)} {n : ν} (hs : s.Ready) (h : Writing inner pre mid s (step n s))
    (h' : (step n s).verdict = .matched → (step n s).state.Ready → mid.ahead (step n s).node →
      Writing inner (mid.written (step n s).node) stop (step n s).state (sequence steps (step n s).node (step n s).state)) :
    Writing inner pre stop s (sequence (step :: steps) n s) := by
  obtain ⟨es, ts, hr, hfilled, hmatched, hfailed⟩ := h
  by_cases hv : (step n s).verdict = .matched
  · obtain ⟨hmid, hwritten⟩ := hmatched hv
    obtain ⟨fs, us, hr', hfilled', hmatched', hfailed'⟩ := h' hv (hr.ready hs hv) hmid
    rw [sequence_cons_of_matched steps hv]
    rw [hwritten, List.append_assoc] at hmatched' hfailed'
    refine ⟨es ++ fs, ts ++ us, .trans hr.run hr', hfilled.append hfilled', hmatched', fun hne => ?_⟩
    obtain ⟨hm, hprefix⟩ := hfailed' hne
    exact ⟨fun h => hm (mended_append.1 h).2, hprefix⟩
  · rw [sequence_cons_of_ne_matched steps hv]
    exact ⟨es, ts, hr, hfilled, fun h => absurd h hv, hfailed⟩

theorem WritesPart.nil (h : ∀ n, start.ahead n → stop.ahead n ∧ stop.written n = start.written n) :
    WritesPart inner start stop (sequence []) :=
  fun n s hn hs => .nothing ⟨.refl s, hs.normal⟩ rfl rfl (h n hn)

theorem WritesPart.cons {step : Step ν} {steps : List (Step ν)} (mid : Stage ν) (h : WritesPart inner start mid step)
    (h' : WritesPart inner mid stop (sequence steps)) : WritesPart inner start stop (sequence (step :: steps)) :=
  fun n s hn hs => .cons hs (h n s hn hs) fun _ hready hmid => h' _ _ hmid hready

theorem WritesPart.last {step : Step ν} (h : WritesPart inner start stop step) :
    WritesPart inner start stop (sequence [step]) := by
  intro n
  rw [sequence_singleton]
  exact h n

theorem WritesPart.terminal (rule : Rule) {kind : TokenKind} (hk : kind ≠ .endOfInput) (follow : KindSet)
    {put : ν → Terminal → ν} (hleft : ∀ n, start.written n <+: inner n)
    (hput : ∀ n t, start.ahead n → stop.ahead (put n t) ∧ stop.written (put n t) = start.written n ++ [t]) :
    WritesPart inner start stop (terminal rule kind follow put) := by
  intro n s hn hs
  have ha : Run s [.attempt (.terminal kind) .normal] (s.attempt (.terminal kind)) := .ofMove (.attempt _ hs.normal)
  have hs' := hs.attempt (.terminal kind)
  rw [terminal_eq, State.nextKind_attempt]
  by_cases hnext : s.nextKind = kind
  · have hne : (s.attempt (.terminal kind)).cursor.rest ≠ [] := hs'.rest_ne_nil (by rw [State.nextKind_attempt, hnext]; exact hk)
    rw [if_pos hnext]
    exact ⟨_, [.ofToken s.lookahead], ⟨ha.trans (.ofMove (.shift hs'.normal hne)), hs'.normal⟩, .of_writes_eq rfl,
      fun _ => hput n _ hn, fun hv => absurd rfl hv⟩
  · rw [if_neg hnext]
    by_cases hfollow : s.nextKind ∈ follow
    · rw [if_pos hfollow]
      exact ⟨_, [.inserted kind s.lookahead], ⟨ha.trans (.ofMove (.insert kind rule hs'.normal)), hs'.normal⟩,
        .of_writes_eq rfl, fun _ => hput n _ hn, fun hv => absurd rfl hv⟩
    · rw [if_neg hfollow]
      exact .after ha rfl (.mismatch hs' (Diagnostic.blames_of_code (by decide) _ _ _ _)
        (show Code.unexpectedToken ∈ _ by decide) (hleft n))

theorem WritesPart.child {reader : Reader μ} {leavesOfPart : μ → List Terminal} (h : Writes leavesOfPart reader)
    {put : ν → μ → ν} (hstop : ∀ n, stop.written n <+: inner n)
    (hput : ∀ n x, start.ahead n → stop.ahead (put n x) ∧ stop.written (put n x) = start.written n ++ leavesOfPart x) :
    WritesPart inner start stop (child reader put) := by
  intro n s hn hs
  obtain ⟨es, hr, hfilled, hmatched⟩ := h s hs
  obtain ⟨hahead, hwritten⟩ := hput n (reader s).node hn
  refine ⟨es, _, ⟨hr.run, hr.fits⟩, hfilled, fun _ => ⟨hahead, hwritten⟩, fun hv => ⟨fun hm => hv (hmatched hm), ?_⟩⟩
  rw [← hwritten]
  exact hstop _

/-- A decision writes nothing. -/
theorem writes_of_run_choose (hs : s.Ready) (h : Run s es (choose table d s).2) : writes es = [] := by
  obtain ⟨fs, hr, hshifts, -⟩ := run_choose table d hs
  obtain rfl := h.events_eq hr
  rw [h.writes_of_plain (plain_of_run_choose hs h), hshifts]
  rfl

theorem WritesPart.optional {step : Step ν} (hend : table.action d .endOfInput ≠ .reject) (h : WritesPart inner start stop step)
    (hskip : ∀ n, start.ahead n → stop.ahead n ∧ stop.written n = start.written n) :
    WritesPart inner start stop (optional table d step) := by
  intro n s hn hs
  obtain ⟨es, hr, -, -, hsome⟩ := run_choose table d hs
  have hmade := choose_ne_none hend hs
  have hwrites := writes_of_run_choose hs hr
  unfold Parser.optional
  generalize choose table d s = c at hr hsome hmade
  obtain ⟨_ | a, t⟩ := c
  · exact absurd rfl hmade
  obtain ⟨ht, -⟩ := hsome a rfl
  cases a with
  | descend r => exact .after hr hwrites (h n t hn ht)
  | take | leave | reject => exact .nothing ⟨hr, ht.normal⟩ hwrites rfl (hskip n hn)

theorem WritesPart.whenDescends {steps : List (Step ν)} (h : WritesPart inner start stop (sequence steps))
    (hskip : ∀ n, start.ahead n → stop.ahead n ∧ stop.written n = start.written n) :
    WritesPart inner start stop (whenDescends table d steps) := by
  intro n s hn hs
  unfold Parser.whenDescends
  split
  · exact h n s hn hs
  · exact .nothing ⟨.refl s, hs.normal⟩ rfl rfl (hskip n hn)

/-- What a rule does to recover writes tokens only. -/
theorem writes_of_run_recover [Node ν] {rule : Rule} {o : Outcome ν} (hfits : o.verdict.Fits o.state)
    (h : Run o.state fs (recover rule o).state) : writes fs = (shifts fs).map .ofToken := by
  refine h.writes_of_plain ?_
  unfold recover at h
  split at h
  · rename_i hv _
    rw [hv] at hfits
    exact plain_of_run_resynchronize hfits h
  · rw [h.events_eq (.refl _)]
    exact plain_of_reports_eq_nil rfl

/-- After an error a phrase is closed, if at all, in a place after all those that were filled in. -/
theorem filled_recover [Node ν] {rule : Rule} {o : Outcome ν} (hr : Reaches s es o) (hs : s.Sealed)
    (hwrites : (writes es).Sublist (inner o.node)) (hm : ¬Mended es) (hinner : inner o.node <+: leaves o.node)
    (hclose : ∀ k, rule.terminator? = some k → ∀ t, leaves (Node.close (.ofToken t) o.node) = inner o.node ++ [.ofToken t]) :
    ∃ fs, Reaches s (es ++ fs) (recover rule o) ∧ Filled (es ++ fs) (leaves (recover rule o).node) := by
  obtain ⟨fs, hr', hcases⟩ := recover_reaches rule ⟨.refl o.state, hr.fits⟩ (hr.run.sealed hs)
  refine ⟨fs, .trans hr.run hr', .of_not_mended ?_ fun h => hm (mended_append.1 h).1⟩
  have hwritten : writes fs = (shifts fs).map .ofToken := writes_of_run_recover hr.fits hr'.run
  rw [writes_append, hwritten]
  rcases hcases with ⟨heq, rfl⟩ | ⟨-, ⟨t, k, hk, hnode, hshifts⟩ | ⟨hnode, hshifts⟩⟩
  · rw [heq, shifts_nil, List.map_nil, List.append_nil]
    exact hwrites.trans hinner.sublist
  · rw [hnode, hclose k hk, hshifts]
    exact hwrites.append (.refl _)
  · rw [hnode, hshifts, List.map_nil, List.append_nil]
    exact hwrites.trans hinner.sublist

/-- A step on a fixed node of which nothing is written is a reader. -/
theorem Writes.ofPart {step : Step ν} {blank : ν}
    (h : WritesPart leaves ⟨fun _ => [], fun n => n = blank⟩ { written := leaves } step) : Writes leaves (step blank) := by
  intro s hs
  obtain ⟨es, ts, hr, hfilled, hmatched, hfailed⟩ := h blank s rfl hs
  by_cases hv : (step blank s).verdict = .matched
  · have hwritten : leaves (step blank s).node = ts := (hmatched hv).2
    rw [hwritten]
    exact ⟨es, hr, hfilled, fun _ => hv⟩
  · obtain ⟨hm, hprefix⟩ := hfailed hv
    exact ⟨es, hr, .of_not_mended (hfilled.sublist.trans hprefix.sublist) hm, fun h => absurd h hm⟩

theorem Writes.phrase [Node ν] {rule : Rule} {blank : ν} {step : Step ν} (inner : ν → List Terminal)
    (h : WritesPart inner ⟨fun _ => [], fun n => n = blank⟩ { written := leaves } step)
    (hspan : ∀ span n, leaves (Node.withSpan span n) = leaves n) (hinner : ∀ n, inner n <+: leaves n)
    (hclose : ∀ k, rule.terminator? = some k → ∀ n t, leaves (Node.close (.ofToken t) n) = inner n ++ [.ofToken t]) :
    Writes leaves (phrase rule blank step) := by
  intro s hs
  have ha : Run s [.attempt (.rule rule) .normal] (s.attempt (.rule rule)) := .ofMove (.attempt _ hs.normal)
  obtain ⟨es, ts, hr, hfilled, hmatched, hfailed⟩ := h blank _ rfl (hs.attempt (.rule rule))
  have hr' := Reaches.trans ha hr
  unfold Parser.phrase
  dsimp only
  rw [hspan]
  by_cases hv : (step blank (s.attempt (.rule rule))).verdict = .matched
  · have hwritten : leaves (step blank (s.attempt (.rule rule))).node = ts := (hmatched hv).2
    rw [recover_of_matched rule hv, hwritten]
    exact ⟨_, ⟨hr'.run, hr'.fits⟩, .append (.of_writes_eq rfl) hfilled, fun _ => hv⟩
  · obtain ⟨hm, hprefix⟩ := hfailed hv
    have hlost : ¬Mended ([.attempt (.rule rule) .normal] ++ es) := fun h => hm (mended_append.1 h).2
    have hwrites := hfilled.sublist.trans hprefix.sublist
    obtain ⟨fs, hrecovered, hfilled'⟩ := filled_recover hr' hs.toSealed hwrites hlost (hinner _) fun k hk t => hclose k hk _ t
    exact ⟨_, ⟨hrecovered.run, hrecovered.fits⟩, hfilled', fun h => absurd (mended_append.1 h).1 hlost⟩

/-- A rule that closes no phrase need not tell the places before the last one from the others. -/
theorem Writes.phrase_of_no_terminator [Node ν] {rule : Rule} {blank : ν} {step : Step ν}
    (h : WritesPart leaves ⟨fun _ => [], fun n => n = blank⟩ { written := leaves } step) (hrule : rule.terminator? = none)
    (hspan : ∀ span n, leaves (Node.withSpan span n) = leaves n) : Writes leaves (Parser.phrase rule blank step) :=
  .phrase leaves h hspan (fun _ => List.prefix_rfl) fun k hk => by rw [hrule] at hk; cases hk

/-! ## Repetitions -/

theorem Writes.many {reader : Reader ν} {kind : TokenKind} (hend : table.action d .endOfInput ≠ .reject)
    (h : Writes leaves reader) (hp : PassesAt kind reader) (hd : ∀ k r, table.action d k = .descend r → k = kind) :
    Writes (fun ns => ns.flatMap leaves) (many table d reader) := by
  intro s hs
  induction hn : s.remaining using Nat.strong_induction_on generalizing s with
  | _ n ih =>
    obtain ⟨es, hr, -, -, hsome⟩ := run_choose table d hs
    have hmade := choose_ne_none hend hs
    have hwrites : Filled es [] := .of_writes_eq (writes_of_run_choose hs hr)
    rw [Parser.many]
    have hle := hr.remaining_le
    generalize choose table d s = c at hr hsome hle hmade
    obtain ⟨_ | a, t⟩ := c
    · exact absurd rfl hmade
    obtain ⟨ht, hact, -, -⟩ := hsome a rfl
    cases a with
    | take | leave | reject => exact ⟨es, ⟨hr, ht.normal⟩, hwrites, fun _ => rfl⟩
    | descend r =>
      obtain ⟨fs, hr', hfilled, hmatched⟩ := h t ht
      have hlt : (reader t).state.remaining < s.remaining := Nat.lt_of_lt_of_le (hp t ht (hd _ r hact)) hle
      dsimp only
      split
      · rename_i hv
        rw [if_pos hlt]
        obtain ⟨gs, hr'', hfilled', hmatched'⟩ := ih _ (hn ▸ hlt) _ (hr'.ready ht hv) rfl
        refine ⟨es ++ (fs ++ gs), ⟨hr.trans (hr'.run.trans hr''.run), hr''.fits⟩, hwrites.append (hfilled.append hfilled'), ?_⟩
        rw [mended_append, mended_append]
        exact fun hm => hmatched' hm.2.2
      · rename_i hv
        refine ⟨es ++ fs, ⟨hr.trans hr'.run, hr'.fits⟩, ?_, fun hm => absurd (hmatched (mended_append.1 hm).2) hv⟩
        rw [List.flatMap_singleton]
        exact hwrites.append hfilled

theorem Writes.separated {item : Reader (List ν)} (h : Writes (fun ns => ns.flatMap leaves) item)
    (hone : ∀ s, (item s).verdict = .matched → ∃ n, (item s).node = [n]) (hend : ∀ k, table.action d .endOfInput ≠ .take k) :
    Writes (Separated.leaves leaves) (separated table d item) := by
  intro s hs
  induction hn : s.remaining using Nat.strong_induction_on generalizing s with
  | _ n ih =>
    obtain ⟨es, hr, hfilled, hmatched⟩ := h s hs
    rw [Parser.separated]
    dsimp only
    split
    · rename_i hv
      have hready := hr.ready hs hv
      split
      · rename_i k hact
        have hne : (item s).state.cursor.rest ≠ [] := hready.rest_ne_nil (fun hk => hend k (hk ▸ hact))
        have hshift : Run (item s).state [.shift (item s).state.lookahead] (item s).state.shift :=
          .ofMove (.shift hready.normal hne)
        have hlt : (item s).state.shift.remaining < s.remaining :=
          Nat.lt_of_lt_of_le (State.remaining_shift_lt hne) hr.run.remaining_le
        rw [if_pos hlt]
        obtain ⟨fs, hr', hfilled', hmatched'⟩ := ih _ (hn ▸ hlt) _ ⟨hshift.sealed hready.toSealed, hready.normal⟩ rfl
        refine ⟨es ++ ([.shift (item s).state.lookahead] ++ fs), .trans hr.run (.trans hshift ⟨hr'.run, hr'.fits⟩), ?_, ?_⟩
        · obtain ⟨x, hx⟩ := hone s hv
          simp only [hx, List.flatMap_singleton] at hfilled
          rw [hx]
          exact hfilled.append (.append (.of_writes_eq rfl) hfilled')
        · rw [mended_append, mended_append]
          exact fun hm => hmatched' hm.2.2
      · refine ⟨es, ⟨hr.run, hready.normal⟩, ?_, fun _ => rfl⟩
        rwa [Separated.leaves, Separated.interleave_nil_right]
    · refine ⟨es, ⟨hr.run, hr.fits⟩, ?_, hmatched⟩
      rwa [Separated.leaves, Separated.interleave_nil_right]

/-! ## Rules -/

theorem writes_basicType : Writes (fun n => n.element.leaves) (basicType .standard) := by
  refine .phrase_of_no_terminator (fun n s _ hs => ?_) rfl fun _ _ => rfl
  split
  · rename_i k hk
    have hnext : s.nextKind = .numberType ∨ s.nextKind = .booleanType := Table.basicType_of_standard hk
    have hne : s.cursor.rest ≠ [] := hs.rest_ne_nil (by rcases hnext with h | h <;> simp [h])
    exact ⟨_, [.ofToken s.lookahead], ⟨.ofMove (.shift hs.normal hne), hs.normal⟩, .of_writes_eq rfl, fun _ => ⟨trivial, rfl⟩,
      fun hv => absurd rfl hv⟩
  · exact .mismatch hs (Diagnostic.blames_of_code (by decide) _ _ _ _) (show Code.unexpectedToken ∈ _ by decide) List.nil_prefix

theorem writes_extent : Writes (fun n => n.element.leaves) extent := by
  refine .phrase_of_no_terminator ?_ rfl fun _ _ => rfl
  refine .cons { written := fun n => [n.left] } (.terminal _ (by decide) _ (fun _ => List.nil_prefix) fun _ _ _ => ⟨trivial, rfl⟩) <|
    .cons { written := fun n => [n.left, n.size] }
      (.terminal _ (by decide) _ (fun n => ⟨[n.size, n.right], rfl⟩) fun _ _ _ => ⟨trivial, rfl⟩) <|
    .last (.terminal _ (by decide) _ (fun n => ⟨[n.right], rfl⟩) fun _ _ _ => ⟨trivial, rfl⟩)

theorem writes_dimension {rule : Rule} (hrule : rule.terminator? = none) :
    Writes (fun n => n.extent.element.leaves) (dimension rule) :=
  .phrase_of_no_terminator (.child writes_extent (fun _ => List.prefix_rfl) fun _ _ _ => ⟨trivial, rfl⟩) hrule fun _ _ => rfl

theorem writesPart_noExtraDimension (inner : TypeSpec → List Terminal) :
    WritesPart inner { written := inner } { written := inner } (noExtraDimension .standard) := by
  intro n s _ hs
  unfold noExtraDimension
  split
  · exact .mismatch hs (Diagnostic.blames_of_code (by decide) _ _ _ _) (show Code.tooManyDimensions ∈ _ by decide) List.prefix_rfl
  · exact .nothing ⟨.refl s, hs.normal⟩ rfl rfl ⟨trivial, rfl⟩

theorem writes_typeSpec : Writes (fun n => n.element.leaves) (typeSpec .standard) := by
  simp only [TypeSpec.leaves_element, ← List.append_assoc]
  refine .phrase_of_no_terminator ?_ rfl fun _ _ => rfl
  refine .cons ⟨fun n => n.basic.element.leaves, fun n => n.first = none ∧ n.second = none⟩ (.child writes_basicType ?_ ?_) <|
    .last (.whenDescends (.cons ⟨fun n => n.basic.element.leaves ++ Dimension.leaves? n.first, fun n => n.second = none⟩
      (.child (writes_dimension rfl) ?_ ?_) <| .last (.whenDescends (.cons _ (.child (writes_dimension rfl) ?_ ?_) <|
        .last (writesPart_noExtraDimension _)) ?_)) ?_)
  · exact fun n => ⟨_, (List.append_assoc ..).symm⟩
  · rintro n b rfl
    exact ⟨⟨rfl, rfl⟩, rfl⟩
  · exact fun n => List.prefix_append _ _
  · rintro n d ⟨-, hsecond⟩
    exact ⟨hsecond, by simp⟩
  · exact fun n => List.prefix_rfl
  · exact fun n d _ => ⟨trivial, by simp⟩
  · intro n hsecond
    exact ⟨trivial, by simp [show n.second = none from hsecond]⟩
  · rintro n ⟨hfirst, hsecond⟩
    exact ⟨trivial, by simp [hfirst, hsecond]⟩

theorem writes_declaredName : Writes (fun ns => ns.flatMap fun t => [t]) declaredName :=
  .ofPart (.terminal .varDecl (show TokenKind.identifier ≠ _ by decide) _ (fun _ => List.nil_prefix) fun _ _ _ => ⟨trivial, rfl⟩)

/-- The terminals of a declaration before its semicolon. -/
def declaration (n : VarDecl) : List Terminal := n.keyword :: (n.type.element.leaves ++ n.names.leaves fun t => [t])

theorem writes_varDecl : Writes (fun n => n.element.leaves) (varDecl .standard) := by
  have hleaves : ∀ n : VarDecl, n.element.leaves = declaration n ++ [n.semicolon] := by
    intro n
    simp [VarDecl.leaves_element, declaration]
  simp only [hleaves]
  refine .phrase declaration ?_ (fun _ _ => rfl) (fun n => List.prefix_append _ _) fun _ _ _ _ => rfl
  refine .cons { written := fun n => [n.keyword] } (.terminal _ (by decide) _ (fun _ => List.nil_prefix) ?_) <|
    .cons { written := fun n => n.keyword :: n.type.element.leaves } (.child writes_typeSpec ?_ ?_) <|
    .cons { written := declaration }
      (.child (.separated writes_declaredName declaredName_eq_singleton Table.standard_orderly.moreNames) ?_ ?_) <|
    .last (.terminal _ (by decide) _ ?_ ?_)
  · exact fun _ _ _ => ⟨trivial, rfl⟩
  · exact fun n => ⟨_, rfl⟩
  · exact fun _ _ _ => ⟨trivial, rfl⟩
  · exact fun n => List.prefix_rfl
  · exact fun _ _ _ => ⟨trivial, rfl⟩
  · exact fun n => List.prefix_rfl
  · exact fun _ _ _ => ⟨trivial, rfl⟩

theorem writes_varDecls (rule : Rule) (hrule : rule.terminator? = none) {d : Decision}
    (hend : Table.standard.action d .endOfInput ≠ .reject) (hd : ∀ k r, Table.standard.action d k = .descend r → k = .var) :
    Writes (fun n => (n.element rule).leaves)
      (phrase rule {} (child (many .standard d (varDecl .standard)) fun (n : VarDecls) decls => { n with decls })) := by
  simp only [VarDecls.leaves_element]
  refine .phrase_of_no_terminator (.child (.many hend writes_varDecl (accounts_varDecl Table.standard_orderly).2 hd) ?_ ?_) hrule
    fun _ _ => rfl
  · exact fun n => List.prefix_rfl
  · exact fun _ _ _ => ⟨trivial, rfl⟩

theorem writes_statement : Writes (fun n => n.element.leaves) statement := by
  have hexpression : Writes (fun n => n.element.leaves) expression :=
    .phrase_of_no_terminator (.nil fun _ _ => ⟨trivial, rfl⟩) rfl fun _ _ => rfl
  refine .phrase (fun _ => []) ?_ (fun _ _ => rfl) (fun _ => List.nil_prefix) fun _ _ _ _ => rfl
  exact .cons { written := fun _ => [] } (.child hexpression (fun _ => List.nil_prefix) fun _ _ _ => ⟨trivial, rfl⟩) <|
    .last (.terminal _ (by decide) _ (fun _ => List.nil_prefix) fun _ _ _ => ⟨trivial, rfl⟩)

/-- The terminals of a block before the brace that closes it. -/
def openBlock (n : Block) : List Terminal := n.left :: n.statements.flatMap fun t => t.element.leaves

theorem writes_block : Writes (fun n => n.element.leaves) (block .standard) := by
  have hleaves : ∀ n : Block, n.element.leaves = openBlock n ++ [n.right] := Block.leaves_element
  simp only [hleaves]
  refine .phrase openBlock ?_ (fun _ _ => rfl) (fun n => List.prefix_append _ _) fun _ _ _ _ => rfl
  refine .cons { written := fun n => [n.left] } (.terminal _ (by decide) _ (fun _ => List.nil_prefix) ?_) <|
    .cons { written := openBlock }
      (.child (.many (by decide) writes_statement statement_passesAt Table.standard_orderly.moreStatements) ?_ ?_) <|
    .last (.terminal _ (by decide) _ ?_ ?_)
  · exact fun _ _ _ => ⟨trivial, rfl⟩
  · exact fun n => List.prefix_rfl
  · exact fun _ _ _ => ⟨trivial, rfl⟩
  · exact fun n => List.prefix_rfl
  · exact fun _ _ _ => ⟨trivial, rfl⟩

theorem writes_paramList : Writes (fun n => n.element.leaves) (paramList .standard) := by
  have hparam : Writes Param.leaves (param .standard) := by
    refine .ofPart (.cons { written := fun n => n.type.element.leaves } (.child writes_basicType ?_ ?_) <|
      .last (.terminal _ (by decide) _ ?_ ?_))
    · exact fun n => List.prefix_append _ _
    · exact fun _ _ _ => ⟨trivial, rfl⟩
    · exact fun n => List.prefix_append _ _
    · exact fun _ _ _ => ⟨trivial, rfl⟩
  have hitem : Writes (fun ns => ns.flatMap Param.leaves) (paramItem .standard) :=
    .ofPart (.child hparam (fun _ => List.prefix_rfl) fun _ _ _ => ⟨trivial, List.flatMap_singleton ..⟩)
  simp only [ParamList.leaves_element]
  refine .phrase_of_no_terminator ?_ rfl fun _ _ => rfl
  exact .child (.separated hitem (fun s _ => ⟨_, rfl⟩) Table.standard_orderly.moreParams) (fun _ => List.prefix_rfl)
    fun _ _ _ => ⟨trivial, rfl⟩

theorem writes_functionDecl : Writes (fun n => n.element.leaves) (functionDecl .standard) := by
  simp only [FunctionDecl.leaves_element]
  refine .phrase_of_no_terminator ?_ rfl fun _ _ => rfl
  refine .cons ⟨fun n => [n.keyword], fun n => n.params = none⟩ (.terminal _ (by decide) _ (fun _ => List.nil_prefix) ?_) <|
    .cons ⟨fun n => [n.keyword, n.name], fun n => n.params = none⟩ (.terminal _ (by decide) _ (fun n => ⟨_, rfl⟩) ?_) <|
    .cons ⟨fun n => [n.keyword, n.name, n.left], fun n => n.params = none⟩ (.terminal _ (by decide) _ (fun n => ⟨_, rfl⟩) ?_) <|
    .cons { written := fun n => n.keyword :: n.name :: n.left :: ParamList.leaves? n.params }
      (.optional (by decide) (.child writes_paramList (fun n => ⟨_, rfl⟩) ?_) ?_) <|
    .cons { written := fun n => n.keyword :: n.name :: n.left :: (ParamList.leaves? n.params ++ [n.right]) }
      (.terminal _ (by decide) _ (fun n => ⟨_, rfl⟩) ?_) <|
    .cons { written := fun n => n.keyword :: n.name :: n.left :: (ParamList.leaves? n.params ++
        n.right :: (n.locals.element .localVars).leaves) }
      (.child (writes_varDecls .localVars rfl (by decide) Table.standard_orderly.moreLocals) ?_ ?_) <|
    .last (.child writes_block ?_ ?_)
  · rintro n t rfl
    exact ⟨rfl, rfl⟩
  · exact fun n t hn => ⟨hn, rfl⟩
  · exact fun n t hn => ⟨hn, rfl⟩
  · exact fun n ps hn => ⟨trivial, by simp⟩
  · exact fun n hn => ⟨trivial, by simp [show n.params = none from hn]⟩
  · exact fun n t _ => ⟨trivial, rfl⟩
  · exact fun n => ⟨n.body.element.leaves, by simp⟩
  · exact fun n vs _ => ⟨trivial, by simp⟩
  · exact fun n => List.prefix_rfl
  · exact fun n b _ => ⟨trivial, by simp⟩

theorem writes_functions : Writes (fun n => n.element.leaves) (functions .standard) := by
  simp only [Functions.leaves_element]
  refine .phrase_of_no_terminator (.child (.many (by decide) writes_functionDecl
    (accounts_functionDecl Table.standard_orderly).2 Table.standard_orderly.moreFunctions) ?_ ?_) rfl fun _ _ => rfl
  · exact fun n => List.prefix_rfl
  · exact fun _ _ _ => ⟨trivial, rfl⟩

theorem writes_mainBlock : Writes (fun n => n.element.leaves) (mainBlock .standard) := by
  simp only [MainBlock.leaves_element]
  refine .phrase_of_no_terminator ?_ rfl fun _ _ => rfl
  refine .cons { written := fun n => [n.keyword] } (.terminal _ (by decide) _ (fun _ => List.nil_prefix) ?_) <|
    .last (.child writes_block (fun n => List.prefix_rfl) ?_)
  · exact fun _ _ _ => ⟨trivial, rfl⟩
  · exact fun _ _ _ => ⟨trivial, rfl⟩

/-! ## Programs -/

/-- The terminals of a program before the end of the input. -/
def beforeEnd (n : Program) : List Terminal :=
  n.heading ++ ((n.globals.element .globalVars).leaves ++ (n.functions.element.leaves ++ n.main.element.leaves))

/-- After an error in the header the places that were not reached stay empty. -/
theorem writesPart_header : WritesPart beforeEnd { written := fun _ => [] } { written := Program.heading } header := by
  have hsteps : WritesPart Program.heading { written := fun _ => [] } { written := Program.heading } (sequence headerSteps) := by
    refine .cons { written := fun n => [n.keyword] } (.terminal _ (by decide) _ (fun _ => List.nil_prefix) ?_) <|
      .cons { written := fun n => [n.keyword, n.name] } (.terminal _ (by decide) _ (fun n => ⟨[n.name, n.colon], rfl⟩) ?_) <|
      .last (.terminal _ (by decide) _ (fun n => ⟨[n.colon], rfl⟩) ?_)
    · exact fun _ _ _ => ⟨trivial, rfl⟩
    · exact fun _ _ _ => ⟨trivial, rfl⟩
    · exact fun _ _ _ => ⟨trivial, rfl⟩
  intro n s hn hs
  obtain ⟨es, ts, hr, hfilled, hmatched, hfailed⟩ := hsteps n s hn hs
  have hheading : ∀ m : Program, m.heading <+: beforeEnd m := fun m => List.prefix_append _ _
  unfold header
  dsimp only
  split
  · rename_i hv
    obtain ⟨hm, hprefix⟩ := hfailed (by simp [hv])
    obtain ⟨fs, hr', -, hnode, hshifts⟩ := restart_reaches (sequence headerSteps n s).node (hr.recovering hv)
    have hwrites : writes fs = [] := by
      rw [hr'.run.writes_of_plain (plain_of_run_restart (hr.recovering hv) hr'.run), hshifts]
      rfl
    have hlost : ¬Mended (es ++ fs) := fun h => hm (mended_append.1 h).1
    refine ⟨es ++ fs, (sequence headerSteps n s).node.heading, .trans hr.run hr', .of_not_mended ?_ hlost, fun _ => ?_,
      fun _ => ⟨hlost, ?_⟩⟩
    · rw [writes_append, hwrites, List.append_nil]
      exact hfilled.sublist.trans hprefix.sublist
    · rw [hnode]
      exact ⟨trivial, rfl⟩
    · rw [hnode]
      exact hheading _
  · exact ⟨es, ts, hr, hfilled, hmatched, fun hv => ⟨(hfailed hv).1, (hfailed hv).2.trans (hheading _)⟩⟩

theorem writing_mainStep {n : Program} (hs : s.Ready) (hk : s.nextKind ∈ [TokenKind.main, .leftBrace, .endOfInput]) :
    Writing beforeEnd (n.heading ++ ((n.globals.element .globalVars).leaves ++ n.functions.element.leaves))
      { written := beforeEnd } s (mainStep .standard n s) := by
  have hchild : WritesPart beforeEnd
      { written := fun n => n.heading ++ ((n.globals.element .globalVars).leaves ++ n.functions.element.leaves) }
      { written := beforeEnd } (child (mainBlock .standard) fun n m => { n with main := m }) :=
    .child writes_mainBlock (fun _ => List.prefix_rfl) fun n m _ => ⟨trivial, by simp [beforeEnd, Program.heading]⟩
  obtain ⟨es, ts, hr, hfilled, hmatched, hfailed⟩ := hchild n s trivial hs
  unfold mainStep
  dsimp only
  split
  · rename_i hv
    obtain ⟨hm, hprefix⟩ := hfailed (by simp [hv])
    have hend := mainBlock_ended hs hk hv
    refine ⟨_, ts ++ [], ⟨hr.run.trans (.ofMove (.abandon .main hend)), hend⟩, hfilled.append (.of_writes_eq rfl), ?_,
      fun _ => ⟨fun h => hm (mended_append.1 h).1, ?_⟩⟩
    · intro hmatched
      cases hmatched
    · rwa [List.append_nil]
  · exact ⟨es, ts, hr, hfilled, hmatched, hfailed⟩

theorem writesPart_nothingLeft (inner : Program → List Terminal) :
    WritesPart inner { written := inner } { written := inner } nothingLeft := by
  intro n s _ hs
  obtain ⟨es, hr, hnode, hv, -, hshifts, -⟩ := nothingLeft_reaches n hs
  have hwrites : writes es = [] := by
    rw [hr.run.writes_of_plain (plain_of_run_nothingLeft hs hr.run), hshifts]
    rfl
  exact .nothing hr hwrites hv ⟨trivial, by rw [hnode]⟩

theorem writesPart_programSteps :
    WritesPart beforeEnd { written := fun _ => [] } { written := beforeEnd } (sequence (programSteps .standard)) := by
  refine .cons _ writesPart_header <|
    .cons { written := fun n => n.heading ++ (n.globals.element .globalVars).leaves }
      (.child (writes_varDecls .globalVars rfl (by decide) Table.standard_orderly.moreGlobals) ?_ ?_) fun n s _ hs => ?_
  · exact fun n => ⟨_, List.append_assoc ..⟩
  · exact fun _ _ _ => ⟨trivial, rfl⟩
  -- After the functions the main block is next, so the parse does not give up in front of other tokens.
  have hfunctions : WritesPart beforeEnd { written := fun n => n.heading ++ (n.globals.element .globalVars).leaves }
      { written := fun n => n.heading ++ ((n.globals.element .globalVars).leaves ++ n.functions.element.leaves) }
      (child (functions .standard) fun n fs => { n with functions := fs }) := by
    refine .child writes_functions (fun n => ?_) fun _ _ _ => ⟨trivial, (List.append_assoc ..).symm⟩
    exact ⟨n.main.element.leaves, by simp [beforeEnd]⟩
  refine .cons hs (hfunctions n s trivial hs) fun hv hs _ => ?_
  refine .cons hs (writing_mainStep hs (nextKind_of_functions Table.standard_orderly hv)) fun _ hs _ => ?_
  exact WritesPart.last (writesPart_nothingLeft beforeEnd) _ _ trivial hs

end Parser

open QuillFrontEnd.Parser

/-! ## Whole parses -/

/-- What a parse writes stands in its tree in order, and there is nothing else in the tree unless the parse has lost track. -/
theorem filled_parse (ts : TokenList) : Filled (parse ts).trace.reverse (parse ts).tree.element.leaves := by
  have hwrites : Writes beforeEnd (sequence (programSteps .standard) {}) :=
    .ofPart fun n s _ hs => writesPart_programSteps n s trivial hs
  obtain ⟨es, hr, hfilled, -⟩ := hwrites _ ((State.ready_initial ts).attempt (.rule .start))
  obtain ⟨htrace, span, htree⟩ := parseWith_of_run Table.standard_orderly hr.run
  have hleaves : (parse ts).tree.element.leaves = beforeEnd (sequence (programSteps .standard) {}
      ((State.initial ts).attempt (.rule .start))).node ++ [.ofToken ts.sentinel] := by
    rw [parse, htree, Program.leaves_element]
    simp [beforeEnd, Program.heading]
  have hstart : Filled [.attempt (.rule .start) .normal] [] := .of_writes_eq rfl
  rw [hleaves, parse, htrace]
  exact hstart.append (hfilled.append (.of_writes_eq rfl))

/-! ## The reports of the terminals that are put in -/

/-- The kind of terminal that a diagnostic says was expected. -/
def Diagnostic.missingKind? (d : Diagnostic) : Option TokenKind := TokenKind.all.find? fun k => d.expected == some k.displayName

/-- What a diagnostic says is missing, and where. -/
def Diagnostic.gap (d : Diagnostic) : Option TokenKind × Span × Position := (d.missingKind?, d.span, d.position)

/-- What a terminal of a tree says is missing, and where. -/
def Terminal.gap (t : Terminal) : Option TokenKind × Span × Position := (some t.kind, t.span, t.position)

/-- The gaps that the diagnostics of a parse report, in order. -/
def ParseOutput.reportedGaps (o : ParseOutput) : List (Option TokenKind × Span × Position) :=
  (o.diagnostics.filter fun d => d.code == .missingToken).map Diagnostic.gap

/-- The gaps of a tree from left to right, with those that were not reached. -/
def Program.gaps (n : Program) : List (Option TokenKind × Span × Position) :=
  (n.element.leaves.filter fun t => t.missing).map Terminal.gap

namespace Parser

variable {s t : State} {es : List Event}

/-- The report of a terminal that is put in says of what kind it is and where. -/
theorem gap_missingTerminal (kind : TokenKind) (rule : Rule) (x : Token) :
    (missingTerminal kind rule x).gap = (Terminal.inserted kind x).gap := by
  have hkind : (missingTerminal kind rule x).missingKind? = some kind := by
    cases kind <;> rfl
  rw [Diagnostic.gap, hkind]
  rfl

/-- A run reports the terminals that it puts in, and nothing else as missing. -/
theorem Run.gaps (h : Run s es t) :
    ((reports es).filter fun d => d.code == .missingToken).map Diagnostic.gap =
      ((writes es).filter fun t => t.missing).map Terminal.gap := by
  induction h with
  | refl => rfl
  | @head s t u es fs m _ ih =>
    rw [reports_append, writes_append, List.filter_append, List.filter_append, List.map_append, List.map_append, ih,
      List.append_left_inj]
    cases m with
    | insert kind rule => exact congrArg (fun g => [g]) (gap_missingTerminal kind rule s.lookahead)
    | mismatch d _ blames =>
      have hcode : d.code ≠ .missingToken := fun hmissing => by
        have hcode := blames.code
        rw [hmissing] at hcode
        revert hcode
        decide
      simp [hcode]
    | attempt | shift | close | drop | resume | abandon => rfl

end Parser

/-- The gaps that a parse reports are those of the terminals that it has put in. -/
theorem reportedGaps_parse (ts : TokenList) :
    (parse ts).reportedGaps = ((writes (parse ts).trace.reverse).filter fun t => t.missing).map Terminal.gap := by
  obtain ⟨es, t, hr, -, htrace, -⟩ := parseWith_run Table.standard_orderly ts
  have hdiag : (parse ts).diagnostics = reports es := diagnostics_of_trace htrace
  have htrace' : (parse ts).trace.reverse = es ++ [.shift ts.sentinel] := htrace
  rw [ParseOutput.reportedGaps, hdiag, htrace', writes_append, List.filter_append, hr.gaps]
  exact congrArg (List.map _) (List.append_nil _).symm

/-- The terminals that a parse reports as missing are, in the order of the reports, among the missing terminals of its tree from
left to right, and each is reported at a point. Where the parse reports no unexpected token, no extra dimension and no end of input,
there are no others, so no terminal is missing in the tree exactly if none is reported as missing. -/
theorem insertions_in_tree (ts : TokenList) :
    (parse ts).reportedGaps.Sublist (parse ts).tree.gaps ∧
      (∀ d ∈ (parse ts).diagnostics, d.code = .missingToken → d.span = .point d.span.start) ∧
      ((∀ d ∈ (parse ts).diagnostics, d.code ∉ [Code.unexpectedToken, .tooManyDimensions, .endOfInput]) →
        (parse ts).reportedGaps = (parse ts).tree.gaps ∧
        ((∀ t ∈ (parse ts).tree.element.leaves, t.missing = false) ↔
          ∀ d ∈ (parse ts).diagnostics, d.code ≠ .missingToken)) := by
  have hfilled := filled_parse ts
  refine ⟨?_, fun d hd hcode => ?_, fun hmended => ?_⟩
  · rw [reportedGaps_parse]
    exact (hfilled.sublist.filter _).map _
  · obtain ⟨i, t, -, hstands⟩ := standsIn_parse ts d hd
    rw [hstands.span, hcode]
    rfl
  · have hlost : Mended (parse ts).trace.reverse := fun d hd hcode => by
      have hsubset : Diagnostic.lostCodes ⊆ [Code.unexpectedToken, .tooManyDimensions, .endOfInput] := by decide
      exact hmended d hd (hsubset hcode)
    have hgaps : (parse ts).reportedGaps = (parse ts).tree.gaps := by
      rw [reportedGaps_parse, hfilled.eq_of_mended hlost]
      rfl
    have hnone : (parse ts).tree.gaps = [] ↔ ∀ t ∈ (parse ts).tree.element.leaves, t.missing = false := by
      rw [Program.gaps, List.map_eq_nil_iff, List.filter_eq_nil_iff]
      simp
    have hnone' : (parse ts).reportedGaps = [] ↔ ∀ d ∈ (parse ts).diagnostics, d.code ≠ .missingToken := by
      rw [ParseOutput.reportedGaps, List.map_eq_nil_iff, List.filter_eq_nil_iff]
      simp
    exact ⟨hgaps, by rw [← hnone, ← hgaps, hnone']⟩

/-- In `program : main { }` the name is missing and nothing else. -/
theorem insertions_in_tree_name :
    let ts := TokenList.ofKinds [.program, .colon, .main, .leftBrace, .rightBrace]
    (∀ d ∈ (parse ts).diagnostics, d.code ∉ [Code.unexpectedToken, .tooManyDimensions, .endOfInput]) ∧
      (parse ts).reportedGaps = (parse ts).tree.gaps ∧ (parse ts).tree.gaps.map Prod.fst = [some .identifier] := by
  intro ts
  have hmended : ∀ d ∈ (parse ts).diagnostics, d.code ∉ [Code.unexpectedToken, .tooManyDimensions, .endOfInput] := by
    decide +kernel
  exact ⟨hmended, ((insertions_in_tree ts).2.2 hmended).1, by decide +kernel⟩

end QuillFrontEnd
