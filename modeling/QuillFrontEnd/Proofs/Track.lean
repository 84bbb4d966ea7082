import Mathlib.Logic.Relation
import QuillFrontEnd.Proofs.Locality

/-!
# On track and off

A parse is off its track from the report of an error up to the place where it goes on, and nothing is set out to do in between. So
whenever something is set out to do the parse is on track, and whenever an error is met it can be reported. This holds for every
table, also for one with which the parse does not end well. Each function that readers are made of is shown to keep to the track:
begun on track, it is on track again after a match, off its track after an error, and it sets out to do nothing more after it gave
up.
-/

namespace QuillFrontEnd.Parser

namespace Event

/-- Whether a step is to set out to do something. -/
def isAttempt : Event → Bool
  | attempt .. => true
  | _ => false

/-- Whether a step is to give up. -/
def isAbandon : Event → Bool
  | abandon .. => true
  | _ => false

/-- Whether a step can be taken whatever came before it: it takes, drops or puts in a token, reports a problem or gives up. -/
def isFree : Event → Bool
  | attempt .. | mute _ => false
  | shift _ | drop _ | insert .. | report _ | abandon .. => true

theorem isAttempt_of_isFree {e : Event} (h : e.isFree = true) : e.isAttempt = false := by
  cases e with
  | attempt => cases h
  | _ => rfl

end Event

/-- A trace, the last step first, in which nothing was set out to do off the track or after giving up, and no problem was left
unreported. -/
structure Disciplined (trace : List Event) : Prop where
  normal : ∀ goal mode, .attempt goal mode ∈ trace → mode = .normal
  loud : ∀ d, .mute d ∉ trace
  going : trace.Pairwise fun later earlier => later.isAttempt = true → earlier.isAbandon = false

namespace Disciplined

variable {trace : List Event} {e : Event}

theorem nil : Disciplined [] := ⟨fun _ _ h => absurd h List.not_mem_nil, fun _ => List.not_mem_nil, .nil⟩

theorem cons (h : Disciplined trace) (he : e.isFree = true) : Disciplined (e :: trace) where
  normal goal mode hmem := by
    rcases List.mem_cons.1 hmem with rfl | hmem
    · cases he
    · exact h.normal goal mode hmem
  loud d hmem := by
    rcases List.mem_cons.1 hmem with rfl | hmem
    · cases he
    · exact h.loud d hmem
  going := by
    refine List.pairwise_cons.2 ⟨fun _ _ ha => ?_, h.going⟩
    rw [Event.isAttempt_of_isFree he] at ha
    cases ha

theorem attempt (h : Disciplined trace) (hgoing : ∀ e ∈ trace, e.isAbandon = false) (goal : Goal) :
    Disciplined (.attempt goal .normal :: trace) where
  normal goal' mode hmem := by
    rcases List.mem_cons.1 hmem with heq | hmem
    · cases heq
      rfl
    · exact h.normal goal' mode hmem
  loud d hmem := by
    rcases List.mem_cons.1 hmem with heq | hmem
    · cases heq
    · exact h.loud d hmem
  going := List.pairwise_cons.2 ⟨fun e he _ => hgoing e he, h.going⟩

end Disciplined

namespace State

/-- A state in a mode, with a disciplined trace in which the parse has not given up. -/
structure Going (m : Mode) (s : State) : Prop where
  mode : s.mode = m
  going : ∀ e ∈ s.trace, e.isAbandon = false
  disciplined : Disciplined s.trace

/-- A state with a disciplined trace in which the parse has given up. -/
structure GivenUp (s : State) : Prop where
  abandoned : ∃ e ∈ s.trace, e.isAbandon = true
  disciplined : Disciplined s.trace

theorem going_initial (ts : TokenList) : (initial ts).Going .normal := ⟨rfl, fun _ h => absurd h List.not_mem_nil, .nil⟩

variable {s t : State} {m m' : Mode} {e : Event}

/-- After a free step that does not give up the parse goes on, in the mode in which the step ends. -/
theorem Going.step (h : s.Going m) (he : e.isFree = true) (hgoing : e.isAbandon = false) (hmode : t.mode = m')
    (htrace : t.trace = e :: s.trace) : t.Going m' where
  mode := hmode
  going := by
    rw [htrace, List.forall_mem_cons]
    exact ⟨hgoing, h.going⟩
  disciplined := by
    rw [htrace]
    exact h.disciplined.cons he

theorem Going.shift (h : s.Going m) : s.shift.Going m := h.step rfl rfl h.mode rfl

theorem Going.drop (h : s.Going m) : s.drop.Going m := h.step rfl rfl h.mode rfl

theorem Going.report (h : s.Going m) (d : Diagnostic) : (s.report d).Going m := h.step rfl rfl h.mode rfl

theorem Going.insert (h : s.Going m) (kind : TokenKind) (rule : Rule) : (s.insert kind rule).Going m :=
  (h.report (missingTerminal kind rule s.lookahead)).step rfl rfl h.mode rfl

theorem Going.resume (h : s.Going m) : s.resume.Going .normal := ⟨rfl, h.going, h.disciplined⟩

theorem Going.attempt (h : s.Going .normal) (goal : Goal) : (s.attempt goal).Going .normal where
  mode := h.mode
  going := by
    rw [State.attempt, log, List.forall_mem_cons]
    exact ⟨rfl, h.going⟩
  disciplined := by
    rw [State.attempt, h.mode]
    exact h.disciplined.attempt h.going goal

/-- On track an error is reported, and it puts the parse off its track. -/
theorem Going.mismatch (h : s.Going .normal) (d : Diagnostic) : (s.mismatch d).Going .recovering := by
  unfold State.mismatch
  rw [h.mode]
  exact h.step rfl rfl rfl rfl

theorem Going.dropAhead (h : s.Going m) (test : TokenKind → Bool) (ts : List Token) : (State.dropAhead test ts s).Going m := by
  induction ts generalizing s with
  | nil => exact h
  | cons t ts ih =>
    rw [State.dropAhead]
    split
    · exact ih h.drop
    · exact h

theorem Going.dropWhile (h : s.Going m) (test : TokenKind → Bool) : (s.dropWhile test).Going m := h.dropAhead test _

theorem Going.abandon (h : s.Going m) (rule : Rule) : (s.abandon rule).GivenUp where
  abandoned := ⟨.abandon rule s.lookahead, by simp [State.abandon, State.report, log], rfl⟩
  disciplined :=
    have habandoned : Disciplined (.abandon rule s.lookahead :: s.trace) := h.disciplined.cons rfl
    habandoned.cons rfl

theorem GivenUp.shift (h : s.GivenUp) : s.shift.GivenUp where
  abandoned :=
    have ⟨e, he, habandon⟩ := h.abandoned
    ⟨e, List.mem_cons_of_mem _ he, habandon⟩
  disciplined := h.disciplined.cons rfl

end State

variable {ν μ : Type} {s : State} {table : Table} {d : Decision}

/-- Where a verdict leaves a parse. A repetition that would go on for ever is left on track, as it is before each of its turns. -/
def Verdict.Leaves : Verdict → State → Prop
  | .matched, s | .stalled, s => s.Going .normal
  | .mismatched, s => s.Going .recovering
  | .outOfInput, s => s.GivenUp

/-- A reader that, begun on track, ends where its verdict says. -/
def KeepsTrack (reader : Reader ν) : Prop := ∀ s : State, s.Going .normal → (reader s).verdict.Leaves (reader s).state

/-- The token that is taken into the tree last of all does not change where a verdict leaves a parse. -/
theorem Verdict.Leaves.shift {v : Verdict} (h : v.Leaves s) : v.Leaves s.shift := by
  cases v with
  | matched => exact State.Going.shift h
  | mismatched => exact State.Going.shift h
  | outOfInput => exact State.GivenUp.shift h
  | stalled => exact State.Going.shift h

theorem Verdict.Leaves.disciplined {v : Verdict} (h : v.Leaves s) : Disciplined s.trace := by
  cases v with
  | matched => exact State.Going.disciplined h
  | mismatched => exact State.Going.disciplined h
  | outOfInput => exact State.GivenUp.disciplined h
  | stalled => exact State.Going.disciplined h

theorem KeepsTrack.going {reader : Reader ν} (h : KeepsTrack reader) (hs : s.Going .normal)
    (hv : (reader s).verdict = .matched) : (reader s).state.Going .normal := by
  have ho := h s hs
  rwa [hv] at ho

/-! ## Decisions and terminals -/

theorem going_dropRefused (table : Table) (d : Decision) (h : s.Going .normal) : ∃ m, (dropRefused table d s).Going m := by
  unfold dropRefused
  split
  · exact ⟨_, (h.mismatch _).dropWhile _⟩
  · exact ⟨_, h⟩

/-- A decision is made on track. -/
theorem going_of_choose (hs : s.Going .normal) {a : Action} {t : State} (hc : choose table d s = (some a, t)) :
    t.Going .normal := by
  obtain ⟨m, hdropped⟩ := going_dropRefused table d (hs.attempt (.decision d))
  rw [choose_eq] at hc
  split at hc
  · cases hc
  · cases hc
    exact hdropped.resume

/-- Where no decision is made, the parse gives up. -/
theorem givenUp_of_choose (hs : s.Going .normal) {t : State} (hc : choose table d s = (none, t)) : t.GivenUp := by
  obtain ⟨m, hdropped⟩ := going_dropRefused table d (hs.attempt (.decision d))
  rw [choose_eq] at hc
  split at hc
  · cases hc
    exact hdropped.abandon d.rule
  · cases hc

namespace KeepsTrack

theorem terminal (rule : Rule) (kind : TokenKind) (follow : KindSet) (put : ν → Terminal → ν) (n : ν) :
    KeepsTrack (terminal rule kind follow put n) := by
  intro s hs
  have hs' := hs.attempt (.terminal kind)
  rw [terminal_eq]
  split
  · exact hs'.shift
  · split
    · exact hs'.insert kind rule
    · exact hs'.mismatch _

/-! ## Steps -/

theorem nil (n : ν) : KeepsTrack (sequence [] n) := fun _ hs => hs

theorem cons {step : Step ν} {steps : List (Step ν)} (h : ∀ n, KeepsTrack (step n)) (h' : ∀ n, KeepsTrack (sequence steps n))
    (n : ν) : KeepsTrack (sequence (step :: steps) n) := by
  intro s hs
  by_cases hv : (step n s).verdict = .matched
  · rw [sequence_cons_of_matched steps hv]
    exact h' _ _ ((h n).going hs hv)
  · rw [sequence_cons_of_ne_matched steps hv]
    exact h n s hs

theorem child {reader : Reader μ} (h : KeepsTrack reader) (put : ν → μ → ν) (n : ν) : KeepsTrack (child reader put n) := h

theorem optional {step : Step ν} (h : ∀ n, KeepsTrack (step n)) (n : ν) : KeepsTrack (optional table d step n) := by
  intro s hs
  unfold Parser.optional
  split
  case h_1 _ hc => exact h n _ (going_of_choose hs hc)
  case h_2 _ hc => exact going_of_choose hs hc
  case h_3 _ hc => exact givenUp_of_choose hs hc

theorem whenDescends {steps : List (Step ν)} (h : ∀ n, KeepsTrack (sequence steps n)) (n : ν) :
    KeepsTrack (whenDescends table d steps n) := by
  intro s hs
  unfold Parser.whenDescends
  split
  · exact h n s hs
  · exact hs

/-! ## Repetitions -/

theorem many {reader : Reader μ} (h : KeepsTrack reader) : KeepsTrack (many table d reader) := by
  intro s hs
  fun_induction Parser.many table d reader s with
  | case1 s t hc => exact givenUp_of_choose hs hc
  | case2 s r t hc o hv hlt others ih => exact ih (h.going (going_of_choose hs hc) hv)
  | case3 s r t hc o hv hlt => exact h.going (going_of_choose hs hc) hv
  | case4 s r t hc o hv => exact h t (going_of_choose hs hc)
  | case5 s a t hleave hc => exact going_of_choose hs hc

theorem separated {item : Reader (List μ)} (h : KeepsTrack item) : KeepsTrack (separated table d item) := by
  intro s hs
  fun_induction Parser.separated table d item s with
  | case1 s o hv k hk separator hlt others ih => exact ih (h.going hs hv).shift
  | case2 s o hv k hk separator hlt => exact (h.going hs hv).shift
  | case3 s o hv hk => exact h.going hs hv
  | case4 s o hv => exact h s hs

/-! ## Phrases -/

end KeepsTrack

/-- A rule that goes on after an error is on track again, or else it gives up. -/
theorem resynchronize_leaves [Node ν] (rule : Rule) (policy : ResyncPolicy) (n : ν) {m : Mode} (hs : s.Going m) :
    (resynchronize rule policy n s).verdict.Leaves (resynchronize rule policy n s).state := by
  have hdropped := hs.dropWhile fun k => !(policy.terminator == some k) && !policy.stop.contains k
  unfold resynchronize
  dsimp only
  split
  · exact hdropped.shift.resume
  · split
    · exact hdropped.resume
    · exact hdropped.abandon rule

theorem recover_leaves [Node ν] (rule : Rule) {o : Outcome ν} (ho : o.verdict.Leaves o.state) :
    (recover rule o).verdict.Leaves (recover rule o).state := by
  unfold recover
  split
  · rename_i policy hv _
    rw [hv] at ho
    exact resynchronize_leaves rule policy o.node ho
  · exact ho

theorem KeepsTrack.phrase [Node ν] {rule : Rule} {blank : ν} {step : Step ν} (h : KeepsTrack (step blank)) :
    KeepsTrack (phrase rule blank step) :=
  fun _ hs => recover_leaves rule (h _ (hs.attempt (.rule rule)))

/-! ## Rules -/

variable (table)

theorem basicType_keepsTrack : KeepsTrack (basicType table) := by
  refine .phrase fun s hs => ?_
  dsimp only
  split
  · exact hs.shift
  · exact hs.mismatch _

theorem extent_keepsTrack : KeepsTrack extent :=
  .phrase (.cons (.terminal _ _ _ _) (.cons (.terminal _ _ _ _) (.cons (.terminal _ _ _ _) .nil)) _)

theorem dimension_keepsTrack (rule : Rule) : KeepsTrack (dimension rule) := .phrase (.child extent_keepsTrack _ _)

theorem noExtraDimension_keepsTrack (n : TypeSpec) : KeepsTrack (noExtraDimension table n) := by
  intro s hs
  unfold noExtraDimension
  split
  · exact hs.mismatch _
  · exact hs

theorem typeSpec_keepsTrack : KeepsTrack (typeSpec table) :=
  .phrase (.cons (.child (basicType_keepsTrack table) _)
    (.cons (.whenDescends (.cons (.child (dimension_keepsTrack _) _)
      (.cons (.whenDescends (.cons (.child (dimension_keepsTrack _) _) (.cons (noExtraDimension_keepsTrack table) .nil)))
        .nil))) .nil) _)

theorem declaredName_keepsTrack : KeepsTrack declaredName := .terminal _ _ _ _ _

theorem varDecl_keepsTrack : KeepsTrack (varDecl table) :=
  .phrase (.cons (.terminal _ _ _ _) (.cons (.child (typeSpec_keepsTrack table) _)
    (.cons (.child (.separated declaredName_keepsTrack) _) (.cons (.terminal _ _ _ _) .nil))) _)

theorem globalVars_keepsTrack : KeepsTrack (globalVars table) := .phrase (.child (.many (varDecl_keepsTrack table)) _ _)

theorem localVars_keepsTrack : KeepsTrack (localVars table) := .phrase (.child (.many (varDecl_keepsTrack table)) _ _)

theorem expression_keepsTrack : KeepsTrack expression := .phrase (.nil _)

theorem statement_keepsTrack : KeepsTrack statement :=
  .phrase (.cons (.child expression_keepsTrack _) (.cons (.terminal _ _ _ _) .nil) _)

theorem block_keepsTrack : KeepsTrack (block table) :=
  .phrase (.cons (.terminal _ _ _ _) (.cons (.child (.many statement_keepsTrack) _) (.cons (.terminal _ _ _ _) .nil)) _)

theorem paramItem_keepsTrack : KeepsTrack (paramItem table) := by
  have hparam : KeepsTrack (param table) := .cons (.child (basicType_keepsTrack table) _) (.cons (.terminal _ _ _ _) .nil) _
  exact .child hparam _ _

theorem paramList_keepsTrack : KeepsTrack (paramList table) := .phrase (.child (.separated (paramItem_keepsTrack table)) _ _)

theorem functionDecl_keepsTrack : KeepsTrack (functionDecl table) :=
  .phrase (.cons (.terminal _ _ _ _) (.cons (.terminal _ _ _ _) (.cons (.terminal _ _ _ _)
    (.cons (.optional (.child (paramList_keepsTrack table) _)) (.cons (.terminal _ _ _ _)
      (.cons (.child (localVars_keepsTrack table) _) (.cons (.child (block_keepsTrack table) _) .nil)))))) _)

theorem functions_keepsTrack : KeepsTrack (functions table) := .phrase (.child (.many (functionDecl_keepsTrack table)) _ _)

theorem mainBlock_keepsTrack : KeepsTrack (mainBlock table) :=
  .phrase (.cons (.terminal _ _ _ _) (.cons (.child (block_keepsTrack table) _) .nil) _)

/-! ## Programs -/

theorem restart_leaves (n : Program) {m : Mode} (hs : s.Going m) : (restart n s).verdict.Leaves (restart n s).state := by
  have hdropped := hs.dropWhile fun k => !headerRestarts.contains k
  unfold restart
  dsimp only
  split
  · exact hdropped.resume
  · exact hdropped.abandon .start

theorem header_keepsTrack (n : Program) : KeepsTrack (header n) := by
  have hsteps : ∀ n, KeepsTrack (sequence headerSteps n) :=
    .cons (.terminal _ _ _ _) (.cons (.terminal _ _ _ _) (.cons (.terminal _ _ _ _) .nil))
  intro s hs
  have ho := hsteps n s hs
  unfold header
  dsimp only
  split
  · rename_i hv
    rw [hv] at ho
    exact restart_leaves _ ho
  · exact ho

theorem mainStep_keepsTrack (n : Program) : KeepsTrack (mainStep table n) := by
  intro s hs
  have ho := KeepsTrack.child (mainBlock_keepsTrack table) (fun n m => { n with main := m }) n s hs
  unfold mainStep
  dsimp only
  split
  · rename_i hv
    rw [hv] at ho
    exact ho.abandon .main
  · exact ho

theorem nothingLeft_keepsTrack (n : Program) : KeepsTrack (nothingLeft n) := by
  intro s hs
  unfold nothingLeft
  split
  · exact hs
  · exact ((hs.mismatch _).dropWhile _).resume

theorem program_keepsTrack : KeepsTrack (program table) := by
  have hsteps : ∀ n, KeepsTrack (sequence (programSteps table) n) :=
    .cons header_keepsTrack (.cons (.child (globalVars_keepsTrack table) _) (.cons (.child (functions_keepsTrack table) _)
      (.cons (mainStep_keepsTrack table) (.cons nothingLeft_keepsTrack .nil))))
  exact .phrase fun s hs => (hsteps {} s hs).shift

/-! ## All rules -/

/-- A reader without the node that it gives. -/
def erased (reader : Reader ν) : Reader Unit := fun s => ⟨(), (reader s).verdict, (reader s).state⟩

/-- The reader of the phrases of a rule. -/
def readerOf : Rule → Reader Unit
  | .start => erased (program table)
  | .globalVars => erased (globalVars table)
  | .varDecl => erased (varDecl table)
  | .type => erased (typeSpec table)
  | .basicType => erased (basicType table)
  | .typeDim1 => erased (dimension .typeDim1)
  | .typeDim2 => erased (dimension .typeDim2)
  | .dimDecl => erased extent
  | .functions => erased (functions table)
  | .functionDecls => erased (functionDecl table)
  | .paramList => erased (paramList table)
  | .localVars => erased (localVars table)
  | .block => erased (block table)
  | .statement => erased statement
  | .expression => erased expression
  | .main => erased (mainBlock table)

theorem readerOf_keepsTrack (rule : Rule) : KeepsTrack (readerOf table rule) := by
  cases rule with
  | start => exact program_keepsTrack table
  | globalVars => exact globalVars_keepsTrack table
  | varDecl => exact varDecl_keepsTrack table
  | type => exact typeSpec_keepsTrack table
  | basicType => exact basicType_keepsTrack table
  | typeDim1 => exact dimension_keepsTrack .typeDim1
  | typeDim2 => exact dimension_keepsTrack .typeDim2
  | dimDecl => exact extent_keepsTrack
  | functions => exact functions_keepsTrack table
  | functionDecls => exact functionDecl_keepsTrack table
  | paramList => exact paramList_keepsTrack table
  | localVars => exact localVars_keepsTrack table
  | block => exact block_keepsTrack table
  | statement => exact statement_keepsTrack
  | expression => exact expression_keepsTrack
  | main => exact mainBlock_keepsTrack table

/-- A rule with a policy never hands an error on. -/
theorem readerOf_verdict_ne_mismatched {rule : Rule} (hp : rule.resyncPolicy? ≠ none) (s : State) :
    (readerOf table rule s).verdict ≠ .mismatched := by
  cases rule with
  | varDecl | paramList | functionDecls | block | statement => exact phrase_verdict_ne_mismatched hp _ _ s
  | _ => exact absurd rfl hp

/-! ## Repetitions without an end -/

/-- The repetitions in the rules. -/
def repetitions : List (Reader Unit) := [
  erased (many table .moreGlobals (varDecl table)),
  erased (many table .moreLocals (varDecl table)),
  erased (many table .moreFunctions (functionDecl table)),
  erased (many table .moreStatements statement),
  erased (separated table .moreNames declaredName),
  erased (separated table .moreParams (paramItem table))]

theorem repetitions_keepTrack : ∀ reader ∈ repetitions table, KeepsTrack reader := by
  simp only [repetitions, List.forall_mem_cons]
  exact ⟨.many (varDecl_keepsTrack table), .many (varDecl_keepsTrack table), .many (functionDecl_keepsTrack table),
    .many statement_keepsTrack, .separated declaredName_keepsTrack, .separated (paramItem_keepsTrack table), nofun⟩

/-- From one state to another by the turns of a repetition up to one in which nothing was consumed. -/
def Stalls (reader : Reader ν) (s s' : State) : Prop := (reader s).verdict = .stalled ∧ (reader s).state = s'

/-- A repetition that is begun again each time it stalls is on track every time. -/
theorem KeepsTrack.going_of_stalls {reader : Reader ν} (h : KeepsTrack reader) (hs : s.Going .normal) {s' : State}
    (hstalls : Relation.ReflTransGen (Stalls reader) s s') : s'.Going .normal := by
  induction hstalls with
  | refl => exact hs
  | tail _ hlast ih =>
    obtain ⟨hv, rfl⟩ := hlast
    have ho := h _ ih
    rwa [hv] at ho

end QuillFrontEnd.Parser

namespace QuillFrontEnd

open QuillFrontEnd.Parser

/-- Whatever the table holds, a parse is on track whenever something is set out to do, and every error is reported. A rule that is
begun on track ends where its verdict says; with a policy, it ends on track or gives up, unless it stays in a repetition for ever. A
repetition that does not end is on track before each of its turns: it is begun again however often it has stalled. In the trace of a
whole parse everything is set out to do on track and before giving up, and no problem is left unreported. -/
theorem parse_keeps_track (table : Table) :
    (∀ rule s, s.Going .normal →
      (readerOf table rule s).verdict.Leaves (readerOf table rule s).state ∧
        (rule.resyncPolicy? ≠ none →
          ((readerOf table rule s).verdict = .matched ∧ (readerOf table rule s).state.mode = .normal) ∨
            ((readerOf table rule s).verdict = .outOfInput ∧ (readerOf table rule s).state.GivenUp) ∨
            (readerOf table rule s).verdict = .stalled)) ∧
      (∀ reader ∈ repetitions table, ∀ s s', s.Going .normal → Relation.ReflTransGen (Stalls reader) s s' →
        s'.Going .normal ∧ (reader s').verdict.Leaves (reader s').state) ∧
      ∀ ts : TokenList, Disciplined (parseWith table ts).trace := by
  refine ⟨fun rule s hs => ?_, fun reader hmem s s' hs hstalls => ?_, fun ts => ?_⟩
  · have ho := readerOf_keepsTrack table rule s hs
    refine ⟨ho, fun hp => ?_⟩
    have hne := readerOf_verdict_ne_mismatched table hp s
    cases hv : (readerOf table rule s).verdict with
    | matched =>
      rw [hv] at ho
      exact .inl ⟨rfl, ho.mode⟩
    | mismatched => exact absurd hv hne
    | outOfInput =>
      rw [hv] at ho
      exact .inr (.inl ⟨rfl, ho⟩)
    | stalled => exact .inr (.inr rfl)
  · have hkeeps := repetitions_keepTrack table reader hmem
    have hs' := hkeeps.going_of_stalls hs hstalls
    exact ⟨hs', hkeeps s' hs'⟩
  · exact (program_keepsTrack table _ (State.going_initial ts)).disciplined

/-- With a table that takes a function for a declaration, the declarations of a program that starts with a function never end. Each
of them is reported and given up in front of the function, and the next one is begun on track. -/
theorem parse_keeps_track_endlessly :
    let table := Table.standard.set .moreGlobals .function (.descend .varDecl)
    let ts := TokenList.ofKinds [.function, .identifier]
    let s := State.initial ts
    let reader := erased (many table .moreGlobals (varDecl table))
    (parseWith table ts).verdict = .stalled ∧ Disciplined (parseWith table ts).trace ∧
      s.Going .normal ∧ Stalls reader s (reader s).state ∧ reader ∈ repetitions table ∧
      (reader s).state.Going .normal ∧ (reader (reader s).state).verdict.Leaves (reader (reader s).state).state ∧
      Rule.varDecl.resyncPolicy? ≠ none ∧ (readerOf table .varDecl s).verdict = .matched ∧
      (readerOf table .varDecl s).state.mode = .normal := by
  intro table ts s reader
  obtain ⟨hrules, hrepeated, htraces⟩ := parse_keeps_track table
  have hs : s.Going .normal := State.going_initial ts
  have hreader : reader ∈ repetitions table := List.mem_cons_self
  have hstalls : Stalls reader s (reader s).state := ⟨by decide +kernel, rfl⟩
  have hpolicy : Rule.varDecl.resyncPolicy? ≠ none := by decide
  have hmatched : (readerOf table .varDecl s).verdict = .matched := by decide +kernel
  have hnormal : (readerOf table .varDecl s).state.mode = .normal := by
    rcases (hrules .varDecl s hs).2 hpolicy with ⟨-, hnormal⟩ | ⟨houtOfInput, -⟩ | hstalled
    · exact hnormal
    · cases hmatched.symm.trans houtOfInput
    · cases hmatched.symm.trans hstalled
  obtain ⟨hagain, hleaves⟩ := hrepeated reader hreader s _ hs (.single hstalls)
  exact ⟨by decide +kernel, htraces ts, hs, hstalls, hreader, hagain, hleaves, hpolicy, hmatched, hnormal⟩

end QuillFrontEnd
