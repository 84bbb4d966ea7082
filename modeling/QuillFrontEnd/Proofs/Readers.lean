import QuillFrontEnd.Proofs.Run

/-!
# What the parts of a reader do

Each function that readers are made of makes a run, and its verdict fits the state that it ends in. There is one statement for
each function, which says all that the statements about rules need of it; none of them depends on what the table holds.
-/

namespace QuillFrontEnd

/-- The kind that closes a phrase of a rule after an error. -/
def Rule.terminator? (rule : Rule) : Option TokenKind := rule.resyncPolicy?.bind ResyncPolicy.terminator

namespace Parser

variable {ν μ : Type} {s : State}

/-- A verdict that fits a state: the parse is on track after a match and off its track after an error, it gives up only at the end
of the input, and no repetition goes on for ever. -/
def Verdict.Fits : Verdict → State → Prop
  | .matched, s => s.mode = .normal
  | .mismatched, s => s.mode = .recovering
  | .outOfInput, s => s.cursor.rest = []
  | .stalled, _ => False

/-- An outcome that is reached by a run with the given events. -/
structure Reaches (s : State) (es : List Event) (o : Outcome ν) : Prop where
  run : Run s es o.state
  fits : o.verdict.Fits o.state

namespace Reaches

variable {es fs : List Event} {o : Outcome ν}

/-- After a match the parse can go on. -/
theorem ready (h : Reaches s es o) (hs : s.Ready) (hv : o.verdict = .matched) : o.state.Ready := by
  have hf := h.fits
  rw [hv] at hf
  exact ⟨h.run.sealed hs.toSealed, hf⟩

theorem recovering (h : Reaches s es o) (hv : o.verdict = .mismatched) : o.state.mode = .recovering := by
  have hf := h.fits
  rw [hv] at hf
  exact hf

theorem ne_stalled (h : Reaches s es o) : o.verdict ≠ .stalled := by
  intro hv
  have hf := h.fits
  rw [hv] at hf
  exact hf

/-- A parse that neither goes on nor hands an error on has come to the end of the input. -/
theorem ended (h : Reaches s es o) (h1 : o.verdict ≠ .matched) (h2 : o.verdict ≠ .mismatched) :
    o.state.cursor.rest = [] := by
  have hf := h.fits
  cases hv : o.verdict with
  | matched => exact absurd hv h1
  | mismatched => exact absurd hv h2
  | outOfInput =>
    rw [hv] at hf
    exact hf
  | stalled => exact absurd hv h.ne_stalled

theorem trans {t : State} (h : Run s es t) (h' : Reaches t fs o) : Reaches s (es ++ fs) o := ⟨h.trans h'.run, h'.fits⟩

/-- A token that does not fit is reported, and the parse is off its track. -/
theorem mismatch (n : ν) (hs : s.Ready) {d : Diagnostic} (hd : d.Blames s.lookahead) :
    Reaches s [.report d] (⟨n, .mismatched, s.mismatch d⟩ : Outcome ν) :=
  ⟨.ofMove (.mismatch d hs.normal hd), s.mode_mismatch d⟩

end Reaches

/-! ## Sequences -/

theorem sequence_cons_of_matched {step : Step ν} (steps : List (Step ν)) {n : ν} (h : (step n s).verdict = .matched) :
    sequence (step :: steps) n s = sequence steps (step n s).node (step n s).state := by
  rw [sequence, h]

theorem sequence_cons_of_ne_matched {step : Step ν} (steps : List (Step ν)) {n : ν} (h : (step n s).verdict ≠ .matched) :
    sequence (step :: steps) n s = step n s := by
  rw [sequence]
  split
  · contradiction
  · rfl

/-- A single step in a sequence is that step. -/
theorem sequence_singleton (step : Step ν) (n : ν) : sequence [step] n = step n := by
  funext s
  by_cases h : (step n s).verdict = .matched
  · rw [sequence_cons_of_matched [] h, sequence, ← h]
  · rw [sequence_cons_of_ne_matched [] h]

/-- Steps that hand no error on hand none on together. -/
theorem sequence_verdict_ne_mismatched {steps : List (Step ν)}
    (h : ∀ step ∈ steps, ∀ n s, (step n s).verdict ≠ .mismatched) (n : ν) (s : State) :
    (sequence steps n s).verdict ≠ .mismatched := by
  induction steps generalizing n s with
  | nil => exact nofun
  | cons step steps ih =>
    rw [List.forall_mem_cons] at h
    by_cases hv : (step n s).verdict = .matched
    · rw [sequence_cons_of_matched steps hv]
      exact ih h.2 _ _
    · rw [sequence_cons_of_ne_matched steps hv]
      exact h.1 n s

/-! ## Dropping tokens -/

/-- Tokens are dropped, and nothing else is done, up to the end of the input or to a token that does not pass the test. -/
theorem run_dropAhead (test : TokenKind → Bool) (ts : List Token) (s : State) (hts : s.cursor.rest = ts)
    (hm : s.mode = .recovering) :
    ∃ es, Run s es (s.dropWhile test) ∧ shifts es = [] ∧ (s.dropWhile test).mode = .recovering ∧
      ((s.dropWhile test).cursor.rest = [] ∨ test (s.dropWhile test).nextKind = false) := by
  unfold State.dropWhile
  rw [hts]
  induction ts generalizing s with
  | nil => exact ⟨[], .refl s, rfl, hm, .inl hts⟩
  | cons t ts ih =>
    have hne : s.cursor.rest ≠ [] := by simp [hts]
    have hcons := State.rest_eq_lookahead_cons hne
    rw [hts, List.cons.injEq] at hcons
    rw [State.dropAhead]
    by_cases ht : test t.kind = true
    · rw [if_pos ht]
      obtain ⟨es, hr, h1, h2, h3⟩ := ih s.drop hcons.2.symm hm
      exact ⟨_, .head (.drop hm hne) hr, h1, h2, h3⟩
    · rw [if_neg ht]
      refine ⟨[], .refl s, rfl, hm, .inr ?_⟩
      rw [State.nextKind, ← hcons.1]
      simpa using ht

theorem run_dropWhile (test : TokenKind → Bool) (hm : s.mode = .recovering) :
    ∃ es, Run s es (s.dropWhile test) ∧ shifts es = [] ∧ (s.dropWhile test).mode = .recovering ∧
      ((s.dropWhile test).cursor.rest = [] ∨ test (s.dropWhile test).nextKind = false) :=
  run_dropAhead test _ s rfl hm

/-! ## Terminals -/

/-- A terminal that is next is taken. -/
theorem terminal_of_nextKind (rule : Rule) {kind : TokenKind} (follow : KindSet) (put : ν → Terminal → ν) (n : ν)
    (h : s.nextKind = kind) :
    terminal rule kind follow put n s =
      ⟨put n (.ofToken s.lookahead), .matched, (s.attempt (.terminal kind)).shift⟩ := by
  simp [terminal, readTerminal, h]

/-- A terminal is taken from the input, or put in, or missed; the parse is quiet only if it is taken. -/
theorem terminal_reaches (rule : Rule) {kind : TokenKind} (hk : kind ≠ .endOfInput) (follow : KindSet)
    (put : ν → Terminal → ν) (n : ν) (hs : s.Ready) :
    ∃ es, Reaches s es (terminal rule kind follow put n s) ∧
      ((s.nextKind = kind ∧ Quiet es ∧ shifts es = [s.lookahead] ∧
          (terminal rule kind follow put n s).node = put n (.ofToken s.lookahead) ∧
          (terminal rule kind follow put n s).verdict = .matched) ∨
        (¬Quiet es ∧ shifts es = [] ∧ ∃ t : Token,
          (terminal rule kind follow put n s).node = put n (.inserted kind t) ∧
          (terminal rule kind follow put n s).verdict = .matched) ∨
        (s.nextKind ≠ kind ∧ s.nextKind ∉ follow ∧ ¬Quiet es ∧ shifts es = [] ∧
          (terminal rule kind follow put n s).node = n ∧
          (terminal rule kind follow put n s).verdict = .mismatched)) := by
  have ha : Run s [.attempt (.terminal kind) .normal] (s.attempt (.terminal kind)) :=
    .ofMove (.attempt _ hs.normal)
  have hs' := hs.attempt (.terminal kind)
  unfold terminal readTerminal
  by_cases h1 : s.nextKind = kind
  · have hne : (s.attempt (.terminal kind)).cursor.rest ≠ [] := hs'.rest_ne_nil (by rw [State.nextKind_attempt, h1]; exact hk)
    simp only [State.nextKind_attempt, h1, if_true]
    exact ⟨_, ⟨ha.trans (.ofMove (.shift hs'.normal hne)), hs'.normal⟩, .inl ⟨trivial, by simp, by simp, rfl, trivial⟩⟩
  · simp only [State.nextKind_attempt, h1, if_false]
    by_cases h2 : s.nextKind ∈ follow
    · simp only [h2, if_true]
      exact ⟨_, ⟨ha.trans (.ofMove (.insert kind rule hs'.normal)), hs'.normal⟩,
        .inr (.inl ⟨by simp, by simp, _, rfl, trivial⟩)⟩
    · simp only [h2, if_false]
      exact ⟨_, .trans ha (.mismatch n hs' (Diagnostic.blames_of_code (by decide) _ _ _ _)),
        .inr (.inr ⟨h1, not_false, by simp, by simp, trivial, trivial⟩)⟩

/-! ## Decisions -/

/-- Where the next token is refused, it is reported and tokens are dropped up to one that is not refused; otherwise nothing is
done. -/
theorem run_dropRefused (table : Table) (d : Decision) (hs : s.Ready) :
    ∃ es, Run s es (dropRefused table d s) ∧ shifts es = [] ∧ (Quiet es → dropRefused table d s = s) ∧
      (table.action d (dropRefused table d s).nextKind = .reject → (dropRefused table d s).cursor.rest = []) := by
  unfold dropRefused
  split
  · rename_i h
    rw [Bool.and_eq_true, Bool.not_eq_true'] at h
    have hb : (skippedToken table d s.lookahead).Blames s.lookahead := Diagnostic.blames_of_code (by decide) _ _ _ _
    obtain ⟨es, hr, h1, -, h2⟩ := run_dropWhile (table.refuses d) (s.mode_mismatch (skippedToken table d s.lookahead))
    refine ⟨_, .head (.mismatch _ hs.normal hb) hr, by simpa using h1, by simp, fun hrej => ?_⟩
    rcases h2 with h2 | h2
    · exact h2
    · simp [Table.refuses, hrej] at h2
  · rename_i h
    refine ⟨[], .refl s, rfl, fun _ => rfl, fun hrej => hs.isEnd_lookahead_iff.1 ?_⟩
    simpa [Table.refuses, hrej] using h

/-- A decision goes by the entry of the table for the first token that is not refused. -/
theorem choose_eq (table : Table) (d : Decision) (s : State) :
    choose table d s =
      if table.action d (dropRefused table d (s.attempt (.decision d))).nextKind = .reject then
        (none, (dropRefused table d (s.attempt (.decision d))).abandon d.rule)
      else (some (table.action d (dropRefused table d (s.attempt (.decision d))).nextKind),
        (dropRefused table d (s.attempt (.decision d))).resume) := by
  unfold choose
  split <;> simp_all

/-- A decision that is made is the entry of the table for the token that is next after it. -/
theorem action_of_choose {table : Table} {d : Decision} {a : Action} {t : State} (h : choose table d s = (some a, t)) :
    table.action d t.nextKind = a ∧ a ≠ .reject := by
  rw [choose_eq] at h
  split at h
  · cases h
  · rename_i hrej
    cases h
    exact ⟨rfl, hrej⟩

/-- A decision is made on track, by the entry of the table for the next token; it fails only at the end of the input. Nothing is
taken into the tree, and if all was quiet the next token is still the same. -/
theorem run_choose (table : Table) (d : Decision) (hs : s.Ready) :
    ∃ es, Run s es (choose table d s).2 ∧ shifts es = [] ∧
      ((choose table d s).1 = none → (choose table d s).2.cursor.rest = [] ∧ ¬Quiet es) ∧
      (∀ a, (choose table d s).1 = some a → (choose table d s).2.Ready ∧
        table.action d (choose table d s).2.nextKind = a ∧ a ≠ .reject ∧
        (Quiet es → (choose table d s).2 = s.attempt (.decision d))) := by
  have hs' := hs.attempt (.decision d)
  have ha : Run s [.attempt (.decision d) .normal] (s.attempt (.decision d)) := .ofMove (.attempt _ hs.normal)
  obtain ⟨es, hr, h1, h2, h3⟩ := run_dropRefused table d hs'
  rw [choose_eq]
  generalize dropRefused table d (s.attempt (.decision d)) = t at hr h2 h3
  have hr' := ha.trans hr
  by_cases hrej : table.action d t.nextKind = .reject
  · rw [if_pos hrej]
    exact ⟨_, hr'.trans (.ofMove (.abandon d.rule (h3 hrej))), by simp [h1], fun _ => ⟨h3 hrej, by simp⟩, nofun⟩
  · rw [if_neg hrej]
    refine ⟨_, hr'.trans (.ofMove (.resume t)), by simp [h1], nofun, ?_⟩
    rintro a ⟨⟩
    refine ⟨⟨hr'.trans (.ofMove (.resume t)) |>.sealed hs.toSealed, rfl⟩, rfl, hrej, fun hq => ?_⟩
    have hq' : Quiet es := by simpa using hq
    rw [h2 hq']
    exact State.resume_of_normal hs'.normal

/-! ## Going on after an error -/

/-- No phrase is closed by the end of the input. -/
theorem terminator?_ne_endOfInput (rule : Rule) : rule.terminator? ≠ some .endOfInput := by cases rule <;> decide

/-- After an error a rule closes its phrase with a token, or leaves the phrase as it is, and is on track again; or it gives up. -/
theorem resynchronize_reaches [Node ν] (rule : Rule) (policy : ResyncPolicy) (n : ν) (hs : s.Sealed)
    (hm : s.mode = .recovering) (hend : policy.terminator ≠ some .endOfInput) :
    ∃ es, Reaches s es (resynchronize rule policy n s) ∧
      (resynchronize rule policy n s).verdict ≠ .mismatched ∧
      ((∃ t k, policy.terminator = some k ∧ (resynchronize rule policy n s).node = Node.close (.ofToken t) n ∧
          shifts es = [t]) ∨
        ((resynchronize rule policy n s).node = n ∧ shifts es = [])) := by
  obtain ⟨es, hr, h1, h2, h3⟩ :=
    run_dropWhile (fun k => !(policy.terminator == some k) && !policy.stop.contains k) hm
  have hsealed := hr.sealed hs
  unfold resynchronize
  generalize s.dropWhile (fun k => !(policy.terminator == some k) && !policy.stop.contains k) = t at hr h2 h3 hsealed
  by_cases hterm : policy.terminator = some t.nextKind
  · have hne : t.cursor.rest ≠ [] := hsealed.rest_ne_nil (fun hk => hend (hk ▸ hterm))
    simp only [if_pos hterm]
    exact ⟨_, ⟨hr.trans (.ofMove (.close h2 hne)), rfl⟩, nofun,
      .inl ⟨_, _, hterm, rfl, by simp [h1]⟩⟩
  · simp only [if_neg hterm]
    by_cases hstop : t.nextKind ∈ policy.stop
    · simp only [if_pos hstop]
      exact ⟨_, ⟨hr.trans (.ofMove (.resume _)), rfl⟩, nofun, .inr ⟨trivial, by simp [h1]⟩⟩
    · simp only [if_neg hstop]
      have hended : t.cursor.rest = [] := by
        rcases h3 with h3 | h3
        · exact h3
        · simp [hterm, KindSet.mem_iff.not.1 hstop] at h3
      exact ⟨_, ⟨hr.trans (.ofMove (.abandon rule hended)), hended⟩, nofun, .inr ⟨trivial, by simp [h1]⟩⟩

/-- A rule without a policy leaves errors to the rules around it. -/
theorem recover_of_no_policy [Node ν] {rule : Rule} (hp : rule.resyncPolicy? = none) (o : Outcome ν) :
    recover rule o = o := by
  unfold recover
  rw [hp]
  split
  · contradiction
  · rfl

/-- A rule with a policy never hands an error on. -/
theorem recover_verdict_ne_mismatched [Node ν] {rule : Rule} (hp : rule.resyncPolicy? ≠ none) (o : Outcome ν) :
    (recover rule o).verdict ≠ .mismatched := by
  unfold recover
  split
  · unfold resynchronize
    dsimp only
    split
    · exact nofun
    · split <;> exact nofun
  · rename_i h
    intro hv
    cases hpol : rule.resyncPolicy? with
    | none => exact hp hpol
    | some policy => exact h policy hv hpol

/-- What a rule does at the end of its phrase: nothing, or what is needed to go on after an error. -/
theorem recover_reaches [Node ν] (rule : Rule) {es : List Event} {o : Outcome ν} (h : Reaches s es o) (hs : s.Sealed) :
    ∃ fs, Reaches s (es ++ fs) (recover rule o) ∧
      ((recover rule o = o ∧ fs = []) ∨
        (o.verdict = .mismatched ∧
          ((∃ t k, rule.terminator? = some k ∧ (recover rule o).node = Node.close (.ofToken t) o.node ∧
              shifts fs = [t]) ∨
            ((recover rule o).node = o.node ∧ shifts fs = [])))) := by
  unfold recover
  split
  · rename_i policy hv hpol
    have hterm : rule.terminator? = policy.terminator := by simp [Rule.terminator?, hpol]
    obtain ⟨fs, hr, -, hn⟩ := resynchronize_reaches rule policy o.node (h.run.sealed hs) (h.recovering hv)
      (by rw [← hterm]; exact terminator?_ne_endOfInput rule)
    rw [hterm]
    exact ⟨fs, .trans h.run hr, .inr ⟨hv, hn⟩⟩
  · exact ⟨[], by rwa [List.append_nil], .inl ⟨rfl, rfl⟩⟩

/-- After an error in its header, a program goes on or the parse gives up, and the node stays as it is. -/
theorem restart_reaches (n : Program) (hm : s.mode = .recovering) :
    ∃ es, Reaches s es (restart n s) ∧ (restart n s).verdict ≠ .mismatched ∧ (restart n s).node = n ∧ shifts es = [] := by
  obtain ⟨es, hr, h1, h2, h3⟩ := run_dropWhile (fun k => !headerRestarts.contains k) hm
  unfold restart
  generalize s.dropWhile (fun k => !headerRestarts.contains k) = t at hr h2 h3
  by_cases hk : t.nextKind ∈ headerRestarts
  · simp only [if_pos hk]
    exact ⟨_, ⟨hr.trans (.ofMove (.resume _)), rfl⟩, nofun, trivial, by simp [h1]⟩
  · simp only [if_neg hk]
    have hended : t.cursor.rest = [] := by
      rcases h3 with h3 | h3
      · exact h3
      · simp [KindSet.mem_iff.not.1 hk] at h3
    exact ⟨_, ⟨hr.trans (.ofMove (.abandon .start hended)), hended⟩, nofun, trivial, by simp [h1]⟩

/-- After the main block the rest of the input is passed over, and that is quiet only if there is none. -/
theorem nothingLeft_reaches (n : Program) (hs : s.Ready) :
    ∃ es, Reaches s es (nothingLeft n s) ∧ (nothingLeft n s).node = n ∧ (nothingLeft n s).verdict = .matched ∧
      (nothingLeft n s).state.cursor.rest = [] ∧ shifts es = [] ∧ (Quiet es → s.cursor.rest = []) := by
  unfold nothingLeft
  split
  · rename_i hend
    have hnil := hs.isEnd_lookahead_iff.1 hend
    exact ⟨[], ⟨.refl s, hs.normal⟩, rfl, rfl, hnil, rfl, fun _ => hnil⟩
  · have hb : (trailingInput s.lookahead).Blames s.lookahead := Diagnostic.blames_of_code (by decide) _ _ _ _
    obtain ⟨es, hr, h1, -, h2⟩ := run_dropWhile (fun _ => true) (s.mode_mismatch (trailingInput s.lookahead))
    refine ⟨_, ⟨.head (.mismatch _ hs.normal hb) (hr.trans (.ofMove (.resume _))), rfl⟩, rfl, rfl, ?_, by simp [h1],
      by simp⟩
    simpa using h2

/-! ## Verdicts -/

theorem phrase_verdict_ne_mismatched [Node ν] {rule : Rule} (hp : rule.resyncPolicy? ≠ none) (blank : ν) (step : Step ν)
    (s : State) : (phrase rule blank step s).verdict ≠ .mismatched :=
  recover_verdict_ne_mismatched hp _

/-- A repetition of phrases that hand no error on hands none on. -/
theorem many_verdict_ne_mismatched {table : Table} {d : Decision} {reader : Reader μ}
    (h : ∀ s, (reader s).verdict ≠ .mismatched) (s : State) : (many table d reader s).verdict ≠ .mismatched := by
  fun_induction many table d reader s with
  | case1 | case3 | case5 => exact nofun
  | case2 s r t hc o hv hlt others ih => exact ih
  | case4 s r t hc o hv => exact h t

/-- After a repetition the table says to leave it at the next token. -/
theorem action_of_many {table : Table} {d : Decision} {reader : Reader μ} (s : State)
    (h : (many table d reader s).verdict = .matched) :
    table.action d (many table d reader s).state.nextKind ≠ .reject ∧
      ∀ r, table.action d (many table d reader s).state.nextKind ≠ .descend r := by
  fun_induction many table d reader s with
  | case1 | case3 => cases h
  | case2 s r t hc o hv hlt others ih => exact ih h
  | case4 s r t hc o hv => exact absurd h hv
  | case5 s a t hleave hc =>
    obtain ⟨ha, hrej⟩ := action_of_choose hc
    refine ⟨by rw [ha]; exact hrej, fun r hr => hleave r ?_⟩
    rw [← ha, hr]

end Parser

end QuillFrontEnd
