import QuillFrontEnd.Proofs.Handling

/-!
# Damaged phrases

What the readers of the phrases that recover by themselves do in front of arbitrary tokens between the delimiters of the phrase: a
declaration comes to an end behind its semicolon, a block behind its closing brace, the header of a program before the first
declaration, function or block, and a function before the next one or before the main block.
-/

namespace QuillFrontEnd

namespace Parser

variable {ν μ : Type} {s : State} {ok : Token → Prop} {damage xs : List Token} {x : Token}

/-! ## Sequences -/

theorem sequence_append_of_matched {steps steps' : List (Step ν)} {n : ν} (h : (sequence steps n s).verdict = .matched) :
    sequence (steps ++ steps') n s = sequence steps' (sequence steps n s).node (sequence steps n s).state := by
  induction steps generalizing n s with
  | nil => rfl
  | cons step steps ih =>
    by_cases hv : (step n s).verdict = .matched
    · rw [sequence_cons_of_matched steps hv] at h ⊢
      rw [List.cons_append, sequence_cons_of_matched _ hv, ih h]
    · rw [sequence_cons_of_ne_matched steps hv] at h
      exact absurd h hv

theorem sequence_append_of_ne_matched {steps steps' : List (Step ν)} {n : ν} (h : (sequence steps n s).verdict ≠ .matched) :
    sequence (steps ++ steps') n s = sequence steps n s := by
  induction steps generalizing n s with
  | nil => exact absurd rfl h
  | cons step steps ih =>
    by_cases hv : (step n s).verdict = .matched
    · rw [sequence_cons_of_matched steps hv] at h ⊢
      rw [List.cons_append, sequence_cons_of_matched _ hv, ih h]
    · rw [List.cons_append, sequence_cons_of_ne_matched _ hv, sequence_cons_of_ne_matched _ hv]

/-- The state after the terminal with which a phrase starts. -/
def State.entered (s : State) (rule : Rule) (kind : TokenKind) : State :=
  ((s.attempt (.rule rule)).attempt (.terminal kind)).shift

/-- A phrase whose first terminal is next takes it and goes on with the other steps. -/
theorem phrase_of_nextKind [Node ν] {rule rule' : Rule} {blank : ν} {kind : TokenKind} {follow : KindSet}
    {put : ν → Terminal → ν} {steps : List (Step ν)} (h : s.nextKind = kind) :
    let o := recover rule (sequence steps (put blank (.ofToken s.lookahead)) (s.entered rule kind))
    ∃ span, phrase rule blank (sequence (terminal rule' kind follow put :: steps)) s =
      ⟨Node.withSpan span o.node, o.verdict, o.state⟩ := by
  have hnext : (s.attempt (.rule rule)).nextKind = kind := h
  unfold phrase
  rw [sequence, terminal_of_nextKind rule' follow put blank hnext]
  exact ⟨_, rfl⟩

/-- The run to that state passes the terminal, quietly. -/
theorem run_entered (rule : Rule) {kind : TokenKind} (hs : s.Ready) (hend : kind ≠ .endOfInput) (h : s.nextKind = kind) :
    ∃ es, Run s es (s.entered rule kind) ∧ Quiet es ∧ passes es = [s.lookahead] ∧ (s.entered rule kind).Ready := by
  have hs' := (hs.attempt (.rule rule)).attempt (.terminal kind)
  have hne : ((s.attempt (.rule rule)).attempt (.terminal kind)).cursor.rest ≠ [] := hs'.rest_ne_nil (by simp [h, hend])
  have hrun := Run.head (.attempt (.rule rule) hs.normal) (.head (.attempt (.terminal kind) hs.normal) (.ofMove (.shift hs.normal hne)))
  exact ⟨_, hrun, by simp, by simp, hrun.sealed hs.toSealed, hs.normal⟩

/-- Such a phrase is handled if the other steps are, after what its rule does to recover. -/
theorem passing_phrase_of_nextKind [Node ν] {rule rule' : Rule} {blank : ν} {kind : TokenKind} {follow : KindSet}
    {put : ν → Terminal → ν} {steps : List (Step ν)} {ts : List Token} (hs : s.Ready) (hend : kind ≠ .endOfInput)
    (hnext : s.nextKind = kind)
    (h : Passing ok (fun _ => True) (s.entered rule kind) ts
      (recover rule (sequence steps (put blank (.ofToken s.lookahead)) (s.entered rule kind)))) :
    Passing ok (fun _ => True) s (s.lookahead :: ts) (phrase rule blank (sequence (terminal rule' kind follow put :: steps)) s) := by
  obtain ⟨es, hr, hq, hes, -⟩ := run_entered rule hs hend hnext
  obtain ⟨span, hphrase⟩ : ∃ span, phrase rule blank (sequence (terminal rule' kind follow put :: steps)) s =
      ⟨Node.withSpan span _, _, _⟩ := phrase_of_nextKind hnext
  rw [hphrase]
  have hentered := Passing.trans hr (.of_quiet hq) h
  rw [hes] at hentered
  exact hentered.map rfl rfl fun _ => trivial

/-! ## Recovering -/

/-- A kind of token that a rule drops when it recovers. -/
def Dropped (policy : ResyncPolicy) (k : TokenKind) : Prop := k ∉ policy.stop ∧ policy.terminator ≠ some k

theorem dropped_iff {policy : ResyncPolicy} {k : TokenKind} :
    Dropped policy k ↔ (!(policy.terminator == some k) && !policy.stop.contains k) = true := by
  simp [Dropped, KindSet.mem_iff, and_comm]

theorem recover_of_mismatched [Node ν] {rule : Rule} {policy : ResyncPolicy} {o : Outcome ν} (hv : o.verdict = .mismatched)
    (hp : rule.resyncPolicy? = some policy) : recover rule o = resynchronize rule policy o.node o.state := by
  unfold recover
  rw [hv, hp]

/-- After an error, a phrase is closed by its terminator if all tokens before it are dropped. -/
theorem resynchronize_of_terminator [Node ν] (rule : Rule) {policy : ResyncPolicy} (n : ν) (hs : s.Sealed)
    (hm : s.mode = .recovering) (ha : s.ahead = damage ++ x :: xs) (hdamage : ∀ t ∈ damage, Dropped policy t.kind)
    (hx : policy.terminator = some x.kind) (hend : x.kind ≠ .endOfInput) :
    ∃ es, Reaches s es (resynchronize rule policy n s) ∧ (resynchronize rule policy n s).verdict = .matched ∧
      passes es = damage ++ [x] := by
  obtain ⟨es, hr, rfl, -, ht⟩ := run_dropWhile_of_ahead (fun k => !(policy.terminator == some k) && !policy.stop.contains k)
    hm ha (fun t h => dropped_iff.1 (hdamage t h)) (by simp [hx])
  obtain ⟨-, -, -, hm', -⟩ := run_dropWhile (fun k => !(policy.terminator == some k) && !policy.stop.contains k) hm
  unfold resynchronize
  generalize s.dropWhile (fun k => !(policy.terminator == some k) && !policy.stop.contains k) = t at hr ht hm'
  have hnext := nextKind_of_ahead ht
  have hterm : policy.terminator = some t.nextKind := by rw [hx, hnext]
  have hne : t.cursor.rest ≠ [] := (hr.sealed hs).rest_ne_nil (hnext ▸ hend)
  simp only [if_pos hterm]
  exact ⟨_, ⟨hr.trans (.ofMove (.close hm' hne)), rfl⟩, trivial,
    by simp [State.lookahead_of_ahead ht]⟩

/-- After an error, a rule ends in front of a stop token if all tokens before it are dropped, and leaves its node as it is. -/
theorem resynchronize_of_stop [Node ν] (rule : Rule) {policy : ResyncPolicy} (n : ν) (hm : s.mode = .recovering)
    (ha : s.ahead = damage ++ x :: xs) (hdamage : ∀ t ∈ damage, Dropped policy t.kind) (hx : x.kind ∈ policy.stop)
    (hx' : policy.terminator ≠ some x.kind) :
    ∃ es, Reaches s es (resynchronize rule policy n s) ∧ (resynchronize rule policy n s).verdict = .matched ∧
      passes es = damage ∧ reports es = [] ∧ (resynchronize rule policy n s).node = n := by
  obtain ⟨es, hr, rfl, hreports, ht⟩ := run_dropWhile_of_ahead (fun k => !(policy.terminator == some k) && !policy.stop.contains k)
    hm ha (fun t h => dropped_iff.1 (hdamage t h)) (by simp [KindSet.mem_iff.1 hx])
  unfold resynchronize
  generalize s.dropWhile (fun k => !(policy.terminator == some k) && !policy.stop.contains k) = t at hr ht
  have hnext := nextKind_of_ahead ht
  simp only [hnext, if_neg hx', if_pos hx]
  exact ⟨_, ⟨hr.trans (.ofMove (.resume _)), rfl⟩, trivial, by simp, by simp [hreports], trivial⟩

/-! ## Declarations -/

/-- A terminal that is not next, and may not be put in, is an error. -/
theorem terminal_of_notMem (rule : Rule) {kind : TokenKind} {follow : KindSet} (put : ν → Terminal → ν) (n : ν) (hs : s.Ready)
    (h : s.nextKind ≠ kind) (hfollow : s.nextKind ∉ follow) :
    ∃ es, Reaches s es (terminal rule kind follow put n s) ∧ (terminal rule kind follow put n s).verdict = .mismatched ∧
      passes es = [] := by
  have ha : Run s [.attempt (.terminal kind) .normal] (s.attempt (.terminal kind)) := .ofMove (.attempt _ hs.normal)
  unfold terminal readTerminal
  simp only [State.nextKind_attempt, h, if_false, hfollow]
  exact ⟨_, .trans ha (.mismatch n (hs.attempt _) (Diagnostic.blames_of_code (by decide) _ _ _ _)), trivial, by simp⟩

/-- In front of a terminal that steps before it cannot pass, and tokens before which it may not be put in: either all is read up to
the terminal, or there is an error in front of it. -/
theorem sequence_up_to_terminal {K : TokenKind → Prop} {steps : List (Step ν)} {n : ν} (rule : Rule) {kind : TokenKind}
    {follow : KindSet} (put : ν → Terminal → ν) (hs : s.Ready) (hsteps : StaysIn K (sequence steps n)) (hkind : ¬K kind)
    (hend : kind ≠ .endOfInput) (ha : s.ahead = damage ++ x :: xs) (hx : x.kind = kind)
    (hdamage : ∀ t ∈ damage, t.kind ≠ kind ∧ t.kind ∉ follow) :
    ∃ es, Reaches s es (sequence (steps ++ [terminal rule kind follow put]) n s) ∧
      ((sequence (steps ++ [terminal rule kind follow put]) n s).verdict = .matched ∧ passes es = damage ++ [x] ∨
        (sequence (steps ++ [terminal rule kind follow put]) n s).verdict = .mismatched ∧ ∃ us, damage = passes es ++ us) := by
  obtain ⟨es, hr, hK⟩ := hsteps s hs
  obtain ⟨us, hus, hahead⟩ := exists_of_stays hr.run hK ha (hx ▸ hkind)
  have hne := (hr.run.sealed hs.toSealed).rest_ne_nil_of_ahead hahead (hx ▸ hend)
  by_cases hv : (sequence steps n s).verdict = .matched
  · have hready := hr.ready hs hv
    rw [sequence_append_of_matched hv, sequence_singleton]
    cases us with
    | nil =>
      have hlook := State.lookahead_of_ahead hahead
      have hnext : (sequence steps n s).state.nextKind = kind := by rw [State.nextKind, hlook, hx]
      have hrun := Run.head (.attempt (.terminal kind) hready.normal) (.ofMove (.shift hready.normal hne))
      rw [terminal_of_nextKind rule follow put _ hnext]
      refine ⟨_, ⟨hr.run.trans hrun, hready.normal⟩, .inl ⟨rfl, ?_⟩⟩
      simp [hlook, hus]
    | cons u us =>
      have hu := hdamage u (by rw [hus]; simp)
      have hnext : (sequence steps n s).state.nextKind = u.kind := nextKind_of_ahead hahead
      obtain ⟨fs, hr', hv', hfs⟩ := terminal_of_notMem rule put (sequence steps n s).node hready (hnext ▸ hu.1) (hnext ▸ hu.2)
      exact ⟨es ++ fs, .trans hr.run hr', .inr ⟨hv', u :: us, by simp [hfs, hus]⟩⟩
  · rw [sequence_append_of_ne_matched hv]
    refine ⟨es, hr, .inr ⟨?_, us, hus⟩⟩
    by_contra hv'
    exact hv (hr.matched_of_ahead hs hahead (hx ▸ hend) hv')

/-- A rule that goes on behind its terminator after an error comes to its end there in either case. -/
theorem passing_recover_up_to_terminal [Node ν] {K : TokenKind → Prop} {steps : List (Step ν)} {n : ν} {rule rule' : Rule}
    {kind : TokenKind} {policy : ResyncPolicy} {follow : KindSet} {put : ν → Terminal → ν} {c : Token} (hs : s.Ready)
    (hsteps : StaysIn K (sequence steps n)) (hkind : ¬K kind) (hend : kind ≠ .endOfInput)
    (hpolicy : rule.resyncPolicy? = some policy) (hterm : policy.terminator = some kind)
    (ha : s.ahead = damage ++ c :: x :: xs) (hc : c.kind = kind) (hx : x.kind ≠ .endOfInput)
    (hdamage : ∀ t ∈ damage, t.kind ≠ kind ∧ t.kind ∉ follow ∧ t.kind ∉ policy.stop)
    (hok : ∀ t ∈ damage ++ [c, x], ok t) :
    Passing ok (fun _ => True) s (damage ++ [c]) (recover rule (sequence (steps ++ [terminal rule' kind follow put]) n s)) := by
  obtain ⟨es, hr, hstop⟩ := sequence_up_to_terminal rule' put hs hsteps hkind hend ha hc
    fun t ht => ⟨(hdamage t ht).1, (hdamage t ht).2.1⟩
  have hpassing : ∀ {o : Outcome ν} {es : List Event}, Reaches s es o → o.verdict = .matched → passes es = damage ++ [c] →
      Passing ok (fun _ => True) s (damage ++ [c]) o := by
    intro o es hr hv hes
    have ha' : s.ahead = passes es ++ x :: xs := by simpa [hes] using ha
    rw [← hes]
    exact .of_reaches hs hr hv trivial [] ha' hx (by simpa [hes] using hok)
  generalize sequence (steps ++ [terminal rule' kind follow put]) n s = o at hr hstop
  rcases hstop with ⟨hv, hes⟩ | ⟨hv, us, hus⟩
  · rw [recover_of_matched rule hv]
    exact hpassing hr hv hes
  · have hahead : o.state.ahead = us ++ c :: x :: xs := hr.run.ahead_of_passes (by rw [ha, hus, List.append_assoc])
    have hdrop : ∀ t ∈ us, Dropped policy t.kind := by
      intro t ht
      have hmem := hdamage t (by rw [hus]; exact List.mem_append_right _ ht)
      exact ⟨hmem.2.2, by rw [hterm]; exact fun h => hmem.1 (Option.some.inj h).symm⟩
    obtain ⟨fs, hr', hv', hfs⟩ := resynchronize_of_terminator rule o.node (hr.run.sealed hs.toSealed) (hr.recovering hv)
      hahead hdrop (by rw [hterm, hc]) (hc ▸ hend)
    rw [recover_of_mismatched hv hpolicy]
    exact hpassing (.trans hr.run hr') hv' (by rw [passes_append, hfs, hus, List.append_assoc])

/-- A declaration with other tokens between its keyword and its semicolon. -/
theorem handles_damaged_varDecl {k c : Token} (hk : k.kind = .var) (hc : c.kind = .semicolon) (hx : x.kind ≠ .endOfInput)
    (hdamage : ∀ t ∈ damage, t.kind ∉ declarationStarts.insert .semicolon) (hok : ∀ t ∈ damage ++ [c, x], ok t) :
    Handles ok (fun _ => True) (k :: (damage ++ [c])) (x :: xs) (varDecl .standard) := by
  intro s hs ha
  have hnext : s.nextKind = .var := by rw [nextKind_of_ahead ha, hk]
  obtain ⟨es, hr, -, hes, hready⟩ := run_entered .varDecl hs (by decide) hnext
  have hlook : s.lookahead = k := State.lookahead_of_ahead ha
  have hahead : (s.entered .varDecl .var).ahead = damage ++ c :: x :: xs := by
    have h := hr.ahead
    rw [ha, hes, hlook] at h
    simpa using h.symm
  have hdamage' : ∀ t ∈ damage, t.kind ≠ .semicolon ∧ t.kind ∉ Rule.varDecl.follow ∧ t.kind ∉ declarationStarts := by
    intro t ht
    have h := hdamage t ht
    revert h
    cases t.kind <;> decide
  have hsteps : ∀ n, StaysIn (fun k => k ≠ .semicolon) (sequence [
      child (typeSpec .standard) fun (n : VarDecl) t => { n with type := t },
      child (separated .standard .moreNames declaredName) fun n names => { n with names }] n) :=
    fun n => .cons ((staysIn_typeSpec (by decide)).child _ _) fun _ =>
      .cons ((staysIn_names (by decide) (by decide)).child _ _) fun _ => .nil
  rw [← hlook]
  exact passing_phrase_of_nextKind hs (by decide) hnext
    (passing_recover_up_to_terminal hready (hsteps _) (by decide) (by decide) rfl rfl hahead hc hx hdamage' hok)

/-! ## Blocks -/

theorem leave_moreStatements {k : TokenKind} (h : Table.standard.action .moreStatements k ≠ .reject)
    (h' : ∀ r, Table.standard.action .moreStatements k ≠ .descend r) :
    k ∈ [TokenKind.rightBrace, .function, .main, .endOfInput] := by
  cases k with
  | rightBrace | function | main | endOfInput => decide
  | semicolon => exact absurd rfl (h' _)
  | _ => exact absurd rfl h

/-- Statements are read, and other tokens dropped, up to a closing brace. -/
theorem handles_damaged_statements {r : Token} {rest : List Token} (hr : r.kind = .rightBrace)
    (hdamage : ∀ t ∈ damage, t.kind ∉ [TokenKind.rightBrace, .function, .main]) (hok : ∀ t ∈ damage ++ [r], ok t) :
    Handles ok (fun _ => True) damage (r :: rest) (many .standard .moreStatements statement) := by
  intro s hs ha
  have hstays : StaysIn (fun k => k ≠ .rightBrace) (many .standard .moreStatements statement) :=
    staysIn_statements fun k hk h => hk (by simp [h])
  obtain ⟨es, hreach, hK⟩ := hstays s hs
  obtain ⟨us, hus, hahead⟩ := exists_of_stays (K := fun k => k ≠ .rightBrace) hreach.run hK ha (by simp [hr])
  have hv : (many .standard .moreStatements statement s).verdict = .matched :=
    hreach.matched_of_ahead hs hahead (by simp [hr]) (many_verdict_ne_mismatched (phrase_verdict_ne_mismatched (by decide) _ _) s)
  have hready := hreach.ready hs hv
  obtain ⟨haction, haction'⟩ := action_of_many s hv
  -- The repetition is left at no token of the damage, so all of it has been passed.
  obtain rfl : us = [] := by
    cases us with
    | nil => rfl
    | cons u us =>
      have hu := hdamage u (by rw [hus]; simp)
      have hend : u.kind ≠ .endOfInput := by
        rw [← nextKind_of_ahead hahead]
        exact mt hready.nextKind_eq_endOfInput_iff.1 (hready.rest_ne_nil_of_ahead hahead (by simp [hr]))
      rw [nextKind_of_ahead hahead] at haction haction'
      exact absurd (leave_moreStatements haction haction') (by simpa [hend] using hu)
  rw [List.append_nil] at hus
  subst hus
  exact .of_reaches hs hreach hv trivial [] ha (by simp [hr]) hok

/-- A block with other tokens between its braces. -/
theorem handles_damaged_block {l r : Token} {rest : List Token} (hl : l.kind = .leftBrace) (hr : r.kind = .rightBrace)
    (hdamage : ∀ t ∈ damage, t.kind ∉ [TokenKind.rightBrace, .function, .main]) (hok : ∀ t ∈ damage ++ [r], ok t) :
    Handles ok (fun _ => True) (l :: (damage ++ [r])) rest (block .standard) := by
  change Handles ok (fun _ => True) ([l] ++ (damage ++ [r])) rest (block .standard)
  refine .phrase (.cons (.terminal _ (by decide) _ _ hl) fun _ _ => .cons (.child (P := fun _ => True)
    (handles_damaged_statements hr hdamage hok) fun _ _ => trivial) fun _ _ => ?_) fun _ _ _ => trivial
  exact .last ((Handles.terminal _ (by decide) _ _ hr).weaken fun _ _ => trivial)

/-! ## Headers -/

/-- After an error in its header a program goes on at the first token that may come after the header. -/
theorem restart_of_ahead (n : Program) (hm : s.mode = .recovering) (ha : s.ahead = damage ++ x :: xs)
    (hdamage : ∀ t ∈ damage, t.kind ∉ headerRestarts) (hx : x.kind ∈ headerRestarts) :
    ∃ es, Reaches s es (restart n s) ∧ (restart n s).verdict = .matched ∧ passes es = damage := by
  obtain ⟨es, hr, hes, -, ht⟩ := run_dropWhile_of_ahead (fun k => !headerRestarts.contains k) hm ha
    (fun t h => by simpa [KindSet.mem_iff] using hdamage t h) (by simpa [KindSet.mem_iff] using hx)
  unfold restart
  generalize s.dropWhile (fun k => !headerRestarts.contains k) = t at hr ht
  simp only [nextKind_of_ahead ht, if_pos hx]
  exact ⟨_, ⟨hr.trans (.ofMove (.resume _)), rfl⟩, trivial, by simp [hes]⟩

/-- Other tokens in front of the declarations of a program: the header takes some of them, and what it leaves over is refused where
the first declaration may start. -/
theorem handlesLeaving_damaged_header (hx : x.kind ∈ headerRestarts)
    (hdamage : ∀ t ∈ damage, t.kind ∉ headerRestarts.insert .endOfInput) (hok : ∀ t ∈ damage ++ [x], ok t) :
    HandlesLeaving .standard .moreGlobals ok (fun _ => True) damage (x :: xs) (header {}) := by
  intro s hs ha
  have hsteps : StaysIn (fun k => k ∉ headerRestarts) (sequence headerSteps {}) :=
    .cons (.terminal _ (by decide) (by decide) _ _ _) fun _ => .cons (.terminal _ (by decide) (by decide) _ _ _) fun _ =>
      .cons (.terminal _ (by decide) (by decide) _ _ _) fun _ => .nil
  have hend : x.kind ≠ .endOfInput := by
    revert hx
    cases x.kind <;> decide
  have hjunk : ∀ t ∈ damage, Table.standard.refuses .moreGlobals t.kind = true ∧ t.kind ∉ headerRestarts := by
    intro t ht
    have h := hdamage t ht
    revert h
    cases t.kind <;> decide
  obtain ⟨es, hr, hK⟩ := hsteps s hs
  obtain ⟨us, hus, hahead⟩ := exists_of_stays (K := fun k => k ∉ headerRestarts) hr.run hK ha (not_not_intro hx)
  unfold header
  dsimp only
  by_cases hv : (sequence headerSteps {} s).verdict = .mismatched
  · obtain ⟨fs, hr', hv', hfs⟩ := restart_of_ahead (sequence headerSteps {} s).node (hr.recovering hv) hahead
      (fun t ht => (hjunk t (by rw [hus]; exact List.mem_append_right _ ht)).2) hx
    have hall : damage = passes (es ++ fs) ++ [] := by rw [passes_append, hfs, hus, List.append_nil]
    rw [hv]
    exact (Reaches.trans hr.run hr').leaving hs hv' trivial ha hall hend hok (by simp)
  · have hv' : (sequence headerSteps {} s).verdict = .matched := hr.matched_of_ahead hs hahead hend hv
    rw [hv']
    exact hr.leaving hs hv' trivial ha hus hend hok fun t ht => (hjunk t (by rw [hus]; exact List.mem_append_right _ ht)).1

/-! ## Functions -/

theorem leave_moreLocals {k : TokenKind} (h : Table.standard.action .moreLocals k ≠ .reject)
    (h' : ∀ r, Table.standard.action .moreLocals k ≠ .descend r) :
    k ∈ [TokenKind.leftBrace, .function, .main, .endOfInput] := by
  cases k with
  | leftBrace | function | main | endOfInput => decide
  | var => exact absurd rfl (h' _)
  | _ => exact absurd rfl h

/-- After the declarations of a function comes its block, or the next function or the main block, or the end of the input. -/
theorem nextKind_of_localVars (h : (localVars .standard s).verdict = .matched) :
    (localVars .standard s).state.nextKind ∈ [TokenKind.leftBrace, .function, .main, .endOfInput] := by
  unfold localVars phrase at h ⊢
  rw [recover_of_no_policy rfl] at h ⊢
  obtain ⟨h1, h2⟩ := action_of_many _ h
  exact leave_moreLocals h1 h2

/-- A phrase passes its first terminal where that is next, whatever comes after it. -/
theorem passesAt_phrase [Node ν] {K : TokenKind → Prop} {rule rule' : Rule} {blank : ν} {kind : TokenKind} {follow : KindSet}
    {put : ν → Terminal → ν} {steps : List (Step ν)} (hend : kind ≠ .endOfInput) (h : ∀ n, StaysIn K (sequence steps n)) :
    PassesAt kind (phrase rule blank (sequence (terminal rule' kind follow put :: steps))) := by
  intro s hs hnext
  obtain ⟨es, hr, -, hes, hready⟩ := run_entered rule hs hend hnext
  obtain ⟨fs, hr', -⟩ := h (put blank (.ofToken s.lookahead)) _ hready
  obtain ⟨gs, hr'', -⟩ := recover_reaches rule hr' hready.toSealed
  obtain ⟨span, hphrase⟩ : ∃ span, phrase rule blank (sequence (terminal rule' kind follow put :: steps)) s =
      ⟨Node.withSpan span _, _, _⟩ := phrase_of_nextKind hnext
  rw [hphrase]
  have hlength := hr.effect.remaining
  have hle := hr''.run.remaining_le
  rw [hes, List.length_singleton] at hlength
  dsimp only
  omega

theorem sequence_concat_of_matched {steps : List (Step ν)} {step : Step ν} {n : ν}
    (h : (sequence (steps ++ [step]) n s).verdict = .matched) :
    ∃ m t, sequence (steps ++ [step]) n s = step m t ∧ (step m t).verdict = .matched := by
  by_cases hv : (sequence steps n s).verdict = .matched
  · rw [sequence_append_of_matched hv, sequence_singleton] at h ⊢
    exact ⟨_, _, rfl, h⟩
  · rw [sequence_append_of_ne_matched hv] at h
    exact absurd h hv

/-- The declarations and the block of a function, after its other parts, in front of tokens inside of the function: if no error is
handed on, then all is passed, or an opening brace is. -/
theorem sequence_locals_block {steps : List (Step FunctionDecl)} {n : FunctionDecl}
    {putLocals : FunctionDecl → VarDecls → FunctionDecl} (putBlock : FunctionDecl → Block → FunctionDecl) (hs : s.Ready)
    (hsteps : StaysIn Inner (sequence (steps ++ [child (localVars .standard) putLocals]) n))
    (ha : s.ahead = damage ++ x :: xs) (hx : ¬Inner x.kind) (hend : x.kind ≠ .endOfInput)
    (hdamage : ∀ t ∈ damage, Inner t.kind ∧ t.kind ≠ .endOfInput) :
    ∃ es us o, sequence ((steps ++ [child (localVars .standard) putLocals]) ++ [child (block .standard) putBlock]) n s = o ∧
      Reaches s es o ∧ damage = passes es ++ us ∧
      (o.verdict = .matched ∧ (us = [] ∨ ∃ t ∈ passes es, t.kind = .leftBrace) ∨ o.verdict = .mismatched) := by
  obtain ⟨es, hr, hK⟩ := hsteps s hs
  obtain ⟨us, hus, hahead⟩ := exists_of_stays hr.run hK ha hx
  by_cases hv : (sequence (steps ++ [child (localVars .standard) putLocals]) n s).verdict = .matched
  · have hready := hr.ready hs hv
    have hnext : (sequence (steps ++ [child (localVars .standard) putLocals]) n s).state.nextKind ∈
        [TokenKind.leftBrace, .function, .main, .endOfInput] := by
      obtain ⟨m, t, hlast, hmatched⟩ := sequence_concat_of_matched hv
      rw [hlast]
      exact nextKind_of_localVars hmatched
    rw [sequence_append_of_matched hv, sequence_singleton]
    generalize sequence (steps ++ [child (localVars .standard) putLocals]) n s = o at *
    obtain ⟨fs, hr', hK'⟩ := staysIn_block.child putBlock o.node o.state hready
    obtain ⟨vs, hvs, hahead'⟩ := exists_of_stays hr'.run hK' hahead hx
    refine ⟨es ++ fs, vs, _, rfl, .trans hr.run hr', by rw [passes_append, List.append_assoc, ← hvs, ← hus], .inl ⟨?_, ?_⟩⟩
    · exact hr'.matched_of_ahead hready hahead' hend (phrase_verdict_ne_mismatched (by decide) _ _ o.state)
    · cases us with
      | nil => exact .inl (List.append_eq_nil_iff.1 hvs.symm).2
      | cons u us =>
        -- No token of the damage but an opening brace ends the declarations, and the block takes it.
        obtain ⟨hinner, hu⟩ := hdamage u (by rw [hus]; simp)
        have hbrace : u.kind = .leftBrace := by
          rw [nextKind_of_ahead hahead] at hnext
          simpa [hinner.1, hinner.2, hu] using hnext
        have hlt : (block .standard o.state).state.remaining < o.state.remaining :=
          passesAt_phrase (by decide) staysIn_afterBrace o.state hready (by rw [nextKind_of_ahead hahead, hbrace])
        have hpassed := hr'.run.lookahead_mem_passes hlt
        rw [State.lookahead_of_ahead hahead] at hpassed
        exact .inr ⟨u, by rw [passes_append]; exact List.mem_append_right _ hpassed, hbrace⟩
  · rw [sequence_append_of_ne_matched hv]
    refine ⟨es, us, _, rfl, hr, hus, .inr ?_⟩
    by_contra hne
    exact hv (hr.matched_of_ahead hs hahead hend hne)

/-- Where there is one opening brace at most, none is left over after one was passed. -/
theorem kind_ne_leftBrace_of_count_le {ts us : List Token} (h : ((ts ++ us).map Token.kind).count .leftBrace ≤ 1)
    (hpassed : us = [] ∨ ∃ t ∈ ts, t.kind = .leftBrace) : ∀ t ∈ us, t.kind ≠ .leftBrace := by
  intro t ht hbrace
  rcases hpassed with rfl | ⟨u, hu, hbrace'⟩
  · cases ht
  · have hpos := List.count_pos_iff.2 (List.mem_map.2 ⟨t, ht, hbrace⟩)
    have hpos' := List.count_pos_iff.2 (List.mem_map.2 ⟨u, hu, hbrace'⟩)
    rw [List.map_append, List.count_append] at h
    omega

/-- These parts, and what the function does to recover: what is left over is refused where the next function may start. -/
theorem handlesLeaving_locals_block {steps : List (Step FunctionDecl)} {n : FunctionDecl}
    {putLocals : FunctionDecl → VarDecls → FunctionDecl} (putBlock : FunctionDecl → Block → FunctionDecl)
    (hsteps : StaysIn Inner (sequence (steps ++ [child (localVars .standard) putLocals]) n))
    (hx : x.kind ∈ [TokenKind.function, .main]) (hdamage : ∀ t ∈ damage, Inner t.kind ∧ t.kind ≠ .endOfInput)
    (hbraces : (damage.map Token.kind).count .leftBrace ≤ 1) (hok : ∀ t ∈ damage ++ [x], ok t) :
    HandlesLeaving .standard .moreFunctions ok (fun _ => True) damage (x :: xs) fun s => recover .functionDecls
      (sequence ((steps ++ [child (localVars .standard) putLocals]) ++ [child (block .standard) putBlock]) n s) := by
  intro s hs ha
  have hinner : ¬Inner x.kind := by
    revert hx
    cases x.kind <;> decide
  have hend : x.kind ≠ .endOfInput := by
    revert hx
    cases x.kind <;> decide
  obtain ⟨es, us, o, ho, hr, hus, hv⟩ := sequence_locals_block putBlock hs hsteps ha hinner hend hdamage
  dsimp only
  rw [ho]
  rcases hv with ⟨hv, hpassed⟩ | hv
  · rw [recover_of_matched _ hv]
    rw [hus] at hbraces
    refine hr.leaving hs hv trivial ha hus hend hok fun t ht => ?_
    have hbrace : t.kind ≠ .leftBrace := kind_ne_leftBrace_of_count_le hbraces hpassed t ht
    obtain ⟨⟨hfunction, hmain⟩, hlast⟩ := hdamage t (by rw [hus]; exact List.mem_append_right _ ht)
    revert hbrace hfunction hmain hlast
    cases t.kind <;> decide
  · have hahead : o.state.ahead = us ++ x :: xs := hr.run.ahead_of_passes (by rw [ha, hus, List.append_assoc])
    have hstop : x.kind ∈ KindSet.ofList [.function, .main] := by
      revert hx
      cases x.kind <;> decide
    have hdropped : ∀ t ∈ us, Dropped ⟨.ofList [.function, .main], none⟩ t.kind := by
      intro t ht
      obtain ⟨hin, -⟩ := hdamage t (by rw [hus]; exact List.mem_append_right _ ht)
      refine ⟨?_, nofun⟩
      revert hin
      cases t.kind <;> decide
    obtain ⟨fs, hr', hv', hfs, -⟩ := resynchronize_of_stop .functionDecls o.node (hr.recovering hv) hahead hdropped hstop nofun
    have hall : damage = passes (es ++ fs) ++ [] := by rw [passes_append, hfs, hus, List.append_nil]
    rw [recover_of_mismatched hv rfl]
    exact (Reaches.trans hr.run hr').leaving hs hv' trivial ha hall hend hok (by simp)

/-- A function with other tokens after its keyword. -/
theorem handlesLeaving_damaged_function {k : Token} (hk : k.kind = .function) (hx : x.kind ∈ [TokenKind.function, .main])
    (hdamage : ∀ t ∈ damage, Inner t.kind ∧ t.kind ≠ .endOfInput) (hbraces : (damage.map Token.kind).count .leftBrace ≤ 1)
    (hok : ∀ t ∈ damage ++ [x], ok t) :
    HandlesLeaving .standard .moreFunctions ok (fun _ => True) (k :: damage) (x :: xs) (functionDecl .standard) := by
  intro s hs ha
  have hsteps : ∀ n, StaysIn Inner (sequence ([
      terminal .functionDecls .identifier (.single .leftParen) fun (n : FunctionDecl) t => { n with name := t },
      terminal .functionDecls .leftParen (.ofList [.numberType, .booleanType, .rightParen]) fun n t => { n with left := t },
      optional .standard .anyParams (child (paramList .standard) fun n ps => { n with params := some ps }),
      terminal .functionDecls .rightParen (.ofList [.var, .leftBrace]) fun n t => { n with right := t }] ++
      [child (localVars .standard) fun n vs => { n with locals := vs }]) n) := by
    refine fun n => .cons (.terminal _ (by decide) (by decide) _ _ _) fun _ =>
      .cons (.terminal _ (by decide) (by decide) _ _ _) fun _ => .cons (.optional (staysIn_paramList.child _ _) ?_) fun _ =>
      .cons (.terminal _ (by decide) (by decide) _ _ _) fun _ => .cons (staysIn_localVars.child _ _) fun _ => .nil
    intro k hk
    cases k <;> first | decide | exact absurd hk (by decide)
  have hnext : s.nextKind = .function := by rw [nextKind_of_ahead ha, hk]
  have hlook : s.lookahead = k := State.lookahead_of_ahead ha
  obtain ⟨es, hr, -, hes, hready⟩ := run_entered .functionDecls hs (by decide) hnext
  have hahead : (s.entered .functionDecls .function).ahead = damage ++ x :: xs :=
    hr.ahead_of_passes (by rw [ha, hes, hlook]; rfl)
  obtain ⟨us, junk, hus, hjunk, hpassing⟩ := handlesLeaving_locals_block (fun n b => { n with body := b })
    (hsteps { keyword := .ofToken s.lookahead }) hx hdamage hbraces hok _ hready hahead
  exact ⟨s.lookahead :: us, junk, by rw [hus, hlook]; rfl, hjunk, passing_phrase_of_nextKind hs (by decide) hnext hpassing⟩

end Parser

end QuillFrontEnd
