import QuillFrontEnd.Proofs.Following
import QuillFrontEnd.Proofs.RoundTrip

/-!
# Which tokens a reader can pass

A reader passes only tokens of certain kinds: those that its phrases are made of, those that it drops where it has a choice to
make, and those that its rules drop when they recover. So it cannot get past a token of any other kind, whatever comes before that
token.
-/

namespace QuillFrontEnd

namespace Parser

variable {ν μ : Type} {s : State} {table : Table} {d : Decision}

/-! ## Dropping tokens -/

/-- The tokens that are dropped are those ahead that pass the test, up to the first that does not, and nothing is reported. -/
theorem run_dropAhead_passes (test : TokenKind → Bool) (ts : List Token) (s : State) (hts : s.cursor.rest = ts)
    (hm : s.mode = .recovering) :
    ∃ es, Run s es (s.dropWhile test) ∧ passes es = ts.takeWhile (fun t => test t.kind) ∧ reports es = [] := by
  unfold State.dropWhile
  rw [hts]
  induction ts generalizing s with
  | nil => exact ⟨[], .refl s, rfl, rfl⟩
  | cons t ts ih =>
    have hne : s.cursor.rest ≠ [] := by simp [hts]
    have hcons := State.rest_eq_lookahead_cons hne
    rw [hts, List.cons.injEq] at hcons
    rw [State.dropAhead]
    by_cases ht : test t.kind = true
    · rw [if_pos ht]
      obtain ⟨es, hr, hp, hreports⟩ := ih s.drop hcons.2.symm hm
      refine ⟨_, .head (.drop hm hne) hr, ?_, hreports⟩
      rw [passes_append, hp, ← hcons.1, List.takeWhile_cons, if_pos ht]
      rfl
    · rw [if_neg ht]
      exact ⟨[], .refl s, by rw [List.takeWhile_cons, if_neg ht]; rfl, rfl⟩

theorem run_dropWhile_passes (test : TokenKind → Bool) (hm : s.mode = .recovering) :
    ∃ es, Run s es (s.dropWhile test) ∧ passes es = s.cursor.rest.takeWhile (fun t => test t.kind) ∧ reports es = [] :=
  run_dropAhead_passes test _ s rfl hm

/-- In front of tokens that pass the test and one that does not, the former are dropped and the latter is next. -/
theorem run_dropWhile_of_ahead (test : TokenKind → Bool) (hm : s.mode = .recovering) {junk ys : List Token} {y : Token}
    (ha : s.ahead = junk ++ y :: ys) (hjunk : ∀ t ∈ junk, test t.kind = true) (hy : test y.kind = false) :
    ∃ es, Run s es (s.dropWhile test) ∧ passes es = junk ∧ reports es = [] ∧ (s.dropWhile test).ahead = y :: ys := by
  obtain ⟨es, hr, hp, hreports⟩ := run_dropWhile_passes test hm
  have hrest : s.cursor.rest = junk ++ (y :: ys).dropLast := by
    have h := congrArg List.dropLast ha
    rwa [State.ahead, List.dropLast_concat, List.dropLast_append_of_ne_nil (List.cons_ne_nil _ _)] at h
  have hnil : ((y :: ys).dropLast).takeWhile (fun t => test t.kind) = [] := by
    cases ys with
    | nil => rfl
    | cons z zs => rw [List.dropLast_cons_cons, List.takeWhile_cons_of_neg (by simp [hy])]
  rw [hrest, List.takeWhile_append_of_pos hjunk, hnil, List.append_nil] at hp
  exact ⟨es, hr, hp, hreports, hr.ahead_of_passes (by rw [ha, hp])⟩

/-- The tokens that are dropped for a decision are refused there. -/
theorem run_dropRefused_passes (table : Table) (d : Decision) (hs : s.Ready) :
    ∃ es, Run s es (dropRefused table d s) ∧ ∀ t ∈ passes es, table.refuses d t.kind = true := by
  unfold dropRefused
  split
  · have hb : (skippedToken table d s.lookahead).Blames s.lookahead := Diagnostic.blames_of_code (by decide) _ _ _ _
    obtain ⟨es, hr, hp, -⟩ := run_dropWhile_passes (table.refuses d) (s.mode_mismatch (skippedToken table d s.lookahead))
    refine ⟨_, .head (.mismatch _ hs.normal hb) hr, fun t ht => ?_⟩
    have hmem : t ∈ passes es := by simpa using ht
    rw [hp] at hmem
    exact List.mem_takeWhile_imp (p := fun t : Token => table.refuses d t.kind) hmem
  · exact ⟨[], .refl s, by simp⟩

/-- What a run to a decision passes is refused there. -/
theorem refuses_of_run_choose (hs : s.Ready) {es : List Event} (hr : Run s es (choose table d s).2) :
    ∀ t ∈ passes es, table.refuses d t.kind = true := by
  obtain ⟨fs, hr', hp⟩ := run_dropRefused_passes table d (hs.attempt (.decision d))
  have hcursor : (choose table d s).2.cursor = (dropRefused table d (s.attempt (.decision d))).cursor := by
    rw [choose_eq]
    split <;> rfl
  have hrest := hr.effect.rest.symm.trans hr'.effect.rest
  rw [hcursor] at hrest
  rw [List.append_cancel_right hrest]
  exact hp

/-! ## Readers that stay within some kinds -/

/-- An outcome that is reached without passing a token of another kind. -/
def Stays (K : TokenKind → Prop) (s : State) (o : Outcome ν) : Prop := ∃ es, Reaches s es o ∧ ∀ t ∈ passes es, K t.kind

/-- A reader that passes only tokens of some kinds. -/
def StaysIn (K : TokenKind → Prop) (reader : Reader ν) : Prop := ∀ s : State, s.Ready → Stays K s (reader s)

variable {K : TokenKind → Prop} {n : ν}

/-- Two runs one after the other pass only what each of them passes. -/
theorem forall_passes_append {es fs : List Event} (h : ∀ t ∈ passes es, K t.kind) (h' : ∀ t ∈ passes fs, K t.kind) :
    ∀ t ∈ passes (es ++ fs), K t.kind := by
  rw [passes_append]
  exact List.forall_mem_append.2 ⟨h, h'⟩

/-- Before a token of another kind a reader stops: it passes some of the tokens in front of it. -/
theorem exists_of_stays {es : List Event} {t : State} {ts xs : List Token} {x : Token} (hr : Run s es t)
    (hK : ∀ y ∈ passes es, K y.kind) (ha : s.ahead = ts ++ x :: xs) (hx : ¬K x.kind) :
    ∃ us, ts = passes es ++ us ∧ t.ahead = us ++ x :: xs := by
  have hahead := hr.ahead
  rw [ha] at hahead
  rcases List.append_eq_append_iff.1 hahead with ⟨us, hpasses, hx'⟩ | ⟨us, hts, ht⟩
  · cases us with
    | nil => exact ⟨[], by simpa using hpasses.symm, by simpa using hx'.symm⟩
    | cons u us =>
      rw [List.cons_append, List.cons.injEq] at hx'
      exact absurd (hK x (by rw [hpasses, hx'.1]; simp)) hx
  · exact ⟨us, hts, ht⟩

theorem StaysIn.nil : StaysIn K (sequence [] n) := fun s hs => ⟨[], ⟨.refl s, hs.normal⟩, by simp⟩

theorem Stays.cons {step : Step ν} {steps : List (Step ν)} (hs : s.Ready) (h : Stays K s (step n s))
    (h' : ∀ m, StaysIn K (sequence steps m)) : Stays K s (sequence (step :: steps) n s) := by
  obtain ⟨es, hr, hK⟩ := h
  by_cases hv : (step n s).verdict = .matched
  · obtain ⟨fs, hr', hK'⟩ := h' (step n s).node _ (hr.ready hs hv)
    rw [sequence_cons_of_matched steps hv]
    exact ⟨es ++ fs, .trans hr.run hr', forall_passes_append hK hK'⟩
  · rw [sequence_cons_of_ne_matched steps hv]
    exact ⟨es, hr, hK⟩

theorem StaysIn.cons {step : Step ν} {steps : List (Step ν)} (h : StaysIn K (step n))
    (h' : ∀ m, StaysIn K (sequence steps m)) : StaysIn K (sequence (step :: steps) n) :=
  fun s hs => .cons hs (h s hs) h'

/-- A terminal that is not next is not taken, and neither is any other token. -/
theorem cursor_terminal_of_ne (rule : Rule) {kind : TokenKind} (follow : KindSet) (put : ν → Terminal → ν) (n : ν)
    (h : s.nextKind ≠ kind) : (terminal rule kind follow put n s).state.cursor = s.cursor := by
  unfold terminal readTerminal
  dsimp only
  rw [State.nextKind_attempt, if_neg h]
  by_cases hf : s.nextKind ∈ follow
  · rw [if_pos hf]
    rfl
  · rw [if_neg hf]
    exact State.cursor_mismatch _ _

theorem stays_terminal_of_ne (rule : Rule) {kind : TokenKind} (hend : kind ≠ .endOfInput) (follow : KindSet)
    (put : ν → Terminal → ν) (n : ν) (hs : s.Ready) (hnext : s.nextKind ≠ kind) : Stays K s (terminal rule kind follow put n s) := by
  obtain ⟨es, hr, -⟩ := terminal_reaches rule hend follow put n hs
  refine ⟨es, hr, ?_⟩
  have hrest := hr.run.effect.rest
  rw [cursor_terminal_of_ne rule follow put n hnext] at hrest
  rw [List.self_eq_append_left.1 hrest]
  simp

theorem StaysIn.terminal (rule : Rule) {kind : TokenKind} (hkind : K kind) (hend : kind ≠ .endOfInput) (follow : KindSet)
    (put : ν → Terminal → ν) (n : ν) : StaysIn K (terminal rule kind follow put n) := by
  intro s hs
  by_cases hnext : s.nextKind = kind
  · obtain ⟨es, hr, -⟩ := terminal_reaches rule hend follow put n hs
    refine ⟨es, hr, ?_⟩
    have hrest := hr.run.effect.rest
    rw [terminal_of_nextKind rule follow put n hnext,
      State.rest_eq_lookahead_cons (hs.rest_ne_nil (hnext ▸ hend))] at hrest
    have hpasses : passes es = [s.lookahead] := List.append_cancel_right hrest.symm
    rw [← hnext] at hkind
    rw [hpasses, List.forall_mem_singleton]
    exact hkind
  · exact stays_terminal_of_ne rule hend follow put n hs hnext

theorem StaysIn.child {reader : Reader μ} (h : StaysIn K reader) (put : ν → μ → ν) (n : ν) :
    StaysIn K (child reader put n) := by
  intro s hs
  obtain ⟨es, hr, hK⟩ := h s hs
  exact ⟨es, ⟨hr.run, hr.fits⟩, hK⟩

theorem StaysIn.optional {step : Step ν} (h : StaysIn K (step n)) (hd : ∀ k, table.refuses d k = true → K k) :
    StaysIn K (optional table d step n) := by
  intro s hs
  obtain ⟨es, hr, -, hnone, hsome⟩ := run_choose table d hs
  have hK : ∀ t ∈ passes es, K t.kind := fun t ht => hd _ (refuses_of_run_choose hs hr t ht)
  unfold Parser.optional
  generalize choose table d s = c at hr hnone hsome
  obtain ⟨_ | a, t⟩ := c
  · exact ⟨es, ⟨hr, (hnone rfl).1⟩, hK⟩
  · obtain ⟨ht, -⟩ := hsome a rfl
    cases a with
    | descend r =>
      obtain ⟨fs, hr', hK'⟩ := h t ht
      exact ⟨es ++ fs, .trans hr hr', forall_passes_append hK hK'⟩
    | take | leave | reject => exact ⟨es, ⟨hr, ht.normal⟩, hK⟩

theorem StaysIn.whenDescends {steps : List (Step ν)} (h : StaysIn K (sequence steps n)) :
    StaysIn K (whenDescends table d steps n) := by
  intro s hs
  unfold Parser.whenDescends
  split
  · exact h s hs
  · exact ⟨[], ⟨.refl s, hs.normal⟩, by simp⟩

/-- A terminator is never a stop token. -/
theorem terminator_notMem_stop {rule : Rule} {policy : ResyncPolicy} {k : TokenKind} (h : rule.resyncPolicy? = some policy)
    (hk : policy.terminator = some k) : k ∉ policy.stop := by
  cases rule <;> cases h <;> cases hk <;> decide

/-- A rule that recovers passes no stop token. -/
theorem stays_resynchronize [Node ν] {rule : Rule} {policy : ResyncPolicy} (n : ν) (hs : s.Sealed) (hm : s.mode = .recovering)
    (h : rule.resyncPolicy? = some policy) (hK : ∀ k, k ∉ policy.stop → K k) :
    Stays K s (resynchronize rule policy n s) := by
  obtain ⟨es, hr, -, hm', h3⟩ := run_dropWhile (fun k => !(policy.terminator == some k) && !policy.stop.contains k) hm
  obtain ⟨fs, hr', hp, -⟩ := run_dropWhile_passes (fun k => !(policy.terminator == some k) && !policy.stop.contains k) hm
  obtain rfl := hr.events_eq hr'
  have hes : ∀ t ∈ passes es, K t.kind := by
    intro t ht
    rw [hp] at ht
    have htest := List.mem_takeWhile_imp
      (p := fun t : Token => !(policy.terminator == some t.kind) && !policy.stop.contains t.kind) ht
    rw [Bool.and_eq_true, Bool.not_eq_true'] at htest
    exact hK _ (by rw [KindSet.mem_iff]; simpa using htest.2)
  have hsealed := hr.sealed hs
  have hend : policy.terminator ≠ some .endOfInput := by
    have hne := terminator?_ne_endOfInput rule
    rwa [Rule.terminator?, h] at hne
  unfold resynchronize
  generalize s.dropWhile (fun k => !(policy.terminator == some k) && !policy.stop.contains k) = t at hr hm' h3 hsealed
  by_cases hterm : policy.terminator = some t.nextKind
  · have hne : t.cursor.rest ≠ [] := hsealed.rest_ne_nil (fun hk => hend (hk ▸ hterm))
    have hlook : K t.lookahead.kind := hK _ (terminator_notMem_stop h hterm)
    simp only [if_pos hterm]
    exact ⟨_, ⟨hr.trans (.ofMove (.close hm' hne)), rfl⟩,
      forall_passes_append hes (by simpa using hlook)⟩
  · simp only [if_neg hterm]
    by_cases hstop : t.nextKind ∈ policy.stop
    · simp only [if_pos hstop]
      exact ⟨_, ⟨hr.trans (.ofMove (.resume _)), rfl⟩, forall_passes_append hes (by simp)⟩
    · simp only [if_neg hstop]
      have hended : t.cursor.rest = [] := by
        rcases h3 with h3 | h3
        · exact h3
        · simp [hterm, KindSet.mem_iff.not.1 hstop] at h3
      exact ⟨_, ⟨hr.trans (.ofMove (.abandon rule hended)), hended⟩, forall_passes_append hes (by simp)⟩

theorem StaysIn.recover [Node ν] {rule : Rule} {reader : Reader ν} (h : StaysIn K reader)
    (hK : ∀ policy, rule.resyncPolicy? = some policy → ∀ k, k ∉ policy.stop → K k) :
    StaysIn K fun s => recover rule (reader s) := by
  intro s hs
  obtain ⟨es, hr, hes⟩ := h s hs
  change Stays K s (Parser.recover rule (reader s))
  unfold Parser.recover
  split
  · rename_i policy hv hpolicy
    obtain ⟨fs, hr', hfs⟩ := stays_resynchronize (reader s).node (hr.run.sealed hs.toSealed) (hr.recovering hv) hpolicy
      (hK policy hpolicy)
    exact ⟨es ++ fs, .trans hr.run hr', forall_passes_append hes hfs⟩
  · exact ⟨es, hr, hes⟩

theorem StaysIn.phrase [Node ν] {rule : Rule} {blank : ν} {step : Step ν} (h : StaysIn K (step blank))
    (hK : ∀ policy, rule.resyncPolicy? = some policy → ∀ k, k ∉ policy.stop → K k) :
    StaysIn K (phrase rule blank step) := by
  intro s hs
  have ha : Run s [.attempt (.rule rule) .normal] (s.attempt (.rule rule)) := .ofMove (.attempt _ hs.normal)
  obtain ⟨es, hr, hes⟩ := StaysIn.recover h hK _ (hs.attempt (.rule rule))
  exact ⟨_, ⟨ha.trans hr.run, hr.fits⟩, forall_passes_append (by simp) hes⟩

/-! ## Repetitions -/

/-- The phrases of a repetition need only be read where the table says to go on. -/
theorem StaysIn.many {reader : Reader ν} {kind : TokenKind}
    (h : ∀ s : State, s.Ready → s.nextKind = kind → Stays K s (reader s)) (hp : PassesAt kind reader)
    (hd : ∀ k r, table.action d k = .descend r → k = kind) (hK : ∀ k, table.refuses d k = true → K k) :
    StaysIn K (many table d reader) := by
  intro s hs
  induction hn : s.remaining using Nat.strong_induction_on generalizing s with
  | _ n ih =>
    obtain ⟨es, hr, -, hnone, hsome⟩ := run_choose table d hs
    have hes : ∀ t ∈ passes es, K t.kind := fun t ht => hK _ (refuses_of_run_choose hs hr t ht)
    rw [Parser.many]
    have hle := hr.remaining_le
    generalize choose table d s = c at hr hnone hsome hle
    obtain ⟨_ | a, t⟩ := c
    · exact ⟨es, ⟨hr, (hnone rfl).1⟩, hes⟩
    obtain ⟨ht, hact, -, -⟩ := hsome a rfl
    cases a with
    | take | leave | reject => exact ⟨es, ⟨hr, ht.normal⟩, hes⟩
    | descend r =>
      have hnext : t.nextKind = kind := hd _ r hact
      obtain ⟨fs, hr', hfs⟩ := h t ht hnext
      have hlt : (reader t).state.remaining < s.remaining := Nat.lt_of_lt_of_le (hp t ht hnext) hle
      dsimp only
      split
      · rename_i hv
        rw [if_pos hlt]
        obtain ⟨gs, hr'', hgs⟩ := ih _ (hn ▸ hlt) _ (hr'.ready ht hv) rfl
        exact ⟨es ++ (fs ++ gs), ⟨hr.trans (hr'.run.trans hr''.run), hr''.fits⟩,
          forall_passes_append hes (forall_passes_append hfs hgs)⟩
      · exact ⟨es ++ fs, ⟨hr.trans hr'.run, hr'.fits⟩, forall_passes_append hes hfs⟩

theorem StaysIn.separated {item : Reader (List ν)} {kind : TokenKind} (h : StaysIn K item) (hkind : K kind)
    (hend : kind ≠ .endOfInput) (hd : ∀ k j, table.action d k = .take j → k = kind) : StaysIn K (separated table d item) := by
  intro s hs
  induction hn : s.remaining using Nat.strong_induction_on generalizing s with
  | _ n ih =>
    obtain ⟨es, hr, hes⟩ := h s hs
    rw [Parser.separated]
    dsimp only
    split
    · rename_i hv
      have hready := hr.ready hs hv
      split
      · rename_i j hact
        have hnext : (item s).state.nextKind = kind := hd _ j hact
        have hne : (item s).state.cursor.rest ≠ [] := hready.rest_ne_nil (hnext ▸ hend)
        have hrs : Run s (es ++ [.shift (item s).state.lookahead]) (item s).state.shift := hr.run.trans (.ofMove (.shift hready.normal hne))
        have hlt : (item s).state.shift.remaining < s.remaining :=
          Nat.lt_of_lt_of_le (State.remaining_shift_lt hne) hr.run.remaining_le
        rw [if_pos hlt]
        obtain ⟨fs, hr', hfs⟩ := ih _ (hn ▸ hlt) _ ⟨hrs.sealed hs.toSealed, hready.normal⟩ rfl
        have hlook : K (item s).state.nextKind := hnext.symm ▸ hkind
        exact ⟨_, .trans hrs ⟨hr'.run, hr'.fits⟩,
          forall_passes_append (forall_passes_append hes (List.forall_mem_singleton.2 hlook)) hfs⟩
      · exact ⟨es, ⟨hr.run, hready.normal⟩, hes⟩
    · exact ⟨es, ⟨hr.run, hr.fits⟩, hes⟩

/-! ## Rules -/

theorem staysIn_basicType (hK : ∀ k ∈ [TokenKind.numberType, .booleanType], K k) : StaysIn K (basicType .standard) := by
  refine .phrase (fun s hs => ?_) nofun
  split
  · rename_i k hk
    have hnext : s.nextKind = .numberType ∨ s.nextKind = .booleanType := Table.basicType_of_standard hk
    have hne : s.cursor.rest ≠ [] := hs.rest_ne_nil (by rcases hnext with h | h <;> simp [h])
    have hlook : K s.nextKind := hK _ (by simpa using hnext)
    exact ⟨_, ⟨.ofMove (.shift hs.normal hne), hs.normal⟩, List.forall_mem_singleton.2 hlook⟩
  · exact ⟨_, .mismatch _ hs (Diagnostic.blames_of_code (by decide) _ _ _ _), by simp⟩

/-- The kinds of token that types are made of. -/
def typeKinds : List TokenKind := [.numberType, .booleanType, .leftBracket, .integer, .rightBracket]

theorem staysIn_dimension {rule : Rule} (hrule : rule.resyncPolicy? = none) (hK : ∀ k ∈ typeKinds, K k) :
    StaysIn K (dimension rule) := by
  have hextent : StaysIn K extent :=
    .phrase (.cons (.terminal _ (hK _ (by decide)) (by decide) _ _ _) fun _ =>
      .cons (.terminal _ (hK _ (by decide)) (by decide) _ _ _) fun _ =>
      .cons (.terminal _ (hK _ (by decide)) (by decide) _ _ _) fun _ => .nil) nofun
  exact .phrase (hextent.child _ _) (by simp [hrule])

theorem staysIn_typeSpec (hK : ∀ k ∈ typeKinds, K k) : StaysIn K (typeSpec .standard) := by
  have hextra : ∀ n, StaysIn K (noExtraDimension .standard n) := by
    intro n s hs
    unfold noExtraDimension
    split
    · have hb : (extraDimension s.lookahead).Blames s.lookahead := Diagnostic.blames_of_code (by decide) _ _ _ _
      exact ⟨_, .mismatch n hs hb, by simp⟩
    · exact ⟨[], ⟨.refl s, hs.normal⟩, by simp⟩
  refine .phrase (.cons ((staysIn_basicType fun k hk => hK k ?_).child _ _) fun _ =>
    .cons (.whenDescends (.cons ((staysIn_dimension rfl hK).child _ _) fun _ =>
      .cons (.whenDescends (.cons ((staysIn_dimension rfl hK).child _ _) fun _ =>
        .cons (hextra _) fun _ => .nil)) fun _ => .nil)) fun _ => .nil) nofun
  revert k
  decide

/-- The names of a declaration, with the commas between them. -/
theorem staysIn_names (hidentifier : K .identifier) (hcomma : K .comma) :
    StaysIn K (separated .standard .moreNames declaredName) :=
  .separated (.terminal _ hidentifier (by decide) _ _ _) hcomma (by decide) (take_comma_of_standard (.inl rfl))

/-- In front of a semicolon, a statement passes it and nothing else. -/
theorem stays_statement (hsemicolon : K .semicolon) (hs : s.Ready) (hnext : s.nextKind = .semicolon) :
    Stays K s (statement s) := by
  have hrest := State.rest_eq_lookahead_cons (hs.rest_ne_nil (by simp [hnext]))
  obtain ⟨x, xs, ha⟩ : ∃ x xs, s.ahead = [s.lookahead] ++ x :: xs := by
    obtain ⟨x, xs, hx⟩ := List.exists_cons_of_ne_nil (List.concat_ne_nil s.cursor.sentinel s.cursor.advance.2.rest)
    exact ⟨x, xs, by rw [State.ahead, hrest, ← hx]; simp⟩
  have hcomplete : Statement.Complete { semicolon := .ofToken s.lookahead } := Terminal.holds_ofToken.2 hnext
  obtain ⟨ht, -⟩ := rebuilds_statement _ s x xs hcomplete hs ha trivial
  have hready := ht.ready hs
  obtain ⟨es, hr, hq, hsh⟩ := ht.run
  refine ⟨es, ⟨hr, by rw [ht.verdict]; exact hready.normal⟩, ?_⟩
  rw [passes_eq_shifts_of_quiet hq, hsh]
  exact List.forall_mem_singleton.2 (hnext.symm ▸ hsemicolon : K s.nextKind)

/-- Statements are read up to a closing brace, or a token that starts a function or the main block. -/
theorem staysIn_statements (hK : ∀ k, k ∉ [TokenKind.rightBrace, .function, .main] → K k) :
    StaysIn K (many .standard .moreStatements statement) := by
  refine .many (fun s hs hnext => stays_statement (hK _ (by decide)) hs hnext) statement_passesAt
    Table.standard_orderly.moreStatements fun k hk => hK k ?_
  cases k <;> first | decide | exact absurd hk (by decide)

theorem staysIn_varDecl (hK : ∀ k, k ∉ declarationStarts → K k) (hvar : K .var) : StaysIn K (varDecl .standard) := by
  refine .phrase (.cons (.terminal _ hvar (by decide) _ _ _) fun _ =>
    .cons ((staysIn_typeSpec fun k hk => hK k ?_).child _ _) fun _ =>
    .cons ((staysIn_names (hK _ (by decide)) (hK _ (by decide))).child _ _) fun _ =>
    .cons (.terminal _ (hK _ (by decide)) (by decide) _ _ _) fun _ => .nil) ?_
  · revert k
    decide
  · rintro policy ⟨⟩ k hk
    exact hK k hk

/-! What the parts of a function pass after the keyword: no token that starts another function or the main block. -/

/-- The kinds of token that do not end a function. -/
def Inner (k : TokenKind) : Prop := k ≠ .function ∧ k ≠ .main

instance (k : TokenKind) : Decidable (Inner k) := inferInstanceAs (Decidable (_ ∧ _))

/-- A rule that stops at functions and at the main block stays inside of a function. -/
theorem inner_of_notMem {stop : KindSet} (hfunction : .function ∈ stop) (hmain : .main ∈ stop) {k : TokenKind}
    (hk : k ∉ stop) : Inner k :=
  ⟨fun h => hk (h ▸ hfunction), fun h => hk (h ▸ hmain)⟩

/-- The declarations of a program and those of a function are read in the same way. -/
theorem staysIn_varDecls {rule : Rule} (hrule : rule.resyncPolicy? = none) {d : Decision}
    (hd : ∀ k r, Table.standard.action d k = .descend r → k = .var) (hK : ∀ k, Table.standard.refuses d k = true → Inner k) :
    StaysIn Inner (phrase rule {} (child (many .standard d (varDecl .standard)) fun (n : VarDecls) decls => { n with decls })) := by
  have hdecl : StaysIn Inner (varDecl .standard) :=
    staysIn_varDecl (fun k => inner_of_notMem (by decide) (by decide)) (by decide)
  exact .phrase (.child (.many (fun s hs _ => hdecl s hs) (accounts_varDecl Table.standard_orderly).2 hd hK) _ _) (by simp [hrule])

theorem staysIn_localVars : StaysIn Inner (localVars .standard) :=
  staysIn_varDecls rfl Table.standard_orderly.moreLocals fun k hk => by
    cases k <;> first | decide | exact absurd hk (by decide)

theorem staysIn_globalVars : StaysIn Inner (globalVars .standard) :=
  staysIn_varDecls rfl Table.standard_orderly.moreGlobals fun k hk => by
    cases k <;> first | decide | exact absurd hk (by decide)

/-- What comes after the opening brace of a block. -/
theorem staysIn_afterBrace (n : Block) : StaysIn Inner (sequence [
    child (many .standard .moreStatements statement) fun n statements => { n with statements },
    terminal .block .rightBrace Rule.block.follow fun n t => { n with right := t }] n) := by
  refine .cons ((staysIn_statements fun k hk => ?_).child _ _) fun _ =>
    .cons (.terminal _ (by decide) (by decide) _ _ _) fun _ => .nil
  exact ⟨fun h => hk (by simp [h]), fun h => hk (by simp [h])⟩

theorem staysIn_block : StaysIn Inner (block .standard) := by
  refine .phrase (.cons (.terminal _ (by decide) (by decide) _ _ _) staysIn_afterBrace) ?_
  rintro policy ⟨⟩ k hk
  exact inner_of_notMem (by decide) (by decide) hk

theorem staysIn_paramList : StaysIn Inner (paramList .standard) := by
  have hitem : StaysIn Inner (paramItem .standard) := by
    refine .child (.cons ((staysIn_basicType ?_).child _ _) fun _ => .cons (.terminal _ (by decide) (by decide) _ _ _)
      fun _ => .nil) _ _
    decide
  refine .phrase (.child (.separated hitem (by decide) (by decide) (take_comma_of_standard (.inr rfl))) _ _) ?_
  rintro policy ⟨⟩ k hk
  exact inner_of_notMem (by decide) (by decide) hk

end Parser

end QuillFrontEnd
