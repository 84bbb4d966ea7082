import QuillFrontEnd.Proofs.Leaves
import QuillFrontEnd.Proofs.Readers

/-!
# Every token is accounted for

A parse takes each token into the tree or skips it. The tokens in the tree stand in the order of the input, although a rule that
recovers from an error puts the token that closes its phrase into a slot of its own: nothing after that slot was read by then. This
is true with any table that is `Table.Orderly`, and so is the fact that no repetition is entered without a token to pass over.
-/

namespace QuillFrontEnd

/-- What a table must hold for every parse to come to its end: a repetition is only gone into at the keyword or mark with which
its phrases start, functions are followed by the main block or the end of the input, and the sentinel is never taken. -/
structure Table.Orderly (t : Table) : Prop where
  moreGlobals : ∀ k r, t.action .moreGlobals k = .descend r → k = .var
  moreLocals : ∀ k r, t.action .moreLocals k = .descend r → k = .var
  moreFunctions : ∀ k r, t.action .moreFunctions k = .descend r → k = .function
  afterFunctions : ∀ k, t.action .moreFunctions k ≠ .reject → (∀ r, t.action .moreFunctions k ≠ .descend r) →
    k ∈ [TokenKind.main, .leftBrace, .endOfInput]
  moreStatements : ∀ k r, t.action .moreStatements k = .descend r → k = .semicolon
  moreNames : ∀ k, t.action .moreNames .endOfInput ≠ .take k
  moreParams : ∀ k, t.action .moreParams .endOfInput ≠ .take k
  basicType : ∀ k, t.action .basicType .endOfInput ≠ .take k

theorem Table.standard_orderly : Table.standard.Orderly where
  moreGlobals k r h := by cases k <;> cases h; rfl
  moreLocals k r h := by cases k <;> cases h; rfl
  moreFunctions k r h := by cases k <;> cases h; rfl
  afterFunctions k h h' := by
    cases k with
    | main | leftBrace | endOfInput => decide
    | function => exact absurd rfl (h' _)
    | _ => exact absurd rfl h
  moreStatements k r h := by cases k <;> cases h; rfl
  moreNames := nofun
  moreParams := nofun
  basicType := nofun

/-- For a basic type the standard table takes one of the two keywords only. -/
theorem Table.basicType_of_standard {k j : TokenKind} (h : Table.standard.action .basicType k = .take j) :
    k = .numberType ∨ k = .booleanType := by
  cases k with
  | numberType => exact .inl rfl
  | booleanType => exact .inr rfl
  | _ => cases h

namespace Parser

variable {ν μ : Type} {table : Table} {d : Decision}

/-! ## Readers and steps that account for what they take -/

/-- A reader whose node holds, from left to right, exactly the tokens that were taken while it was read. -/
def Accounts (leaves : ν → List Terminal) (reader : Reader ν) : Prop :=
  ∀ s : State, s.Ready → ∃ es, Reaches s es (reader s) ∧ takenTokens (leaves (reader s).node) = shifts es

/-- A step that adds to the node exactly the tokens that it takes, after all that the node holds. It is made on nodes that pass
`pre`, and leaves a node that passes `post` if it succeeds and one that passes `left` if the phrase ends with it. -/
def Fills (leaves : ν → List Terminal) (left pre post : ν → Prop) (step : Step ν) : Prop :=
  ∀ (n : ν) (s : State), pre n → s.Ready →
    ∃ es, Reaches s es (step n s) ∧ takenTokens (leaves (step n s).node) = takenTokens (leaves n) ++ shifts es ∧
      ((step n s).verdict = .matched → post (step n s).node) ∧
      ((step n s).verdict ≠ .matched → left (step n s).node)

variable {leaves : ν → List Terminal} {left pre post : ν → Prop}

theorem Fills.nil (h : ∀ n, pre n → post n) : Fills leaves left pre post (sequence []) :=
  fun n s hn hs => ⟨[], ⟨.refl s, hs.normal⟩, by simp [sequence], fun _ => h n hn, fun hv => absurd rfl hv⟩

theorem Fills.cons {step : Step ν} {steps : List (Step ν)} (mid : ν → Prop) (h : Fills leaves left pre mid step)
    (h' : Fills leaves left mid post (sequence steps)) : Fills leaves left pre post (sequence (step :: steps)) := by
  intro n s hn hs
  obtain ⟨es, hr, ht, hpost, hleft⟩ := h n s hn hs
  rw [sequence]
  split
  · rename_i hv
    obtain ⟨fs, hr', ht', hpost', hleft'⟩ := h' _ _ (hpost hv) (hr.ready hs hv)
    exact ⟨es ++ fs, .trans hr.run hr', by rw [ht', ht, shifts_append, List.append_assoc], hpost', hleft'⟩
  · rename_i hv
    exact ⟨es, hr, ht, fun h => absurd h hv, hleft⟩

theorem Fills.terminal (rule : Rule) {kind : TokenKind} (hk : kind ≠ .endOfInput) (follow : KindSet)
    {put : ν → Terminal → ν} (hleft : ∀ n, pre n → left n)
    (hput : ∀ n t, pre n → takenTokens (leaves (put n t)) = takenTokens (leaves n) ++ t.token?.toList ∧ post (put n t)) :
    Fills leaves left pre post (terminal rule kind follow put) := by
  intro n s hn hs
  obtain ⟨es, hr, ⟨-, -, hsh, hnode, hv⟩ | ⟨-, hsh, t, hnode, hv⟩ | ⟨-, -, -, hsh, hnode, hv⟩⟩ :=
    terminal_reaches rule hk follow put n hs
  · refine ⟨es, hr, ?_, fun _ => hnode ▸ (hput n _ hn).2, by simp [hv]⟩
    rw [hnode, hsh, (hput n _ hn).1]
    rfl
  · refine ⟨es, hr, ?_, fun _ => hnode ▸ (hput n _ hn).2, by simp [hv]⟩
    rw [hnode, hsh, (hput n _ hn).1]
    rfl
  · exact ⟨es, hr, by simp [hnode, hsh], by simp [hv], fun _ => by rw [hnode]; exact hleft n hn⟩

theorem Fills.child {reader : Reader μ} {leavesOfPart : μ → List Terminal} (h : Accounts leavesOfPart reader)
    {put : ν → μ → ν}
    (hput : ∀ n x, pre n → takenTokens (leaves (put n x)) = takenTokens (leaves n) ++ takenTokens (leavesOfPart x) ∧
      post (put n x) ∧ left (put n x)) :
    Fills leaves left pre post (child reader put) := by
  intro n s hn hs
  obtain ⟨es, hr, ht⟩ := h s hs
  obtain ⟨h1, h2, h3⟩ := hput n (reader s).node hn
  exact ⟨es, ⟨hr.run, hr.fits⟩, by rw [← ht]; exact h1, fun _ => h2, fun _ => h3⟩

theorem Fills.optional {step : Step ν} (h : Fills leaves left pre post step) (hskip : ∀ n, pre n → post n ∧ left n) :
    Fills leaves left pre post (optional table d step) := by
  intro n s hn hs
  obtain ⟨es, hr, hsh, hnone, hsome⟩ := run_choose table d hs
  unfold Parser.optional
  generalize choose table d s = c at hr hnone hsome
  obtain ⟨_ | a, t⟩ := c
  · exact ⟨es, ⟨hr, (hnone rfl).1⟩, by simp [hsh], nofun, fun _ => (hskip n hn).2⟩
  · obtain ⟨ht, -⟩ := hsome a rfl
    cases a with
    | descend r =>
      obtain ⟨fs, hr', ht', hpost, hleft⟩ := h n t hn ht
      exact ⟨es ++ fs, .trans hr hr', by rw [ht', shifts_append, hsh, List.nil_append], hpost, hleft⟩
    | take | leave | reject =>
      exact ⟨es, ⟨hr, ht.normal⟩, by simp [hsh], fun _ => (hskip n hn).1, fun hv => absurd rfl hv⟩

theorem Fills.whenDescends {steps : List (Step ν)} (h : Fills leaves left pre post (sequence steps))
    (hskip : ∀ n, pre n → post n) : Fills leaves left pre post (whenDescends table d steps) := by
  intro n s hn hs
  unfold Parser.whenDescends
  split
  · exact h n s hn hs
  · exact ⟨[], ⟨.refl s, hs.normal⟩, by simp, fun _ => hskip n hn, fun hv => absurd rfl hv⟩

/-- A step on a fixed node in which nothing was taken is a reader. -/
theorem Accounts.ofFills {step : Step ν} {blank : ν}
    (h : Fills leaves (fun _ => True) (fun n => n = blank) (fun _ => True) step) (hnil : takenTokens (leaves blank) = []) :
    Accounts leaves (step blank) := by
  intro s hs
  obtain ⟨es, hr, ht, -⟩ := h blank s rfl hs
  exact ⟨es, hr, by rw [ht, hnil, List.nil_append]⟩

theorem Accounts.phrase [Node ν] {rule : Rule} {blank : ν} {step : Step ν} (left pre post : ν → Prop)
    (h : Fills leaves left pre post step) (hblank : pre blank) (hnil : takenTokens (leaves blank) = [])
    (hspan : ∀ span n, leaves (Node.withSpan span n) = leaves n)
    (hclose : ∀ k, rule.terminator? = some k → ∀ n t, left n →
      takenTokens (leaves (Node.close (.ofToken t) n)) = takenTokens (leaves n) ++ [t]) :
    Accounts leaves (phrase rule blank step) := by
  intro s hs
  have ha : Run s [.attempt (.rule rule) .normal] (s.attempt (.rule rule)) := .ofMove (.attempt _ hs.normal)
  obtain ⟨es, hr, ht, -, hcl⟩ := h blank _ hblank (hs.attempt (.rule rule))
  rw [hnil, List.nil_append] at ht
  obtain ⟨fs, hr', hend⟩ := recover_reaches rule (.trans ha hr) hs.toSealed
  refine ⟨_, ⟨hr'.run, hr'.fits⟩, ?_⟩
  unfold Parser.phrase
  dsimp only
  rw [hspan]
  rcases hend with ⟨he, rfl⟩ | ⟨hv, ⟨t, k, hk, hnode, hsh⟩ | ⟨hnode, hsh⟩⟩
  · simp [he, ht]
  · simp [hnode, hclose k hk _ t (hcl (by simp [hv])), ht, hsh]
  · simp [hnode, ht, hsh]

/-- A reader that passes over a token if the next one is of the given kind. -/
def PassesAt (kind : TokenKind) (reader : Reader ν) : Prop :=
  ∀ s : State, s.Ready → s.nextKind = kind → (reader s).state.remaining < s.remaining

/-- A rule whose first step is to read a terminal also passes over a token where that terminal is next. -/
theorem Accounts.phrase_terminal [Node ν] {rule rule' : Rule} {blank : ν} {kind : TokenKind} {follow : KindSet}
    {put : ν → Terminal → ν} {steps : List (Step ν)} (left mid : ν → Prop) (hk : kind ≠ .endOfInput)
    (htail : Fills leaves left mid (fun _ => True) (sequence steps)) (hmid : ∀ t, mid (put blank t))
    (hput : ∀ t, takenTokens (leaves (put blank t)) = t.token?.toList) (hblank : left blank)
    (hnil : takenTokens (leaves blank) = []) (hspan : ∀ span n, leaves (Node.withSpan span n) = leaves n)
    (hclose : ∀ k, rule.terminator? = some k → ∀ n t, left n →
      takenTokens (leaves (Node.close (.ofToken t) n)) = takenTokens (leaves n) ++ [t]) :
    Accounts leaves (Parser.phrase rule blank (sequence (Parser.terminal rule' kind follow put :: steps))) ∧
      PassesAt kind (Parser.phrase rule blank (sequence (Parser.terminal rule' kind follow put :: steps))) := by
  constructor
  · refine .phrase left (fun n => n = blank) (fun _ => True) (.cons mid (.terminal _ hk _ ?_ ?_) htail) rfl hnil hspan hclose
    · intro n hn
      subst hn
      exact hblank
    · intro n t hn
      subst hn
      exact ⟨by rw [hput, hnil, List.nil_append], hmid t⟩
  · intro s hs hnext
    have hs' := (hs.attempt (.rule rule)).attempt (.terminal kind)
    have hne : ((s.attempt (.rule rule)).attempt (.terminal kind)).cursor.rest ≠ [] :=
      hs'.rest_ne_nil (by simp [hnext, hk])
    have hshift : Run _ _ ((s.attempt (.rule rule)).attempt (.terminal kind)).shift := .ofMove (.shift hs'.normal hne)
    obtain ⟨es, hr, -⟩ := htail _ _ (hmid (.ofToken s.lookahead)) ⟨hshift.sealed hs'.toSealed, hs'.normal⟩
    obtain ⟨fs, hr', -⟩ := recover_reaches rule hr (hshift.sealed hs'.toSealed)
    unfold Parser.phrase
    dsimp only
    have hnext' : (s.attempt (.rule rule)).nextKind = kind := hnext
    rw [sequence, terminal_of_nextKind _ _ _ _ hnext']
    exact Nat.lt_of_le_of_lt hr'.run.remaining_le (State.remaining_shift_lt hne)

/-! ## Repetitions -/

theorem Accounts.many {reader : Reader ν} {kind : TokenKind} (h : Accounts leaves reader) (hp : PassesAt kind reader)
    (hd : ∀ k r, table.action d k = .descend r → k = kind) : Accounts (fun ns => ns.flatMap leaves) (many table d reader) := by
  intro s hs
  induction hn : s.remaining using Nat.strong_induction_on generalizing s with
  | _ n ih =>
    obtain ⟨es, hr, hsh, hnone, hsome⟩ := run_choose table d hs
    rw [Parser.many]
    have hle := hr.remaining_le
    generalize choose table d s = c at hr hnone hsome hle
    obtain ⟨_ | a, t⟩ := c
    · exact ⟨es, ⟨hr, (hnone rfl).1⟩, by simp [hsh]⟩
    obtain ⟨ht, hact, -, -⟩ := hsome a rfl
    cases a with
    | take | leave | reject => exact ⟨es, ⟨hr, ht.normal⟩, by simp [hsh]⟩
    | descend r =>
      obtain ⟨fs, hr', ht'⟩ := h t ht
      have hlt : (reader t).state.remaining < s.remaining := Nat.lt_of_lt_of_le (hp t ht (hd _ r hact)) hle
      dsimp only
      split
      · rename_i hv
        rw [if_pos hlt]
        obtain ⟨gs, hr'', ht''⟩ := ih _ (hn ▸ hlt) _ (hr'.ready ht hv) rfl
        refine ⟨es ++ (fs ++ gs), ⟨hr.trans (hr'.run.trans hr''.run), hr''.fits⟩, ?_⟩
        simp [hsh, ht', ht'']
      · exact ⟨es ++ fs, ⟨hr.trans hr'.run, hr'.fits⟩, by simp [hsh, ht']⟩

theorem Accounts.separated {item : Reader (List ν)} (h : Accounts (fun ns => ns.flatMap leaves) item)
    (hone : ∀ s, (item s).verdict = .matched → ∃ n, (item s).node = [n])
    (hend : ∀ k, table.action d .endOfInput ≠ .take k) :
    Accounts (Separated.leaves leaves) (separated table d item) := by
  intro s hs
  induction hn : s.remaining using Nat.strong_induction_on generalizing s with
  | _ n ih =>
    obtain ⟨es, hr, ht⟩ := h s hs
    rw [Parser.separated]
    dsimp only
    split
    · rename_i hv
      have hready := hr.ready hs hv
      split
      · rename_i k hact
        -- The separator is not the sentinel, so the test that something was passed over succeeds.
        have hne : (item s).state.cursor.rest ≠ [] := hready.rest_ne_nil (fun hk => hend k (hk ▸ hact))
        have hrs : Run s (es ++ [.shift (item s).state.lookahead]) (item s).state.shift := hr.run.trans (.ofMove (.shift hready.normal hne))
        have hlt : (item s).state.shift.remaining < s.remaining :=
          Nat.lt_of_lt_of_le (State.remaining_shift_lt hne) hr.run.remaining_le
        rw [if_pos hlt]
        obtain ⟨fs, hr', ht'⟩ := ih _ (hn ▸ hlt) _ ⟨hrs.sealed hs.toSealed, hready.normal⟩ rfl
        refine ⟨_, .trans hrs ⟨hr'.run, hr'.fits⟩, ?_⟩
        obtain ⟨x, hx⟩ := hone s hv
        rw [hx] at ht ⊢
        simp only [List.flatMap_singleton] at ht
        rw [Separated.leaves] at ht' ⊢
        simp [Separated.interleave, ht, ht']
      · refine ⟨es, ⟨hr.run, hready.normal⟩, ?_⟩
        rw [Separated.leaves, Separated.interleave_nil_right, ht]
    · refine ⟨es, ⟨hr.run, hr.fits⟩, ?_⟩
      rw [Separated.leaves, Separated.interleave_nil_right, ht]

/-! ## Rules -/

theorem accounts_basicType (hT : table.Orderly) : Accounts (fun n => n.element.leaves) (basicType table) := by
  refine .phrase (fun _ => True) (fun n => n = {}) (fun _ => True) ?_ rfl rfl (fun _ _ => rfl) nofun
  intro n s hn hs
  subst hn
  dsimp only
  split
  · rename_i k hk
    have hne : s.cursor.rest ≠ [] := hs.rest_ne_nil (fun h => hT.basicType k (h ▸ hk))
    exact ⟨_, ⟨.ofMove (.shift hs.normal hne), hs.normal⟩, by simp, fun _ => trivial, fun _ => trivial⟩
  · exact ⟨_, .mismatch _ hs (Diagnostic.blames_of_code (by decide) _ _ _ _), by simp, fun _ => trivial, fun _ => trivial⟩

theorem accounts_extent : Accounts (fun n => n.element.leaves) extent := by
  refine .phrase (fun _ => True) (fun n => n = {}) (fun _ => True) ?_ rfl rfl (fun _ _ => rfl) nofun
  refine .cons (fun n => ∃ l, n = { left := l }) (.terminal _ (by decide) _ (fun _ _ => trivial) ?_) <|
    .cons (fun n => ∃ l i, n = { left := l, size := i }) (.terminal _ (by decide) _ (fun _ _ => trivial) ?_) <|
    .cons (fun _ => True) (.terminal _ (by decide) _ (fun _ _ => trivial) ?_) (.nil fun _ h => h)
  · intro n t hn
    subst hn
    exact ⟨by simp, t, rfl⟩
  · intro n t hn
    obtain ⟨l, rfl⟩ := hn
    exact ⟨by simp, l, t, rfl⟩
  · intro n t hn
    obtain ⟨l, i, rfl⟩ := hn
    exact ⟨by simp, trivial⟩

theorem accounts_dimension {rule : Rule} (hr : rule.terminator? = none) :
    Accounts (fun n => n.extent.element.leaves) (dimension rule) := by
  refine .phrase (fun _ => True) (fun n => n = {}) (fun _ => True) ?_ rfl rfl (fun _ _ => rfl) (by simp [hr])
  refine .child accounts_extent ?_
  intro n e hn
  subst hn
  exact ⟨by simp, trivial, trivial⟩

theorem fills_noExtraDimension :
    Fills (fun n => n.element.leaves) (fun _ => True) (fun _ => True) (fun _ => True) (noExtraDimension table) := by
  intro n s _ hs
  unfold noExtraDimension
  split
  · have hb : (extraDimension s.lookahead).Blames s.lookahead := Diagnostic.blames_of_code (by decide) _ _ _ _
    exact ⟨_, .mismatch n hs hb, by simp, nofun, fun _ => trivial⟩
  · exact ⟨[], ⟨.refl s, hs.normal⟩, by simp, fun _ => trivial, fun _ => trivial⟩

theorem accounts_typeSpec (hT : table.Orderly) : Accounts (fun n => n.element.leaves) (typeSpec table) := by
  refine .phrase (fun _ => True) (fun n => n = {}) (fun _ => True) ?_ rfl rfl (fun _ _ => rfl) nofun
  refine .cons (fun n => ∃ b, n = { basic := b }) (.child (accounts_basicType hT) ?_) <|
    .cons (fun _ => True) (.whenDescends
      (.cons (fun n => ∃ b d, n = { basic := b, first := some d }) (.child (accounts_dimension rfl) ?_) <|
        .cons (fun _ => True) (.whenDescends
          (.cons (fun _ => True) (.child (accounts_dimension rfl) ?_) <| .cons (fun _ => True) ?_ (.nil fun _ h => h))
          fun _ _ => trivial) (.nil fun _ h => h)) fun _ _ => trivial) (.nil fun _ h => h)
  · intro n b hn
    subst hn
    exact ⟨by simp [TypeSpec.leaves_element], ⟨b, rfl⟩, trivial⟩
  · intro n d hn
    obtain ⟨b, rfl⟩ := hn
    exact ⟨by simp [TypeSpec.leaves_element], ⟨b, d, rfl⟩, trivial⟩
  · intro n d hn
    obtain ⟨b, e, rfl⟩ := hn
    exact ⟨by simp [TypeSpec.leaves_element], trivial, trivial⟩
  · exact fills_noExtraDimension

/-- A declared name is taken or put in, or there is none. -/
theorem accounts_declaredName : Accounts (fun ns => ns.flatMap fun t => [t]) declaredName := by
  refine .ofFills (.terminal _ (by decide) _ (fun _ _ => trivial) ?_) rfl
  intro n t hn
  subst hn
  exact ⟨by simp, trivial⟩

theorem declaredName_eq_singleton (s : State) (h : (declaredName s).verdict = .matched) :
    ∃ t, (declaredName s).node = [t] := by
  unfold declaredName terminal at h ⊢
  split
  · exact ⟨_, rfl⟩
  · rename_i heq
    rw [heq] at h
    cases h

theorem accounts_varDecl (hT : table.Orderly) :
    Accounts (fun n => n.element.leaves) (varDecl table) ∧ PassesAt .var (varDecl table) := by
  refine Accounts.phrase_terminal (fun n => n.semicolon = .absent .semicolon) (fun n => ∃ k, n = { keyword := k }) (by decide) ?_
    (fun k => ⟨k, rfl⟩) (fun t => ?_) rfl rfl (fun _ _ => rfl) ?_
  · refine .cons (fun n => ∃ k t, n = { keyword := k, type := t }) (.child (accounts_typeSpec hT) ?_) <|
      .cons (fun n => ∃ k t ns, n = { keyword := k, type := t, names := ns })
        (.child (.separated accounts_declaredName declaredName_eq_singleton hT.moreNames) ?_) <|
      .cons (fun _ => True) (.terminal _ (by decide) _ ?_ ?_) (.nil fun _ h => h)
    · intro n t hn
      obtain ⟨k, rfl⟩ := hn
      exact ⟨by simp [VarDecl.leaves_element, TypeSpec.leaves_element, Separated.leaves, Separated.interleave],
        ⟨k, t, rfl⟩, rfl⟩
    · intro n ns hn
      obtain ⟨k, t, rfl⟩ := hn
      exact ⟨by simp [VarDecl.leaves_element, Separated.leaves, Separated.interleave], ⟨k, t, ns, rfl⟩, rfl⟩
    · intro n hn
      obtain ⟨k, t, ns, rfl⟩ := hn
      rfl
    · intro n c hn
      obtain ⟨k, t, ns, rfl⟩ := hn
      exact ⟨by simp [VarDecl.leaves_element], trivial⟩
  · simp [VarDecl.leaves_element, TypeSpec.leaves_element, Separated.leaves, Separated.interleave]
  · intro _ _ n t hn
    simp [Node.close, VarDecl.leaves_element, hn]

/-- The declarations of a program and those of a function are read in the same way. -/
theorem accounts_varDecls (hT : table.Orderly) {rule : Rule} (hr : rule.terminator? = none)
    (hd : ∀ k r, table.action d k = .descend r → k = .var) :
    Accounts (fun n => n.decls.flatMap fun v => v.element.leaves)
      (phrase rule {} (child (many table d (varDecl table)) fun (n : VarDecls) decls => { n with decls })) := by
  refine .phrase (fun _ => True) (fun n => n = {}) (fun _ => True) ?_ rfl rfl (fun _ _ => rfl) (by simp [hr])
  refine .child (.many (accounts_varDecl hT).1 (accounts_varDecl hT).2 hd) ?_
  intro n decls hn
  subst hn
  exact ⟨by simp, trivial, trivial⟩

theorem accounts_globalVars (hT : table.Orderly) :
    Accounts (fun n => (n.element .globalVars).leaves) (globalVars table) := by
  simp only [VarDecls.leaves_element]
  exact accounts_varDecls hT rfl hT.moreGlobals

theorem accounts_localVars (hT : table.Orderly) :
    Accounts (fun n => (n.element .localVars).leaves) (localVars table) := by
  simp only [VarDecls.leaves_element]
  exact accounts_varDecls hT rfl hT.moreLocals

theorem accounts_expression : Accounts (fun n => n.element.leaves) expression :=
  .phrase (fun _ => True) (fun n => n = {}) (fun _ => True) (.nil fun _ _ => trivial) rfl rfl (fun _ _ => rfl) nofun

theorem accounts_statement : Accounts (fun n => n.element.leaves) statement := by
  refine .phrase (fun n => n.semicolon = .absent .semicolon) (fun n => n = {}) (fun _ => True) ?_ rfl rfl (fun _ _ => rfl) ?_
  · refine .cons (fun n => ∃ e, n = { expression := e }) (.child accounts_expression ?_) <|
      .cons (fun _ => True) (.terminal _ (by decide) _ ?_ ?_) (.nil fun _ h => h)
    · intro n e hn
      subst hn
      exact ⟨by simp, ⟨e, rfl⟩, rfl⟩
    · intro n hn
      obtain ⟨e, rfl⟩ := hn
      rfl
    · intro n c hn
      obtain ⟨e, rfl⟩ := hn
      exact ⟨by simp, trivial⟩
  · intro _ _ n t hn
    simp [Node.close, hn]

/-- The expression before it is empty, so a statement passes over its semicolon. -/
theorem statement_passesAt : PassesAt .semicolon statement := by
  intro s hs hnext
  have hne : s.cursor.rest ≠ [] := hs.rest_ne_nil (by simp [hnext])
  have h : (statement s).state =
      (((s.attempt (.rule .statement)).attempt (.rule .expression)).attempt (.terminal .semicolon)).shift := by
    simp [statement, phrase, sequence, child, expression, recover, terminal_of_nextKind, hnext]
  rw [h]
  exact State.remaining_shift_lt hne

theorem accounts_block (hT : table.Orderly) : Accounts (fun n => n.element.leaves) (block table) := by
  refine .phrase (fun n => n.right = .absent .rightBrace) (fun n => n = {}) (fun _ => True) ?_ rfl rfl (fun _ _ => rfl) ?_
  · refine .cons (fun n => ∃ l, n = { left := l }) (.terminal _ (by decide) _ ?_ ?_) <|
      .cons (fun n => ∃ l ss, n = { left := l, statements := ss })
        (.child (.many accounts_statement statement_passesAt hT.moreStatements) ?_) <|
      .cons (fun _ => True) (.terminal _ (by decide) _ ?_ ?_) (.nil fun _ h => h)
    · intro n hn
      subst hn
      rfl
    · intro n l hn
      subst hn
      exact ⟨by simp [Block.leaves_element], l, rfl⟩
    · intro n ss hn
      obtain ⟨l, rfl⟩ := hn
      exact ⟨by simp [Block.leaves_element], ⟨l, ss, rfl⟩, rfl⟩
    · intro n hn
      obtain ⟨l, ss, rfl⟩ := hn
      rfl
    · intro n r hn
      obtain ⟨l, ss, rfl⟩ := hn
      exact ⟨by simp [Block.leaves_element], trivial⟩
  · intro _ _ n t hn
    simp [Node.close, Block.leaves_element, hn]

theorem accounts_param (hT : table.Orderly) : Accounts Param.leaves (param table) := by
  refine .ofFills ?_ rfl
  refine .cons (fun n => ∃ b, n = { type := b }) (.child (accounts_basicType hT) ?_) <|
    .cons (fun _ => True) (.terminal _ (by decide) _ (fun _ _ => trivial) ?_) (.nil fun _ h => h)
  · intro n b hn
    subst hn
    exact ⟨by simp [Param.leaves], ⟨b, rfl⟩, trivial⟩
  · intro n t hn
    obtain ⟨b, rfl⟩ := hn
    exact ⟨by simp [Param.leaves], trivial⟩

theorem accounts_paramItem (hT : table.Orderly) :
    Accounts (fun ps => ps.flatMap Param.leaves) (paramItem table) := by
  refine .ofFills (.child (accounts_param hT) ?_) rfl
  intro n p hn
  subst hn
  exact ⟨by simp, trivial, trivial⟩

theorem accounts_paramList (hT : table.Orderly) : Accounts (fun n => n.element.leaves) (paramList table) := by
  simp only [ParamList.leaves_element]
  refine .phrase (fun _ => True) (fun n => n = {}) (fun _ => True) ?_ rfl rfl (fun _ _ => rfl) nofun
  refine .child (.separated (accounts_paramItem hT) (fun s _ => ⟨_, rfl⟩) hT.moreParams) ?_
  intro n ps hn
  subst hn
  exact ⟨by simp [Separated.leaves, Separated.interleave], trivial, trivial⟩

theorem accounts_functionDecl (hT : table.Orderly) :
    Accounts (fun n => n.element.leaves) (functionDecl table) ∧ PassesAt .function (functionDecl table) := by
  refine Accounts.phrase_terminal (fun _ => True) (fun n => ∃ k, n = { keyword := k }) (by decide) ?_
    (fun k => ⟨k, rfl⟩) (fun t => rfl) trivial rfl (fun _ _ => rfl) nofun
  refine .cons (fun n => ∃ k i, n = { keyword := k, name := i }) (.terminal _ (by decide) _ (fun _ _ => trivial) ?_) <|
    .cons (fun n => ∃ k i l, n = { keyword := k, name := i, left := l })
      (.terminal _ (by decide) _ (fun _ _ => trivial) ?_) <|
    .cons (fun n => ∃ k i l ps, n = { keyword := k, name := i, left := l, params := ps })
      (.optional (.child (accounts_paramList hT) ?_) ?_) <|
    .cons (fun n => ∃ k i l ps r, n = { keyword := k, name := i, left := l, params := ps, right := r })
      (.terminal _ (by decide) _ (fun _ _ => trivial) ?_) <|
    .cons (fun n => ∃ k i l ps r vs, n = { keyword := k, name := i, left := l, params := ps, right := r, locals := vs })
      (.child (accounts_localVars hT) ?_) <|
    .cons (fun _ => True) (.child (accounts_block hT) ?_) (.nil fun _ h => h)
  · intro n i hn
    obtain ⟨k, rfl⟩ := hn
    exact ⟨by simp [FunctionDecl.leaves_element, VarDecls.leaves_element, Block.leaves_element], k, i, rfl⟩
  · intro n l hn
    obtain ⟨k, i, rfl⟩ := hn
    exact ⟨by simp [FunctionDecl.leaves_element, VarDecls.leaves_element, Block.leaves_element], k, i, l, rfl⟩
  · intro n ps hn
    obtain ⟨k, i, l, rfl⟩ := hn
    exact ⟨by simp [FunctionDecl.leaves_element, VarDecls.leaves_element, Block.leaves_element], ⟨k, i, l, ps, rfl⟩, trivial⟩
  · intro n hn
    obtain ⟨k, i, l, rfl⟩ := hn
    exact ⟨⟨k, i, l, none, rfl⟩, trivial⟩
  · intro n r hn
    obtain ⟨k, i, l, ps, rfl⟩ := hn
    exact ⟨by simp [FunctionDecl.leaves_element, VarDecls.leaves_element, Block.leaves_element], k, i, l, ps, r, rfl⟩
  · intro n vs hn
    obtain ⟨k, i, l, ps, r, rfl⟩ := hn
    exact ⟨by simp [FunctionDecl.leaves_element, VarDecls.leaves_element, Block.leaves_element],
      ⟨k, i, l, ps, r, vs, rfl⟩, trivial⟩
  · intro n b hn
    obtain ⟨k, i, l, ps, r, vs, rfl⟩ := hn
    exact ⟨by simp [FunctionDecl.leaves_element, Block.leaves_element], trivial, trivial⟩

theorem accounts_functions (hT : table.Orderly) : Accounts (fun n => n.element.leaves) (functions table) := by
  simp only [Functions.leaves_element]
  refine .phrase (fun _ => True) (fun n => n = {}) (fun _ => True) ?_ rfl rfl (fun _ _ => rfl) nofun
  refine .child (.many (accounts_functionDecl hT).1 (accounts_functionDecl hT).2 hT.moreFunctions) ?_
  intro n decls hn
  subst hn
  exact ⟨by simp, trivial, trivial⟩

theorem accounts_mainBlock (hT : table.Orderly) : Accounts (fun n => n.element.leaves) (mainBlock table) := by
  simp only [MainBlock.leaves_element]
  refine .phrase (fun _ => True) (fun n => n = {}) (fun _ => True) ?_ rfl rfl (fun _ _ => rfl) nofun
  refine .cons (fun n => ∃ k, n = { keyword := k }) (.terminal _ (by decide) _ (fun _ _ => trivial) ?_) <|
    .cons (fun _ => True) (.child (accounts_block hT) ?_) (.nil fun _ h => h)
  · intro n k hn
    subst hn
    exact ⟨by simp [Block.leaves_element], k, rfl⟩
  · intro n b hn
    obtain ⟨k, rfl⟩ := hn
    exact ⟨by simp [Block.leaves_element], trivial, trivial⟩

/-! ## Programs -/

/-- Whatever of the header is read stays in the node, also where the program goes on after an error in it. -/
theorem fills_header :
    Fills (fun n => n.element.leaves) (fun n => n.eof = .absent .endOfInput) (fun n => n = {})
      (fun n => ∃ k i c, n = { keyword := k, name := i, colon := c }) header := by
  have h : Fills (fun n : Program => n.element.leaves) (fun n => ∃ k i c, n = { keyword := k, name := i, colon := c })
      (fun n => n = {}) (fun n => ∃ k i c, n = { keyword := k, name := i, colon := c }) (sequence headerSteps) := by
    refine .cons (fun n => ∃ k, n = { keyword := k }) (.terminal _ (by decide) _ ?_ ?_) <|
      .cons (fun n => ∃ k i, n = { keyword := k, name := i }) (.terminal _ (by decide) _ ?_ ?_) <|
      .cons _ (.terminal _ (by decide) _ ?_ ?_) (.nil fun _ h => h)
    · intro n hn
      subst hn
      exact ⟨_, _, _, rfl⟩
    · intro n k hn
      subst hn
      exact ⟨rfl, k, rfl⟩
    · intro n hn
      obtain ⟨k, rfl⟩ := hn
      exact ⟨k, _, _, rfl⟩
    · intro n i hn
      obtain ⟨k, rfl⟩ := hn
      exact ⟨by simp [Program.leaves_element, VarDecls.leaves_element, Functions.leaves_element, MainBlock.leaves_element,
        Block.leaves_element], k, i, rfl⟩
    · intro n hn
      obtain ⟨k, i, rfl⟩ := hn
      exact ⟨k, i, _, rfl⟩
    · intro n c hn
      obtain ⟨k, i, rfl⟩ := hn
      exact ⟨by simp [Program.leaves_element, VarDecls.leaves_element, Functions.leaves_element, MainBlock.leaves_element,
        Block.leaves_element], k, i, c, rfl⟩
  intro n s hn hs
  obtain ⟨es, hr, ht, hpost, hleft⟩ := h n s hn hs
  have heof : ∀ n : Program, (∃ k i c, n = { keyword := k, name := i, colon := c }) → n.eof = .absent .endOfInput := by
    intro n hn
    obtain ⟨k, i, c, rfl⟩ := hn
    rfl
  unfold header
  dsimp only
  split
  · rename_i hv
    obtain ⟨fs, hr', -, hnode, hsh⟩ := restart_reaches (sequence headerSteps n s).node (hr.recovering hv)
    have hn' := hleft (by simp [hv])
    exact ⟨es ++ fs, .trans hr.run hr', by rw [hnode, ht, shifts_append, hsh, List.append_nil],
      fun _ => by rw [hnode]; exact hn', fun _ => by rw [hnode]; exact heof _ hn'⟩
  · exact ⟨es, hr, ht, hpost, fun hv => heof _ (hleft hv)⟩

theorem header_verdict_ne_mismatched (n : Program) (s : State) : (header n s).verdict ≠ .mismatched := by
  unfold header restart
  dsimp only
  split
  · split <;> exact nofun
  · assumption

/-- In front of the tokens at which functions end, the main block can only fail at the end of the input. -/
theorem mainBlock_ended {s : State} (hs : s.Ready) (hk : s.nextKind ∈ [TokenKind.main, .leftBrace, .endOfInput])
    (hv : (mainBlock table s).verdict = .mismatched) : (mainBlock table s).state.cursor.rest = [] := by
  have hblock : ∀ t, (block table t).verdict ≠ .mismatched := phrase_verdict_ne_mismatched (by decide) _ _
  unfold mainBlock phrase at hv ⊢
  rw [recover_of_no_policy rfl] at hv ⊢
  dsimp only at hv ⊢
  obtain ⟨es, hr, h⟩ := terminal_reaches .main (show TokenKind.main ≠ .endOfInput by decide) Rule.block.first
    (fun (n : MainBlock) t => { n with keyword := t }) {} (hs.attempt (.rule .main))
  rcases h with ⟨-, -, -, -, hm⟩ | ⟨-, -, -, -, hm⟩ | ⟨hmain, hbrace, -, -, -, hm⟩
  -- Where the keyword is read or put in, the block after it hands no error on.
  · rw [sequence_cons_of_matched _ hm] at hv
    exact absurd hv (sequence_verdict_ne_mismatched (by simp [child, hblock]) _ _)
  · rw [sequence_cons_of_matched _ hm] at hv
    exact absurd hv (sequence_verdict_ne_mismatched (by simp [child, hblock]) _ _)
  · rw [sequence_cons_of_ne_matched _ (by simp [hm])]
    have hend : s.nextKind = .endOfInput := by
      simp only [List.mem_cons, List.not_mem_nil, or_false] at hk
      rcases hk with hk | hk | hk
      · exact absurd hk hmain
      · exact absurd (by rw [State.nextKind_attempt, hk]; decide) hbrace
      · exact hk
    exact hr.run.rest_eq_nil (hs.nextKind_eq_endOfInput_iff.1 hend)

theorem functions_verdict_ne_mismatched (s : State) : (functions table s).verdict ≠ .mismatched := by
  unfold functions phrase
  rw [recover_of_no_policy rfl]
  exact many_verdict_ne_mismatched (phrase_verdict_ne_mismatched (by decide) _ _) _

theorem globalVars_verdict_ne_mismatched (s : State) : (globalVars table s).verdict ≠ .mismatched := by
  unfold globalVars phrase
  rw [recover_of_no_policy rfl]
  exact many_verdict_ne_mismatched (phrase_verdict_ne_mismatched (by decide) _ _) _

/-- After the functions of a program its main block is next, or the end of the input. -/
theorem nextKind_of_functions (hT : table.Orderly) {s : State} (h : (functions table s).verdict = .matched) :
    (functions table s).state.nextKind ∈ [TokenKind.main, .leftBrace, .endOfInput] := by
  unfold functions phrase at h ⊢
  rw [recover_of_no_policy rfl] at h ⊢
  obtain ⟨h1, h2⟩ := action_of_many _ h
  exact hT.afterFunctions _ h1 h2

/-- A step of a program that adds to the node the tokens that it takes, and hands no error on. It is made on nodes and in states
that pass `pre`, and leaves those that pass `post` if it succeeds. -/
def Advances (pre post : Program → State → Prop) (step : Step Program) : Prop :=
  ∀ (n : Program) (s : State), pre n s → s.Ready →
    ∃ es, Reaches s es (step n s) ∧ (step n s).verdict ≠ .mismatched ∧
      takenTokens (step n s).node.element.leaves = takenTokens n.element.leaves ++ shifts es ∧
      (step n s).node.eof = .absent .endOfInput ∧
      ((step n s).verdict = .matched → post (step n s).node (step n s).state)

/-- Steps of a program that also come to the end of the input. -/
def Concludes (pre : Program → State → Prop) (steps : List (Step Program)) : Prop :=
  ∀ (n : Program) (s : State), pre n s → s.Ready →
    ∃ es, Reaches s es (sequence steps n s) ∧
      takenTokens (sequence steps n s).node.element.leaves = takenTokens n.element.leaves ++ shifts es ∧
      (sequence steps n s).node.eof = .absent .endOfInput ∧ (sequence steps n s).state.cursor.rest = []

theorem Concludes.cons {pre post : Program → State → Prop} {step : Step Program} {steps : List (Step Program)}
    (h : Advances pre post step) (h' : Concludes post steps) : Concludes pre (step :: steps) := by
  intro n s hn hs
  obtain ⟨es, hr, hne, ht, heof, hpost⟩ := h n s hn hs
  by_cases hv : (step n s).verdict = .matched
  · rw [sequence_cons_of_matched steps hv]
    obtain ⟨fs, hr', ht', heof', hend⟩ := h' _ _ (hpost hv) (hr.ready hs hv)
    exact ⟨es ++ fs, .trans hr.run hr', by rw [ht', ht, shifts_append, List.append_assoc], heof', hend⟩
  · rw [sequence_cons_of_ne_matched steps hv]
    exact ⟨es, hr, ht, heof, hr.ended hv hne⟩

theorem advances_header :
    Advances (fun n _ => n = {}) (fun n _ => ∃ k i c, n = { keyword := k, name := i, colon := c }) header := by
  intro n s hn hs
  obtain ⟨es, hr, ht, hpost, hleft⟩ := fills_header n s hn hs
  refine ⟨es, hr, header_verdict_ne_mismatched n s, ht, ?_, hpost⟩
  by_cases hv : (header n s).verdict = .matched
  · obtain ⟨k, i, c, h⟩ := hpost hv
    rw [h]
  · exact hleft hv

theorem advances_globalVars (hT : table.Orderly) :
    Advances (fun n _ => ∃ k i c, n = { keyword := k, name := i, colon := c })
      (fun n _ => ∃ k i c vs, n = { keyword := k, name := i, colon := c, globals := vs })
      (child (globalVars table) fun n vs => { n with globals := vs }) := by
  intro n s hn hs
  obtain ⟨k, i, c, rfl⟩ := hn
  obtain ⟨es, hr, ht⟩ := accounts_globalVars hT s hs
  refine ⟨es, ⟨hr.run, hr.fits⟩, globalVars_verdict_ne_mismatched s, ?_, rfl, fun _ => ⟨k, i, c, _, rfl⟩⟩
  simp [child, Program.leaves_element, VarDecls.leaves_element, Functions.leaves_element, MainBlock.leaves_element,
    Block.leaves_element, ← ht]

theorem advances_functions (hT : table.Orderly) :
    Advances (fun n _ => ∃ k i c vs, n = { keyword := k, name := i, colon := c, globals := vs })
      (fun n s => s.nextKind ∈ [TokenKind.main, .leftBrace, .endOfInput] ∧
        ∃ k i c vs fs, n = { keyword := k, name := i, colon := c, globals := vs, functions := fs })
      (child (functions table) fun n fs => { n with functions := fs }) := by
  intro n s hn hs
  obtain ⟨k, i, c, vs, rfl⟩ := hn
  obtain ⟨es, hr, ht⟩ := accounts_functions hT s hs
  refine ⟨es, ⟨hr.run, hr.fits⟩, functions_verdict_ne_mismatched s, ?_, rfl,
    fun hv => ⟨nextKind_of_functions hT hv, k, i, c, vs, _, rfl⟩⟩
  simp [child, Program.leaves_element, Functions.leaves_element, MainBlock.leaves_element, Block.leaves_element, ← ht]

theorem advances_mainStep (hT : table.Orderly) :
    Advances (fun n s => s.nextKind ∈ [TokenKind.main, .leftBrace, .endOfInput] ∧
        ∃ k i c vs fs, n = { keyword := k, name := i, colon := c, globals := vs, functions := fs })
      (fun n _ => n.eof = .absent .endOfInput) (mainStep table) := by
  intro n s hn hs
  obtain ⟨hk, k, i, c, vs, fs, rfl⟩ := hn
  obtain ⟨es, hr, ht⟩ := accounts_mainBlock hT s hs
  unfold mainStep child
  dsimp only
  split
  · rename_i hv
    have hend := mainBlock_ended hs hk hv
    refine ⟨_, ⟨hr.run.trans (.ofMove (.abandon .main hend)), hend⟩, nofun, ?_, rfl, nofun⟩
    simp [Program.leaves_element, MainBlock.leaves_element, Block.leaves_element, ← ht]
  · rename_i hv
    refine ⟨es, ⟨hr.run, hr.fits⟩, hv, ?_, rfl, fun _ => rfl⟩
    simp [Program.leaves_element, MainBlock.leaves_element, Block.leaves_element, ← ht]

theorem concludes_nothingLeft : Concludes (fun n _ => n.eof = .absent .endOfInput) [nothingLeft] := by
  intro n s hn hs
  obtain ⟨es, hr, hnode, hv, hend, hsh, -⟩ := nothingLeft_reaches n hs
  rw [sequence_cons_of_matched [] hv, sequence, hnode]
  exact ⟨es, ⟨hr.run, (hr.ready hs hv).normal⟩, by simp [hsh], hn, hend⟩

theorem concludes_programSteps (hT : table.Orderly) : Concludes (fun n _ => n = {}) (programSteps table) :=
  .cons advances_header (.cons (advances_globalVars hT) (.cons (advances_functions hT)
    (.cons (advances_mainStep hT) concludes_nothingLeft)))

/-- Reading a program is reading its parts and then, in any case, taking the sentinel into the tree. -/
theorem program_eq (table : Table) (s : State) :
    (program table s).state = (sequence (programSteps table) {} (s.attempt (.rule .start))).state.shift ∧
      (program table s).verdict = (sequence (programSteps table) {} (s.attempt (.rule .start))).verdict ∧
      ∃ span, (program table s).node =
        { (sequence (programSteps table) {} (s.attempt (.rule .start))).node with
          eof := .ofToken (sequence (programSteps table) {} (s.attempt (.rule .start))).state.lookahead
          span := span } := by
  unfold program phrase
  rw [recover_of_no_policy rfl]
  exact ⟨rfl, rfl, _, rfl⟩

/-- Reading a program comes to the end of the input by a run, and then takes the sentinel into the tree. -/
theorem program_reaches (hT : table.Orderly) {s : State} (hs : s.Ready) :
    ∃ (es : List Event) (t : State), Run s es t ∧ t.cursor.rest = [] ∧ (program table s).state = t.shift ∧
      (program table s).verdict ≠ .stalled ∧ (program table s).node.eof = .ofToken s.cursor.sentinel ∧
      takenTokens (program table s).node.element.leaves = shifts es ++ [s.cursor.sentinel] := by
  have ha : Run s [.attempt (.rule .start) .normal] (s.attempt (.rule .start)) := .ofMove (.attempt _ hs.normal)
  obtain ⟨es, hr, ht, heof, hend⟩ := concludes_programSteps hT {} _ rfl (hs.attempt (.rule .start))
  obtain ⟨hstate, hverdict, span, hnode⟩ := program_eq table s
  have hrun := ha.trans hr.run
  generalize sequence (programSteps table) {} (s.attempt (.rule .start)) = o at *
  have hlook : o.state.lookahead = s.cursor.sentinel := by
    rw [State.lookahead, Cursor.peek, hend, hrun.effect.sentinel, List.headD_nil]
  rw [hlook] at hnode
  refine ⟨_, _, hrun, hend, hstate, by rw [hverdict]; exact hr.ne_stalled, by rw [hnode], ?_⟩
  have hblank : takenTokens (({} : Program).element.leaves) = [] := rfl
  rw [hblank, List.nil_append, Program.leaves_element, heof] at ht
  simp only [takenTokens_cons, takenTokens_append, Terminal.token?_absent, takenTokens_nil, Option.toList_none,
    List.append_nil] at ht
  rw [hnode, Program.leaves_element, shifts_append, ← ht]
  simp

end Parser

open QuillFrontEnd.Parser

/-- The trace of a whole parse: the run to the end of the input, and the sentinel after it. -/
theorem parseWith_run {table : Table} (hT : table.Orderly) (ts : TokenList) :
    ∃ (es : List Event) (t : State), Run (.initial ts) es t ∧ t.cursor.rest = [] ∧
      (parseWith table ts).trace.reverse = es ++ [.shift ts.sentinel] ∧ (parseWith table ts).consumed = t.consumed + 1 ∧
      (parseWith table ts).verdict ≠ .stalled ∧ (parseWith table ts).tree.eof = .ofToken ts.sentinel ∧
      (parseWith table ts).tree.terminals.map Terminal.toToken = shifts es ++ [ts.sentinel] := by
  obtain ⟨es, t, hr, hend, hstate, hv, heof, hleaves⟩ := program_reaches hT (State.ready_initial ts)
  have hlook : t.lookahead = ts.sentinel := by
    rw [State.lookahead, Cursor.peek, hend, hr.effect.sentinel, List.headD_nil]
    rfl
  refine ⟨es, t, hr, hend, ?_, ?_, hv, heof, ?_⟩
  · unfold parseWith
    dsimp only
    rw [hstate, State.shift, State.pass_eq, hlook]
    simp [hr.effect.trace, State.initial]
  · unfold parseWith
    dsimp only
    rw [hstate, State.shift, State.pass_eq]
  · rw [Program.map_toToken_terminals]
    exact hleaves

/-- The sentinel is taken without a report. -/
theorem diagnostics_of_trace {table : Table} {ts : TokenList} {es : List Event}
    (h : (parseWith table ts).trace.reverse = es ++ [.shift ts.sentinel]) : (parseWith table ts).diagnostics = reports es := by
  have hdiag : (parseWith table ts).diagnostics = reports (parseWith table ts).trace.reverse := rfl
  rw [hdiag, h]
  simp

/-- A parse leaves the events of its parts, between those of setting out and of taking the sentinel. Its tree is the node that its
parts have filled in, with the sentinel at the end. -/
theorem parseWith_of_run {table : Table} (hT : table.Orderly) {ts : TokenList} {es : List Event}
    (hr : Run ((State.initial ts).attempt (.rule .start)) es
      (sequence (programSteps table) {} ((State.initial ts).attempt (.rule .start))).state) :
    (parseWith table ts).trace.reverse = .attempt (.rule .start) .normal :: (es ++ [.shift ts.sentinel]) ∧
      ∃ span, (parseWith table ts).tree =
        { (sequence (programSteps table) {} ((State.initial ts).attempt (.rule .start))).node with
          eof := .ofToken ts.sentinel
          span := span } := by
  have hs := (State.ready_initial ts).attempt (.rule .start)
  have htrace : (parseWith table ts).trace = (program table (.initial ts)).state.trace := rfl
  have htree : (parseWith table ts).tree = (program table (.initial ts)).node := rfl
  obtain ⟨-, -, -, -, hend⟩ := concludes_programSteps hT {} _ rfl hs
  obtain ⟨hstate, -, span, hnode⟩ := program_eq table (.initial ts)
  generalize sequence (programSteps table) {} ((State.initial ts).attempt (.rule .start)) = o at *
  have hlook : o.state.lookahead = ts.sentinel := by
    rw [State.lookahead, Cursor.peek, hend, hr.effect.sentinel, List.headD_nil]
    rfl
  rw [hlook] at hnode
  refine ⟨?_, span, htree.trans hnode⟩
  rw [htrace, hstate, State.shift, State.pass_eq, hlook, hr.effect.trace]
  simp [State.initial, State.attempt, State.log]

/-- The tokens that a parse passes over are all of them. -/
theorem passes_trace {table : Table} (hT : table.Orderly) (ts : TokenList) :
    passes (parseWith table ts).trace.reverse = ts.toList := by
  obtain ⟨es, t, hr, hend, htrace, -⟩ := parseWith_run hT ts
  have hrest := hr.effect.rest
  rw [hend, List.append_nil] at hrest
  have hbody : (State.initial ts).cursor.rest = ts.body := rfl
  rw [htrace, passes_append, ← hrest, hbody]
  rfl

/-- The tokens in the tree are those that the parse takes. -/
theorem terminals_eq_shifts {table : Table} (hT : table.Orderly) (ts : TokenList) :
    (parseWith table ts).tree.terminals.map Terminal.toToken = shifts (parseWith table ts).trace.reverse := by
  obtain ⟨es, t, -, -, htrace, -, -, -, hterm⟩ := parseWith_run hT ts
  rw [hterm, htrace, shifts_append]
  rfl

/-- Every parse ends with all tokens passed over. The tokens of the list are those in the tree, from left to right, and those that
were skipped, each in its place; and the sentinel is in the tree, as its last terminal, and is never skipped. -/
theorem every_token_accounted_for (ts : TokenList) :
    (parse ts).verdict ≠ .stalled ∧ (parse ts).consumed = ts.size ∧
      Merge ((parse ts).tree.terminals.map Terminal.toToken) (parse ts).skipped ts.toList ∧
      (parse ts).tree.eof = .ofToken ts.sentinel ∧ ∀ t ∈ (parse ts).skipped, t.isEnd = false := by
  obtain ⟨es, t, hr, hend, htrace, hcons, hv, heof, -⟩ := parseWith_run Table.standard_orderly ts
  have hskip : (parse ts).skipped = drops (parse ts).trace.reverse := rfl
  have hrest : ts.body = passes es := by
    have := hr.effect.rest
    rwa [hend, List.append_nil] at this
  refine ⟨hv, ?_, ?_, heof, ?_⟩
  · rw [parse, hcons, hr.effect.consumed, TokenList.size, TokenList.toList, hrest]
    simp [State.initial]
  · rw [hskip, parse, terminals_eq_shifts Table.standard_orderly, ← passes_trace Table.standard_orderly ts]
    exact merge_passes _
  · intro t ht
    have hdrops : drops (parse ts).trace.reverse = drops es := by
      rw [parse, htrace, drops_append]
      exact List.append_nil _
    rw [hskip, hdrops] at ht
    exact ts.body_isEnd t (hrest ▸ (merge_passes es).mem_of_mem_right ht)

end QuillFrontEnd
