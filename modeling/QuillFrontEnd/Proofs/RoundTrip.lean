import QuillFrontEnd.Proofs.Accounting
import QuillFrontEnd.Proofs.CompleteTree

/-!
# Reading the terminals of a tree back

In front of the terminals of a complete node, the reader of the node takes them all, quietly, and gives a node that is the same
but for spans. What the token after the phrase may be is stated for each reader: a repetition goes on at some tokens, and a type
goes on at a bracket.
-/

namespace QuillFrontEnd

namespace Parser

variable {ν μ : Type} {s : State} {ts ts' : List Token} {o : Outcome ν}

/-! ## Taking tokens quietly -/

/-- An outcome with which exactly the given tokens were taken, by a quiet run. -/
structure Takes (s : State) (ts : List Token) (o : Outcome ν) : Prop where
  verdict : o.verdict = .matched
  run : ∃ es, Run s es o.state ∧ Quiet es ∧ shifts es = ts

namespace Takes

theorem ready (h : Takes s ts o) (hs : s.Ready) : o.state.Ready := by
  obtain ⟨es, hr, hq, -⟩ := h.run
  exact hr.ready_of_quiet hq hs

/-- The tokens after those that were taken are next. -/
theorem ahead {rest : List Token} (h : Takes s ts o) (ha : s.ahead = ts ++ rest) : o.state.ahead = rest := by
  obtain ⟨es, hr, hq, rfl⟩ := h.run
  have := hr.ahead_of_quiet hq
  rw [ha] at this
  exact (List.append_cancel_left this).symm

theorem remaining_le (h : Takes s ts o) : o.state.remaining ≤ s.remaining := by
  obtain ⟨es, hr, -⟩ := h.run
  exact hr.remaining_le

/-- Where something was taken, fewer tokens are left. -/
theorem remaining_lt {t : Token} (h : Takes s (t :: ts) o) : o.state.remaining < s.remaining := by
  obtain ⟨es, hr, hq, hsh⟩ := h.run
  rw [hr.effect.remaining, passes_eq_shifts_of_quiet hq, hsh, List.length_cons]
  omega

theorem refl (n : ν) (s : State) : Takes s [] (⟨n, .matched, s⟩ : Outcome ν) := ⟨rfl, [], .refl s, quiet_nil, rfl⟩

theorem trans {o' : Outcome μ} (h : Takes s ts o) (h' : Takes o.state ts' o') : Takes s (ts ++ ts') o' := by
  obtain ⟨es, hr, hq, rfl⟩ := h.run
  obtain ⟨fs, hr', hq', rfl⟩ := h'.run
  exact ⟨h'.verdict, es ++ fs, hr.trans hr', (quiet_append es fs).2 ⟨hq, hq'⟩, shifts_append es fs⟩

theorem of_attempt {g : Goal} (hs : s.Ready) (h : Takes (s.attempt g) ts o) : Takes s ts o := by
  obtain ⟨es, hr, hq, rfl⟩ := h.run
  exact ⟨h.verdict, _, .head (.attempt g hs.normal) hr, by simpa using hq, by simp⟩

theorem shift {n : ν} (hs : s.Ready) (hk : s.nextKind ≠ .endOfInput) :
    Takes s [s.lookahead] (⟨n, .matched, s.shift⟩ : Outcome ν) :=
  ⟨rfl, _, .ofMove (.shift hs.normal (hs.rest_ne_nil hk)), by simp, by simp⟩

end Takes

/-! ## Readers and steps that rebuild a node -/

/-- The kind of the first of some tokens, or the given kind if there are none. -/
def firstKind (ts : List Token) (k : TokenKind) : TokenKind := (ts.map Token.kind).headD k

theorem exists_eq_cons_firstKind (ts : List Token) (x : Token) (xs : List Token) :
    ∃ y ys, ts ++ x :: xs = y :: ys ∧ y.kind = firstKind ts x.kind := by
  cases ts with
  | nil => exact ⟨x, xs, rfl, rfl⟩
  | cons t ts => exact ⟨t, ts ++ x :: xs, rfl, rfl⟩

/-- Tokens of which the first is of a kind. -/
def StartsWith (kind : TokenKind) (ts : List Token) : Prop := ∃ t us, ts = t :: us ∧ t.kind = kind

namespace StartsWith

variable {kind : TokenKind}

/-- The tokens of terminals start with that of the first one. -/
theorem of_holds {t : Terminal} (h : t.Holds kind) (us : List Terminal) : StartsWith kind (takenTokens (t :: us)) := by
  rw [takenTokens_cons, h.token?]
  exact ⟨_, _, rfl, h.2⟩

theorem append (h : StartsWith kind ts) (us : List Token) : StartsWith kind (ts ++ us) := by
  obtain ⟨t, vs, rfl, ht⟩ := h
  exact ⟨t, vs ++ us, rfl, ht⟩

theorem firstKind_eq (h : StartsWith kind ts) (k : TokenKind) : firstKind ts k = kind := by
  obtain ⟨t, vs, rfl, ht⟩ := h
  exact ht

theorem nextKind_eq (h : StartsWith kind ts) (ha : s.ahead = ts) : s.nextKind = kind := by
  obtain ⟨t, vs, rfl, ht⟩ := h
  rw [State.nextKind, State.lookahead_of_ahead ha, ht]

/-- Where such tokens were taken, fewer tokens are left. -/
theorem remaining_lt (h : StartsWith kind ts) (ht : Takes s ts o) : o.state.remaining < s.remaining := by
  obtain ⟨t, vs, rfl, -⟩ := h
  exact ht.remaining_lt

end StartsWith

/-- A reader that, in front of the terminals of a complete node and a token of a kind that may come after them, takes these
terminals and gives the node back. -/
def Rebuilds (complete : ν → Prop) (leaves : ν → List Terminal) (bare : ν → ν) (after : TokenKind → Prop)
    (reader : Reader ν) : Prop :=
  ∀ (n : ν) (s : State) (x : Token) (xs : List Token), complete n → s.Ready →
    s.ahead = takenTokens (leaves n) ++ x :: xs → after x.kind →
    Takes s (takenTokens (leaves n)) (reader s) ∧ bare (reader s).node = bare n

/-- A step that, in front of the given tokens and a token of a kind that may come after them, takes these tokens and leads from one
node to another. -/
def Builds (bare : ν → ν) (after : TokenKind → Prop) (m : ν) (ts : List Token) (m' : ν) (step : Step ν) : Prop :=
  ∀ (n : ν) (s : State) (x : Token) (xs : List Token), bare n = bare m → s.Ready → s.ahead = ts ++ x :: xs → after x.kind →
    Takes s ts (step n s) ∧ bare (step n s).node = bare m'

/-- Any kind of token may come next. -/
def Anything (_ : TokenKind) : Prop := True

variable {bare : ν → ν} {after after' : TokenKind → Prop} {complete : ν → Prop} {leaves : ν → List Terminal} {m m' : ν}

theorem Builds.nil : Builds bare after m [] m (sequence []) := fun n s _ _ hn _ _ _ => ⟨.refl n s, hn⟩

theorem Builds.cons {step : Step ν} {steps : List (Step ν)} {mid : ν} (h : Builds bare after m ts mid step)
    (h' : Builds bare after' mid ts' m' (sequence steps)) (hfit : ∀ k, after' k → after (firstKind ts' k)) :
    Builds bare after' m (ts ++ ts') m' (sequence (step :: steps)) := by
  intro n s x xs hn hs ha hx
  obtain ⟨y, ys, hy, hk⟩ := exists_eq_cons_firstKind ts' x xs
  rw [List.append_assoc] at ha
  obtain ⟨ht, hb⟩ := h n s y ys hn hs (by rw [ha, hy]) (hk ▸ hfit _ hx)
  obtain ⟨ht', hb'⟩ := h' _ _ x xs hb (ht.ready hs) (ht.ahead ha) hx
  rw [sequence_cons_of_matched steps ht.verdict]
  exact ⟨ht.trans ht', hb'⟩

/-- Where any token may come after the first step, it does not matter what the others start with. -/
theorem Builds.next {step : Step ν} {steps : List (Step ν)} {mid : ν} (h : Builds bare Anything m ts mid step)
    (h' : Builds bare after mid ts' m' (sequence steps)) : Builds bare after m (ts ++ ts') m' (sequence (step :: steps)) :=
  .cons h h' fun _ _ => trivial

theorem Builds.last {step : Step ν} (h : Builds bare after m ts m' step) : Builds bare after m ts m' (sequence [step]) := by
  intro n
  rw [sequence_singleton]
  exact h n

theorem Builds.terminal (rule : Rule) {kind : TokenKind} (hk : kind ≠ .endOfInput) (follow : KindSet)
    {put : ν → Terminal → ν} {t : Terminal} (ht : t.Holds kind)
    (hput : ∀ n, bare (put n t) = put (bare n) t) :
    Builds bare Anything m [t.toToken] (put m t) (terminal rule kind follow put) := by
  intro n s x xs hn hs ha _
  have hlook : s.lookahead = t.toToken := State.lookahead_of_ahead ha
  have hnext : s.nextKind = kind := by rw [State.nextKind, hlook, ht.2]
  rw [terminal_of_nextKind rule follow put n hnext, hlook, ht.ofToken_toToken]
  refine ⟨?_, by rw [hput, hput, hn]⟩
  rw [← hlook]
  exact .of_attempt hs (.shift (hs.attempt _) (by rw [State.nextKind_attempt, hnext]; exact hk))

theorem Builds.child {completeOfPart : μ → Prop} {leavesOfPart : μ → List Terminal} {bareOfPart : μ → μ} {reader : Reader μ}
    (h : Rebuilds completeOfPart leavesOfPart bareOfPart after reader) {put : ν → μ → ν} {y : μ} (hy : completeOfPart y)
    (hput : ∀ n z, bare (put n z) = put (bare n) (bareOfPart z)) :
    Builds bare after m (takenTokens (leavesOfPart y)) (put m y) (child reader put) := by
  intro n s x xs hn hs ha hx
  obtain ⟨ht, hb⟩ := h y s x xs hy hs ha hx
  refine ⟨⟨ht.verdict, ht.run⟩, ?_⟩
  rw [hput, ← hn, ← hb, ← hput]
  rfl

/-- A phrase that was read is left as it is. -/
theorem recover_of_matched [Node ν] (rule : Rule) (h : o.verdict = .matched) : recover rule o = o := by
  unfold recover
  rw [h]

/-- Steps that lead from a fixed node to any complete one are a reader. -/
theorem Rebuilds.ofBuilds {blank : ν} {step : Step ν}
    (h : ∀ n, complete n → Builds bare after blank (takenTokens (leaves n)) n step) :
    Rebuilds complete leaves bare after (step blank) :=
  fun n s x xs hn hs ha hx => h n hn blank s x xs rfl hs ha hx

theorem Rebuilds.phrase [Node ν] {rule : Rule} {blank : ν} {step : Step ν}
    (hspan : ∀ span n, bare (Node.withSpan span n) = bare n)
    (h : ∀ n, complete n → Builds bare after blank (takenTokens (leaves n)) n step) :
    Rebuilds complete leaves bare after (phrase rule blank step) := by
  intro n s x xs hn hs ha hx
  obtain ⟨ht, hb⟩ := Rebuilds.ofBuilds h n _ x xs hn (hs.attempt (.rule rule)) ha hx
  have ht' := Takes.of_attempt hs ht
  unfold Parser.phrase
  dsimp only
  rw [recover_of_matched rule ht.verdict, hspan]
  exact ⟨⟨ht'.verdict, ht'.run⟩, hb⟩

/-- The node that steps lead to, and the tokens that they take, may be written in another way. -/
theorem Builds.congr {step : Step ν} {n : ν} (h : Builds bare after m ts m' step) (hts : ts' = ts) (hn : bare n = bare m') :
    Builds bare after m ts' n step := by
  subst hts
  intro l s x xs hl hs ha hx
  rw [hn]
  exact h l s x xs hl hs ha hx

/-- Fewer kinds of token may be said to come next. -/
theorem Builds.weaken {step : Step ν} (h : Builds bare after m ts m' step) (hafter : ∀ k, after' k → after k) :
    Builds bare after' m ts m' step :=
  fun n s x xs hn hs ha hx => h n s x xs hn hs ha (hafter _ hx)

/-! ## Decisions -/

variable {table : Table} {d : Decision} {r : Rule}

/-- A decision is made at once where the next token is not refused. -/
theorem choose_of_ne_reject (hs : s.Ready) (h : table.action d s.nextKind ≠ .reject) :
    choose table d s = (some (table.action d s.nextKind), s.attempt (.decision d)) := by
  have hdrop : dropRefused table d (s.attempt (.decision d)) = s.attempt (.decision d) := by
    simp [dropRefused, Table.refuses, h]
  rw [choose_eq, hdrop, State.nextKind_attempt, if_neg h, State.resume_of_normal (hs.attempt _).normal]

theorem nextKind_of_ahead {x : Token} {xs : List Token} (h : s.ahead = x :: xs) : s.nextKind = x.kind := by
  rw [State.nextKind, State.lookahead_of_ahead h]

theorem Builds.whenDescends {steps : List (Step ν)} {kind : TokenKind} (hts : StartsWith kind ts)
    (hd : table.action d kind = .descend r) (h : Builds bare after m ts m' (sequence steps)) :
    Builds bare after m ts m' (whenDescends table d steps) := by
  intro n s x xs hn hs ha hx
  unfold Parser.whenDescends
  rw [(hts.append _).nextKind_eq ha, hd]
  exact h n s x xs hn hs ha hx

theorem Builds.whenDescends_nil {steps : List (Step ν)} (hd : ∀ k, after k → table.action d k = .leave) :
    Builds bare after m [] m (Parser.whenDescends table d steps) := by
  intro n s x xs hn hs ha hx
  unfold Parser.whenDescends
  rw [nextKind_of_ahead ha, hd _ hx]
  exact ⟨.refl n s, hn⟩

theorem Builds.optional {step : Step ν} {kind : TokenKind} (hts : StartsWith kind ts) (hd : table.action d kind = .descend r)
    (h : Builds bare after m ts m' step) : Builds bare after m ts m' (optional table d step) := by
  intro n s x xs hn hs ha hx
  have hnext := (hts.append _).nextKind_eq ha
  obtain ⟨ht, hb⟩ := h n _ x xs hn (hs.attempt (.decision d)) ha hx
  unfold Parser.optional
  rw [choose_of_ne_reject hs (by simp [hnext, hd]), hnext, hd]
  exact ⟨.of_attempt hs ht, hb⟩

theorem Builds.optional_nil {step : Step ν} (hd : ∀ k, after k → table.action d k = .leave) :
    Builds bare after m [] m (Parser.optional table d step) := by
  intro n s x xs hn hs ha hx
  have hnext := nextKind_of_ahead ha
  unfold Parser.optional
  rw [choose_of_ne_reject hs (by simp [hnext, hd _ hx]), hnext, hd _ hx]
  exact ⟨.of_attempt hs (.refl n _), hn⟩

/-! ## Repetitions -/

/-- Phrases that start with a token at which the table says to go on are read one after the other, up to a token at which it says
to leave. -/
theorem Rebuilds.many {reader : Reader ν} {kind : TokenKind} (h : Rebuilds complete leaves bare Anything reader)
    (hfirst : ∀ n, complete n → StartsWith kind (takenTokens (leaves n)))
    (hd : table.action d kind = .descend r) :
    Rebuilds (fun ns => ∀ n ∈ ns, complete n) (fun ns => ns.flatMap leaves) (List.map bare)
      (fun k => table.action d k = .leave) (many table d reader) := by
  intro ns s x xs hns hs ha hx
  induction ns generalizing s with
  | nil =>
    have hnext := nextKind_of_ahead ha
    rw [Parser.many, choose_of_ne_reject hs (by simp [hnext, hx]), hnext, hx]
    exact ⟨.of_attempt hs (.refl [] _), rfl⟩
  | cons n ns ih =>
    rw [List.forall_mem_cons] at hns
    simp only [List.flatMap_cons, takenTokens_append, List.append_assoc] at ha ⊢
    obtain ⟨y, ys, hy, -⟩ := exists_eq_cons_firstKind (takenTokens (ns.flatMap leaves)) x xs
    obtain ⟨ht, hb⟩ := h n (s.attempt (.decision d)) y ys hns.1 (hs.attempt _) (by rw [← hy]; exact ha) trivial
    obtain ⟨ht', hb'⟩ := ih _ hns.2 (ht.ready (hs.attempt _)) (ht.ahead ha)
    have hlt : (reader (s.attempt (.decision d))).state.remaining < s.remaining :=
      (hfirst n hns.1).remaining_lt (.of_attempt hs ht)
    have hnext : s.nextKind = kind := ((hfirst n hns.1).append _).nextKind_eq ha
    rw [Parser.many, choose_of_ne_reject hs (by simp [hnext, hd]), hnext, hd]
    dsimp only
    rw [ht.verdict]
    dsimp only
    rw [if_pos hlt]
    have htt := ht.trans ht'
    refine ⟨.of_attempt hs ⟨htt.verdict, htt.run⟩, ?_⟩
    rw [List.map_cons, List.map_cons, hb, hb']

/-- Items with separators between them are read up to a token that is not a separator. -/
theorem Rebuilds.separated {item : Reader (List ν)} {j : TokenKind}
    (h : Rebuilds (fun ns => ∃ n, ns = [n] ∧ complete n) (fun ns => ns.flatMap leaves) (List.map bare) Anything item)
    (hd : table.action d .comma = .take j) :
    Rebuilds (Separated.Complete complete) (Separated.leaves leaves) (Separated.map bare)
      (fun k => ∀ j, table.action d k ≠ .take j) (separated table d item) := by
  intro z s x xs hz hs ha hx
  obtain ⟨a, cs, rfl, hc, hcs⟩ := hz.exists_pairs
  clear hz
  induction cs generalizing a s with
  | nil =>
    rw [Separated.leaves_ofPairs] at ha ⊢
    obtain ⟨ht, hb⟩ := h [a] s x xs ⟨a, rfl, hc⟩ hs (by simpa using ha) trivial
    have hnext := nextKind_of_ahead (ht.ahead (by simpa using ha))
    rw [Parser.separated]
    dsimp only
    rw [ht.verdict]
    dsimp only
    split
    · rename_i k hk
      rw [hnext] at hk
      exact absurd hk (hx k)
    · simp only [List.flatMap_cons, List.flatMap_nil, List.append_nil] at ht ⊢
      exact ⟨⟨rfl, ht.run⟩, by simp [Separated.map, Separated.ofPairs, hb]⟩
  | cons c cs ih =>
    rw [List.forall_mem_cons] at hcs
    have hleaves : takenTokens ((Separated.ofPairs (a, c :: cs)).leaves leaves) =
        takenTokens ([a].flatMap leaves) ++ ([c.1.toToken] ++ takenTokens ((Separated.ofPairs (c.2, cs)).leaves leaves)) := by
      rw [Separated.leaves_ofPairs, Separated.leaves_ofPairs]
      simp [hcs.1.1.token?]
    rw [hleaves] at ha ⊢
    rw [List.append_assoc, List.append_assoc] at ha
    obtain ⟨ht, hb⟩ := h [a] s _ _ ⟨a, rfl, hc⟩ hs ha trivial
    have hready := ht.ready hs
    have hlook : (item s).state.lookahead = c.1.toToken := State.lookahead_of_ahead (ht.ahead ha)
    have hcomma : (item s).state.nextKind = .comma := by rw [State.nextKind, hlook, hcs.1.1.2]
    have htake : Takes (item s).state [c.1.toToken] (⟨a, .matched, (item s).state.shift⟩ : Outcome ν) := by
      rw [← hlook]
      exact .shift hready (by simp [hcomma])
    obtain ⟨ht', hb'⟩ := ih _ (htake.ready hready) c.2 (htake.ahead (ht.ahead ha)) hcs.1.2 hcs.2
    rw [Parser.separated]
    dsimp only
    rw [ht.verdict]
    dsimp only
    rw [hcomma, hd, hlook, hcs.1.1.ofToken_toToken]
    dsimp only
    rw [if_pos (Nat.lt_of_lt_of_le htake.remaining_lt ht.remaining_le)]
    have htt := ht.trans (htake.trans ht')
    refine ⟨⟨htt.verdict, htt.run⟩, ?_⟩
    simp only [Separated.map, Separated.ofPairs, List.map_cons, Separated.mk.injEq, List.map_append, hb, List.map_nil,
      List.singleton_append, List.cons.injEq, true_and] at hb' ⊢
    exact hb'

/-! ## Rules -/

theorem rebuilds_basicType :
    Rebuilds BasicType.Complete (fun n => n.element.leaves) BasicType.bare Anything (basicType .standard) := by
  refine .phrase (fun _ _ => rfl) fun n hn l s x xs hl hs ha _ => ?_
  obtain ⟨k, hk, htake, hend⟩ : ∃ k, n.keyword.Holds k ∧ Table.standard.action .basicType k = .take k ∧ k ≠ .endOfInput := by
    rcases hn with hn | hn
    · exact ⟨_, hn, rfl, by decide⟩
    · exact ⟨_, hn, rfl, by decide⟩
  have hleaves : takenTokens n.element.leaves = [n.keyword.toToken] := by simp [hk.token?]
  rw [hleaves] at ha ⊢
  have hlook : s.lookahead = n.keyword.toToken := State.lookahead_of_ahead ha
  have hnext : s.nextKind = k := by rw [State.nextKind, hlook, hk.2]
  rw [hnext, htake, ← hlook]
  refine ⟨.shift hs (hnext ▸ hend), ?_⟩
  rw [hlook, hk.ofToken_toToken]
  rfl

theorem rebuilds_extent : Rebuilds Extent.Complete (fun n => n.element.leaves) Extent.bare Anything extent := by
  refine .phrase (fun _ _ => rfl) fun n hn => ?_
  refine .congr (.next (.terminal _ (by decide) _ hn.left fun _ => rfl) <|
    .next (.terminal _ (by decide) _ hn.size fun _ => rfl) <|
    .last (.terminal _ (by decide) _ hn.right fun _ => rfl)) ?_ rfl
  simp [hn.left.token?, hn.size.token?, hn.right.token?]

theorem rebuilds_dimension (rule : Rule) :
    Rebuilds Dimension.Complete (fun n => n.extent.element.leaves) Dimension.bare Anything (dimension rule) := by
  refine .phrase (fun _ _ => rfl) fun n hn => ?_
  exact .congr (.child rebuilds_extent hn fun _ _ => rfl) rfl rfl

/-- A token that is no bracket ends the dimensions of a type. -/
theorem dimension_leave_of_standard {k : TokenKind} (hk : k ≠ .leftBracket) :
    Table.standard.action .firstDimension k = .leave ∧ Table.standard.action .secondDimension k = .leave ∧
      Table.standard.action .thirdDimension k = .leave := by
  cases k <;> first | exact absurd rfl hk | exact ⟨rfl, rfl, rfl⟩

theorem builds_noExtraDimension (m : TypeSpec) :
    Builds TypeSpec.bare (fun k => k ≠ .leftBracket) m [] m (noExtraDimension .standard) := by
  intro n s x xs hn hs ha hx
  unfold noExtraDimension
  rw [nextKind_of_ahead ha, (dimension_leave_of_standard hx).2.2]
  exact ⟨.refl n s, hn⟩

theorem startsWith_bracket {n : Dimension} (hn : n.Complete) : StartsWith .leftBracket (takenTokens n.extent.element.leaves) :=
  .of_holds hn.left _

/-- The dimensions of a type come one after the other, and the first token after them is no bracket. -/
theorem builds_dimensions (b : BasicType) {first second : Option Dimension} (hfirst : ∀ e ∈ first, e.Complete)
    (hsecond : ∀ e ∈ second, e.Complete) (horder : second.isSome → first.isSome) :
    Builds TypeSpec.bare (fun k => k ≠ .leftBracket) { basic := b }
      (takenTokens (Dimension.leaves? first) ++ takenTokens (Dimension.leaves? second))
      { basic := b, first := first, second := second }
      (whenDescends .standard .firstDimension [
        child (dimension .typeDim1) fun n d => { n with first := some d },
        whenDescends .standard .secondDimension [
          child (dimension .typeDim2) fun n d => { n with second := some d },
          noExtraDimension .standard]]) := by
  cases first with
  | none =>
    have hnone : second = none := by
      cases second with
      | none => rfl
      | some e => exact absurd (horder rfl) (by simp)
    subst hnone
    exact .whenDescends_nil fun k hk => (dimension_leave_of_standard hk).1
  | some e =>
    rw [Dimension.leaves?_some]
    refine .whenDescends ((startsWith_bracket (hfirst e rfl)).append _) rfl ?_
    refine .next (.child (rebuilds_dimension _) (hfirst e rfl) fun _ _ => rfl) (.last ?_)
    cases second with
    | none => exact .whenDescends_nil fun k hk => (dimension_leave_of_standard hk).2.1
    | some f =>
      rw [Dimension.leaves?_some]
      refine .whenDescends (startsWith_bracket (hsecond f rfl)) rfl ?_
      exact .congr (.next (.child (rebuilds_dimension _) (hsecond f rfl) fun _ _ => rfl) (.last (builds_noExtraDimension _)))
        (List.append_nil _).symm rfl

theorem rebuilds_typeSpec :
    Rebuilds TypeSpec.Complete (fun n => n.element.leaves) TypeSpec.bare (fun k => k ≠ .leftBracket) (typeSpec .standard) := by
  refine .phrase (fun _ _ => rfl) fun n hn => ?_
  refine .congr (.next (.child rebuilds_basicType hn.basic fun _ _ => rfl) <|
    .last (builds_dimensions n.basic hn.first hn.second hn.inOrder)) ?_ rfl
  rw [TypeSpec.leaves_element, takenTokens_append, takenTokens_append]

theorem rebuilds_declaredName :
    Rebuilds (fun ns => ∃ n, ns = [n] ∧ Terminal.Holds .identifier n) (fun ns => ns.flatMap fun t => [t]) (List.map id)
      Anything declaredName := by
  refine .ofBuilds ?_
  intro n hn
  obtain ⟨t, rfl, ht⟩ := hn
  exact .congr (.terminal _ (by decide) _ ht fun _ => rfl) (by simp [ht.token?]) rfl

/-- A list ends before a token that is no comma. -/
theorem moreItems_of_standard (hd : d = .moreNames ∨ d = .moreParams) {k : TokenKind} (hk : k ≠ .comma) (j : TokenKind) :
    Table.standard.action d k ≠ .take j := by
  rcases hd with rfl | rfl <;> cases k <;> first | exact absurd rfl hk | exact nofun

theorem startsWith_identifier {names : Separated Terminal} (h : names.Complete (Terminal.Holds .identifier)) :
    StartsWith .identifier (takenTokens (names.leaves fun t => [t])) := by
  obtain ⟨a, cs, rfl, ha, -⟩ := h.exists_pairs
  rw [Separated.leaves_ofPairs, List.singleton_append]
  exact .of_holds ha _

theorem rebuilds_varDecl :
    Rebuilds VarDecl.Complete (fun n => n.element.leaves) VarDecl.bare Anything (varDecl .standard) := by
  refine .phrase (fun _ _ => rfl) fun n hn => ?_
  refine .congr (.next (.terminal _ (by decide) _ hn.keyword fun _ => rfl) <|
    .cons (.child rebuilds_typeSpec hn.type fun _ _ => rfl)
      (.cons (.child (.separated rebuilds_declaredName rfl) hn.names ?_)
        (.last (.terminal _ (by decide) _ hn.semicolon fun _ => rfl)) ?_) ?_) ?_ rfl
  · intro n names
    simp [VarDecl.bare, Separated.map]
  · intro k _
    have hkind : firstKind [n.semicolon.toToken] k = .semicolon := hn.semicolon.2
    rw [hkind]
    exact moreItems_of_standard (.inl rfl) (by decide)
  · intro k _
    rw [((startsWith_identifier hn.names).append _).firstKind_eq]
    decide
  · rw [VarDecl.leaves_element]
    simp [hn.keyword.token?, hn.semicolon.token?]

theorem startsWith_var {n : VarDecl} (hn : n.Complete) : StartsWith .var (takenTokens n.element.leaves) := by
  rw [VarDecl.leaves_element]
  exact .of_holds hn.keyword _

/-- The declarations of a program and those of a function are read in the same way. -/
theorem rebuilds_varDecls (rule : Rule) (hd : Table.standard.action d .var = .descend r) :
    Rebuilds VarDecls.Complete (fun n => (n.element rule).leaves) VarDecls.bare
      (fun k => Table.standard.action d k = .leave)
      (phrase rule {} (child (many .standard d (varDecl .standard)) fun (n : VarDecls) decls => { n with decls })) := by
  refine .phrase (fun _ _ => rfl) fun n hn => ?_
  exact .congr (.child (.many rebuilds_varDecl (fun _ => startsWith_var) hd) hn fun _ _ => rfl)
    (by rw [VarDecls.leaves_element]) rfl

theorem rebuilds_expression : Rebuilds (fun _ => True) (fun n => n.element.leaves) Expression.bare Anything expression :=
  .phrase (fun _ _ => rfl) fun _ _ => .congr .nil rfl rfl

theorem rebuilds_statement :
    Rebuilds Statement.Complete (fun n => n.element.leaves) Statement.bare Anything statement := by
  refine .phrase (fun _ _ => rfl) fun n hn => ?_
  have hsemicolon : n.semicolon.Holds .semicolon := hn
  refine .congr (.next (.child rebuilds_expression trivial fun _ _ => rfl) <|
    .last (.terminal _ (by decide) _ hsemicolon fun _ => rfl)) ?_ rfl
  simp [hsemicolon.token?]

theorem startsWith_semicolon {n : Statement} (hn : n.Complete) : StartsWith .semicolon (takenTokens n.element.leaves) :=
  .of_holds (t := n.semicolon) hn []

theorem rebuilds_block : Rebuilds Block.Complete (fun n => n.element.leaves) Block.bare Anything (block .standard) := by
  refine .phrase (fun _ _ => rfl) fun n hn => ?_
  refine .congr (.next (.terminal _ (by decide) _ hn.left fun _ => rfl) <|
    .cons (.child (.many rebuilds_statement (fun _ => startsWith_semicolon) rfl) hn.statements fun _ _ => rfl)
      (.last (.terminal _ (by decide) _ hn.right fun _ => rfl)) ?_) ?_ rfl
  · intro k _
    have hkind : firstKind [n.right.toToken] k = .rightBrace := hn.right.2
    rw [hkind]
    rfl
  · rw [Block.leaves_element]
    simp [hn.left.token?, hn.right.token?]

theorem rebuilds_param : Rebuilds Param.Complete Param.leaves Param.bare Anything (param .standard) := by
  refine .ofBuilds fun n hn => ?_
  refine .congr (.next (.child rebuilds_basicType hn.type fun _ _ => rfl) <|
    .last (.terminal _ (by decide) _ hn.name fun _ => rfl)) ?_ rfl
  simp [Param.leaves, hn.name.token?]

theorem rebuilds_paramItem :
    Rebuilds (fun ns => ∃ n, ns = [n] ∧ Param.Complete n) (fun ns => ns.flatMap Param.leaves) (List.map Param.bare) Anything
      (paramItem .standard) := by
  refine .ofBuilds ?_
  intro n hn
  obtain ⟨p, rfl, hp⟩ := hn
  exact .congr (.child rebuilds_param hp fun _ _ => rfl) (by simp) rfl

theorem rebuilds_paramList :
    Rebuilds ParamList.Complete (fun n => n.element.leaves) ParamList.bare (fun k => k = .rightParen) (paramList .standard) := by
  refine .phrase (fun _ _ => rfl) fun n hn => ?_
  have h : Builds ParamList.bare (fun k => ∀ j, Table.standard.action .moreParams k ≠ .take j) {}
      (takenTokens n.element.leaves) n
      (child (separated .standard .moreParams (paramItem .standard)) fun n params => { n with params }) :=
    .congr (.child (.separated rebuilds_paramItem rfl) hn fun _ _ => rfl) (by rw [ParamList.leaves_element]) rfl
  refine h.weaken fun k hk => ?_
  rw [hk]
  exact moreItems_of_standard (.inr rfl) (by decide)

/-- The first token of a parameter list is the keyword of a basic type. -/
theorem startsWith_basicType {n : ParamList} (hn : n.Complete) :
    ∃ k, StartsWith k (takenTokens n.element.leaves) ∧ Table.standard.action .anyParams k = .descend .paramList := by
  obtain ⟨p, ps, hps, hp, -⟩ := hn.exists_pairs
  rw [ParamList.leaves_element, hps, Separated.leaves_ofPairs, Param.leaves, BasicType.leaves_element, List.singleton_append,
    List.cons_append]
  rcases hp.type with hk | hk
  · exact ⟨_, .of_holds hk _, rfl⟩
  · exact ⟨_, .of_holds hk _, rfl⟩

/-- The parameters of a function, which may be left out, come before a closing parenthesis. -/
theorem builds_params (m : FunctionDecl) (hm : m.params = none) {params : Option ParamList}
    (hparams : ∀ ps ∈ params, ps.Complete) :
    Builds FunctionDecl.bare (fun k => k = .rightParen) m (takenTokens (ParamList.leaves? params)) { m with params := params }
      (optional .standard .anyParams (child (paramList .standard) fun n ps => { n with params := some ps })) := by
  cases params with
  | none =>
    refine .congr (.optional_nil fun k hk => ?_) rfl (by rw [← hm])
    rw [hk]
    rfl
  | some ps =>
    obtain ⟨k, hts, hk⟩ := startsWith_basicType (hparams ps rfl)
    rw [ParamList.leaves?_some]
    exact .optional hts hk (.child rebuilds_paramList (hparams ps rfl) fun _ _ => rfl)

theorem startsWith_brace {n : Block} (hn : n.Complete) : StartsWith .leftBrace (takenTokens n.element.leaves) := by
  rw [Block.leaves_element]
  exact .of_holds hn.left _

theorem rebuilds_functionDecl :
    Rebuilds FunctionDecl.Complete (fun n => n.element.leaves) FunctionDecl.bare Anything (functionDecl .standard) := by
  refine .phrase (fun _ _ => rfl) fun n hn => ?_
  refine .congr (.next (.terminal _ (by decide) _ hn.keyword fun _ => rfl) <|
    .next (.terminal _ (by decide) _ hn.name fun _ => rfl) <|
    .next (.terminal _ (by decide) _ hn.left fun _ => rfl) <|
    .cons (builds_params _ rfl hn.params)
      (.next (.terminal _ (by decide) _ hn.right fun _ => rfl) <|
        .cons (.child (rebuilds_varDecls .localVars rfl) hn.locals fun _ _ => rfl)
          (.last (.child rebuilds_block hn.body fun _ _ => rfl)) ?_) ?_) ?_ rfl
  · intro k _
    rw [(startsWith_brace hn.body).firstKind_eq]
    rfl
  · intro k _
    exact hn.right.2
  · rw [FunctionDecl.leaves_element]
    simp [hn.keyword.token?, hn.name.token?, hn.left.token?, hn.right.token?]

theorem startsWith_function {n : FunctionDecl} (hn : n.Complete) : StartsWith .function (takenTokens n.element.leaves) := by
  rw [FunctionDecl.leaves_element]
  exact .of_holds hn.keyword _

theorem rebuilds_functions :
    Rebuilds Functions.Complete (fun n => n.element.leaves) Functions.bare
      (fun k => Table.standard.action .moreFunctions k = .leave) (functions .standard) := by
  refine .phrase (fun _ _ => rfl) fun n hn => ?_
  exact .congr (.child (.many rebuilds_functionDecl (fun _ => startsWith_function) rfl) hn fun _ _ => rfl)
    (by rw [Functions.leaves_element]) rfl

theorem rebuilds_mainBlock :
    Rebuilds MainBlock.Complete (fun n => n.element.leaves) MainBlock.bare Anything (mainBlock .standard) := by
  refine .phrase (fun _ _ => rfl) fun n hn => ?_
  refine .congr (.next (.terminal _ (by decide) _ hn.keyword fun _ => rfl) <|
    .last (.child rebuilds_block hn.block fun _ _ => rfl)) ?_ rfl
  rw [MainBlock.leaves_element]
  simp [hn.keyword.token?]

theorem startsWith_main {n : MainBlock} (hn : n.Complete) : StartsWith .main (takenTokens n.element.leaves) := by
  rw [MainBlock.leaves_element]
  exact .of_holds hn.keyword _

/-! ## Programs -/

theorem builds_header {n : Program} (hn : n.Complete) :
    Builds Program.bare Anything {} [n.keyword.toToken, n.name.toToken, n.colon.toToken]
      { keyword := n.keyword, name := n.name, colon := n.colon } header := by
  have h : Builds Program.bare Anything {} [n.keyword.toToken, n.name.toToken, n.colon.toToken]
      { keyword := n.keyword, name := n.name, colon := n.colon } (sequence headerSteps) :=
    .next (.terminal _ (by decide) _ hn.keyword fun _ => rfl) <| .next (.terminal _ (by decide) _ hn.name fun _ => rfl) <|
      .last (.terminal _ (by decide) _ hn.colon fun _ => rfl)
  intro l s x xs hl hs ha hx
  obtain ⟨ht, hb⟩ := h l s x xs hl hs ha hx
  unfold header
  dsimp only
  rw [ht.verdict]
  exact ⟨ht, hb⟩

theorem builds_mainStep (m : Program) {n : MainBlock} (hn : n.Complete) :
    Builds Program.bare Anything m (takenTokens n.element.leaves) { m with main := n } (mainStep .standard) := by
  have h : Builds Program.bare Anything m (takenTokens n.element.leaves) { m with main := n }
      (child (mainBlock .standard) fun n m => { n with main := m }) := .child rebuilds_mainBlock hn fun _ _ => rfl
  intro l s x xs hl hs ha hx
  obtain ⟨ht, hb⟩ := h l s x xs hl hs ha hx
  unfold mainStep
  dsimp only
  rw [ht.verdict]
  exact ⟨ht, hb⟩

theorem builds_nothingLeft (m : Program) : Builds Program.bare (fun k => k = .endOfInput) m [] m nothingLeft := by
  intro l s x xs hl hs ha hx
  have hend : s.lookahead.isEnd = true := by
    rw [State.lookahead_of_ahead ha, Token.isEnd, hx]
    rfl
  unfold nothingLeft
  rw [if_pos hend]
  exact ⟨.refl l s, hl⟩

/-- After the declarations of a program come its functions, or else its main block. -/
theorem leave_moreGlobals {fs : Functions} {mb : MainBlock} (hfs : fs.Complete) (hmb : mb.Complete) (k : TokenKind) :
    Table.standard.action .moreGlobals
      (firstKind (takenTokens fs.element.leaves ++ takenTokens mb.element.leaves) k) = .leave := by
  rw [Functions.leaves_element]
  cases hdecls : fs.decls with
  | nil =>
    rw [List.flatMap_nil, takenTokens_nil, List.nil_append, (startsWith_main hmb).firstKind_eq]
    rfl
  | cons f others =>
    have hf := startsWith_function (hfs f (by simp [hdecls]))
    rw [List.flatMap_cons, takenTokens_append, ((hf.append _).append _).firstKind_eq]
    rfl

/-- In front of the tokens of a complete program, all its parts are read up to the end of the input. -/
theorem builds_programSteps {n : Program} (hn : n.Complete) :
    Builds Program.bare (fun k => k = .endOfInput) {}
      ([n.keyword.toToken, n.name.toToken, n.colon.toToken] ++ (takenTokens (n.globals.element .globalVars).leaves ++
        (takenTokens n.functions.element.leaves ++ takenTokens n.main.element.leaves)))
      { n with eof := .absent .endOfInput } (sequence (programSteps .standard)) := by
  refine .congr (.next (builds_header hn) <|
    .cons (.child (rebuilds_varDecls .globalVars rfl) hn.globals fun _ _ => rfl)
      (.cons (.child rebuilds_functions hn.functions fun _ _ => rfl)
        (.next (builds_mainStep _ hn.main) (.last (builds_nothingLeft _))) ?_) ?_) ?_ rfl
  · intro k _
    rw [((startsWith_main hn.main).append _).firstKind_eq]
    rfl
  · intro k _
    rw [List.append_nil]
    exact leave_moreGlobals hn.functions hn.main k
  · rw [List.append_nil]

end Parser

open QuillFrontEnd.Parser

/-- The tokens of a complete tree are read quietly, and parsing them gives the tree back but for spans. -/
theorem parse_of_complete {ts : TokenList} {n : Program} (hn : n.Complete) (hts : takenTokens n.element.leaves = ts.toList) :
    Quiet (parse ts).trace.reverse ∧ (parse ts).tree.bare = n.bare := by
  have hs := (State.ready_initial ts).attempt (.rule .start)
  have ha : Run (.initial ts) [.attempt (.rule .start) .normal] ((State.initial ts).attempt (.rule .start)) :=
    .ofMove (.attempt _ rfl)
  have hahead : ((State.initial ts).attempt (.rule .start)).ahead =
      ([n.keyword.toToken, n.name.toToken, n.colon.toToken] ++ (takenTokens (n.globals.element .globalVars).leaves ++
        (takenTokens n.functions.element.leaves ++ takenTokens n.main.element.leaves))) ++ [n.eof.toToken] := by
    have hahead : ((State.initial ts).attempt (.rule .start)).ahead = ts.toList := rfl
    rw [hahead, ← hts, Program.leaves_element]
    simp [hn.keyword.token?, hn.name.token?, hn.colon.token?, hn.eof.token?]
  obtain ⟨ht, hb⟩ := builds_programSteps hn {} _ _ _ rfl hs hahead hn.eof.2
  have hlook := State.lookahead_of_ahead (ht.ahead hahead)
  obtain ⟨es, hr, hq, -⟩ := ht.run
  obtain ⟨hstate, -, span, hnode⟩ := program_eq .standard (.initial ts)
  have htrace : (parse ts).trace = (program .standard (.initial ts)).state.trace := rfl
  have htree : (parse ts).tree = (program .standard (.initial ts)).node := rfl
  rw [hstate] at htrace
  rw [hnode] at htree
  have hrun := ha.trans hr
  generalize sequence (programSteps .standard) {} ((State.initial ts).attempt (.rule .start)) = o at *
  constructor
  · rw [htrace, State.shift, State.pass_eq, hrun.effect.trace]
    simpa [State.initial] using hq
  · rw [htree, hlook, hn.eof.ofToken_toToken]
    have hbare : Program.bare { o.node with eof := n.eof, span := span } = { o.node.bare with eof := n.eof } := rfl
    rw [hbare, hb]
    rfl

end QuillFrontEnd
