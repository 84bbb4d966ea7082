import QuillFrontEnd.Proofs.Language
import QuillFrontEnd.Proofs.MapTerminals

/-!
# Inputs that are mended

A parse mends its input if all that it reports are terminals that it has put in and tokens that it has passed over. Such a parse
never loses track, and in its tree every terminal is of the kind of its place, missing or not. So the kinds of the terminals are a
program, and parsing that program gives a tree of the same shape.
-/

namespace QuillFrontEnd

/-! ## Shapes -/

/-- A terminal of which only the kind is left. -/
def Terminal.shape (t : Terminal) : Terminal := .ofToken (.placeholder t.kind)

@[simp] theorem Terminal.holds_shape {k : TokenKind} {t : Terminal} : t.shape.Holds k ↔ t.kind = k := holds_ofToken

/-- What is left of a tree without the data of its terminals but their kinds: its nodes, the lengths of its lists, its options, and
the kind at each place of a terminal. -/
def Program.shape (n : Program) : Program := n.mapTerminals Terminal.shape

/-- The tokens of terminals of which only the kinds are left. -/
theorem takenTokens_map_shape (ts : List Terminal) :
    takenTokens (ts.map Terminal.shape) = ts.map fun t => Token.placeholder t.kind := by
  induction ts with
  | nil => rfl
  | cons t ts ih => rw [List.map_cons, takenTokens_cons, ih]; rfl

/-- The kinds of the terminals of a tree, with those that are missing. -/
def Program.leafKinds (n : Program) : List TokenKind := n.element.leaves.map fun t => t.kind

theorem Program.takenTokens_shape (n : Program) :
    takenTokens n.shape.element.leaves = n.leafKinds.map Token.placeholder := by
  rw [Program.shape, Program.leaves_mapTerminals, takenTokens_map_shape, Program.leafKinds, List.map_map]
  rfl

/-- Complete trees with the same kinds of terminals have the same shape. -/
theorem Program.shape_eq_of_leafKinds_eq {n m : Program} (hn : n.shape.Complete) (hm : m.shape.Complete)
    (h : n.leafKinds = m.leafKinds) : n.shape = m.shape := by
  have hbare := hn.bare_eq_of_takenTokens_eq hm (by rw [n.takenTokens_shape, m.takenTokens_shape, h])
  rwa [Program.shape, Program.shape, Program.bare_mapTerminals, Program.bare_mapTerminals] at hbare

/-- The kinds of the terminals of a tree are a program if each is of the kind of its place. -/
theorem Program.isProgram_leafKinds {n : Program} (h : n.shape.Complete) : IsProgram n.leafKinds := by
  have hderives := (realized_program _).2 ⟨n.shape, h, rfl⟩
  have hkinds : (n.leafKinds.map Token.placeholder).map Token.kind = n.leafKinds := by
    rw [List.map_map]
    exact List.map_id _
  rwa [n.takenTokens_shape, hkinds] at hderives

/-- The terminals of a complete tree are the tokens that were taken. -/
theorem Program.Complete.leafKinds_eq {n : Program} (h : n.Complete) :
    n.leafKinds = (takenTokens n.element.leaves).map Token.kind := by
  rw [h.allTaken.takenTokens_eq, List.map_map]
  rfl

/-! ## Reports that are mended -/

/-- The codes of the errors after which a parse has lost track. -/
def Diagnostic.lostCodes : List Code := [.unexpectedToken, .tooManyDimensions]

/-- The codes of the errors after which a parse has lost track, or has given up. -/
def Diagnostic.brokenCodes : List Code := [.unexpectedToken, .tooManyDimensions, .endOfInput]

namespace Parser

variable {ν μ : Type} {s t : State} {es fs : List Event}

/-- None of the events reports that the parse has lost track. -/
def Mended (es : List Event) : Prop := ∀ d ∈ reports es, d.code ∉ Diagnostic.lostCodes

@[simp] theorem mended_append : Mended (es ++ fs) ↔ Mended es ∧ Mended fs := by
  simp only [Mended, reports_append, List.mem_append, or_imp, forall_and]

theorem not_mended_of_mem {d : Diagnostic} {c : Code} (hd : .report d ∈ es) (hd' : d.code = c)
    (hc : c ∈ Diagnostic.lostCodes) : ¬Mended es :=
  fun h => h d (List.mem_filterMap.2 ⟨_, hd, rfl⟩) (hd' ▸ hc)

/-- A decision that does not refuse the end of the input is made in any case. -/
theorem choose_ne_none {table : Table} {d : Decision} (hend : table.action d .endOfInput ≠ .reject) (hs : s.Ready) :
    (choose table d s).1 ≠ none := by
  obtain ⟨es, hr, -, -, hended⟩ := run_dropRefused table d (hs.attempt (.decision d))
  rw [choose_eq]
  split
  · rename_i hreject
    have hkind := (hr.sealed (hs.attempt _).toSealed).nextKind_eq_endOfInput_iff.2 (hended hreject)
    rw [hkind] at hreject
    exact absurd hreject hend
  · exact nofun

/-! ## Readers and steps that mend -/

/-- An outcome whose node is as it should be, wherever no more was reported than terminals put in and tokens passed over. -/
def Mending (sound : ν → Prop) (s : State) (o : Outcome ν) : Prop :=
  ∃ es, Reaches s es o ∧ (Mended es → o.verdict = .matched ∧ sound o.node)

/-- A reader that mends its phrase, or reports that the parse has lost track. -/
def Mends (sound : ν → Prop) (reader : Reader ν) : Prop := ∀ s : State, s.Ready → Mending sound s (reader s)

/-- A step that mends its part of the phrase: it leads from nodes that pass `pre` to nodes that pass `post`. -/
def MendsPart (pre post : ν → Prop) (step : Step ν) : Prop := ∀ n, Mends (fun m => pre n → post m) (step n)

variable {sound pre mid post : ν → Prop} {table : Table} {d : Decision}

theorem Mending.matched {o : Outcome ν} (h : sound o.node) (hs : s.Ready) (hv : o.verdict = .matched) (ho : o.state = s) :
    Mending sound s o := by
  refine ⟨[], ⟨by rw [ho]; exact .refl s, ?_⟩, fun _ => ⟨hv, h⟩⟩
  rw [hv, ho]
  exact hs.normal

theorem Mending.mismatch (n : ν) (hs : s.Ready) {d : Diagnostic} {c : Code} (hd : d.Blames s.lookahead) (hd' : d.code = c)
    (hc : c ∈ Diagnostic.lostCodes) : Mending sound s (⟨n, .mismatched, s.mismatch d⟩ : Outcome ν) :=
  ⟨_, .mismatch n hs hd, fun hm => absurd hm (not_mended_of_mem List.mem_cons_self hd' hc)⟩

theorem Mending.cons {step : Step ν} {steps : List (Step ν)} {n : ν} (hs : s.Ready)
    (h : Mending mid s (step n s))
    (h' : (step n s).verdict = .matched → (step n s).state.Ready →
      Mending (fun m => mid (step n s).node → post m) (step n s).state (sequence steps (step n s).node (step n s).state)) :
    Mending post s (sequence (step :: steps) n s) := by
  obtain ⟨es, hr, hmid⟩ := h
  by_cases hv : (step n s).verdict = .matched
  · obtain ⟨fs, hr', hpost⟩ := h' hv (hr.ready hs hv)
    rw [sequence_cons_of_matched steps hv]
    refine ⟨es ++ fs, .trans hr.run hr', fun hm => ?_⟩
    rw [mended_append] at hm
    exact ⟨(hpost hm.2).1, (hpost hm.2).2 (hmid hm.1).2⟩
  · rw [sequence_cons_of_ne_matched steps hv]
    exact ⟨es, hr, fun hm => absurd (hmid hm).1 hv⟩

theorem MendsPart.nil (h : ∀ n, pre n → post n) : MendsPart pre post (sequence []) :=
  fun n _ hs => .matched (h n) hs rfl rfl

theorem MendsPart.cons {step : Step ν} {steps : List (Step ν)} (mid : ν → Prop) (h : MendsPart pre mid step)
    (h' : MendsPart mid post (sequence steps)) : MendsPart pre post (sequence (step :: steps)) := by
  intro n s hs
  have hstep : Mending (fun m => pre n → mid m) s (step n s) := h n s hs
  refine .cons hs hstep fun _ hready => ?_
  obtain ⟨fs, hr, hpost⟩ := h' _ _ hready
  exact ⟨fs, hr, fun hm => ⟨(hpost hm).1, fun hmid hn => (hpost hm).2 (hmid hn)⟩⟩

theorem MendsPart.last {step : Step ν} (h : MendsPart pre post step) : MendsPart pre post (sequence [step]) := by
  intro n
  rw [sequence_singleton]
  exact h n

/-- A terminal is of its kind whether it was taken or put in. -/
theorem MendsPart.terminal (rule : Rule) {kind : TokenKind} (hk : kind ≠ .endOfInput) (follow : KindSet)
    {put : ν → Terminal → ν} (hput : ∀ n t, pre n → t.kind = kind → post (put n t)) :
    MendsPart pre post (terminal rule kind follow put) := by
  intro n s hs
  have ha : Run s [.attempt (.terminal kind) .normal] (s.attempt (.terminal kind)) := .ofMove (.attempt _ hs.normal)
  have hs' := hs.attempt (.terminal kind)
  unfold Parser.terminal readTerminal
  by_cases h1 : s.nextKind = kind
  · have hne : (s.attempt (.terminal kind)).cursor.rest ≠ [] := hs'.rest_ne_nil (by rw [State.nextKind_attempt, h1]; exact hk)
    simp only [State.nextKind_attempt, h1, if_true]
    exact ⟨_, ⟨ha.trans (.ofMove (.shift hs'.normal hne)), hs'.normal⟩, fun _ => ⟨rfl, fun hn => hput n _ hn h1⟩⟩
  · simp only [State.nextKind_attempt, h1, if_false]
    by_cases h2 : s.nextKind ∈ follow
    · simp only [h2, if_true]
      exact ⟨_, ⟨ha.trans (.ofMove (.insert kind rule hs'.normal)), hs'.normal⟩, fun _ => ⟨rfl, fun hn => hput n _ hn rfl⟩⟩
    · simp only [h2, if_false]
      have hb := Diagnostic.blames_of_code (c := .unexpectedToken) (by decide)
      obtain ⟨es, hr, hm⟩ : Mending (fun m => pre n → post m) (s.attempt (.terminal kind)) ⟨n, .mismatched, _⟩ :=
        .mismatch (c := .unexpectedToken) n hs' (hb _ _ _ _) rfl (by decide)
      exact ⟨_, .trans ha hr, fun h => hm (mended_append.1 h).2⟩

theorem MendsPart.child {reader : Reader μ} {soundPart : μ → Prop} (h : Mends soundPart reader) {put : ν → μ → ν}
    (hput : ∀ n x, pre n → soundPart x → post (put n x)) : MendsPart pre post (child reader put) := by
  intro n s hs
  obtain ⟨es, hr, hsound⟩ := h s hs
  exact ⟨es, ⟨hr.run, hr.fits⟩, fun hm => ⟨(hsound hm).1, fun hn => hput n _ hn (hsound hm).2⟩⟩

theorem MendsPart.optional {step : Step ν} (hend : table.action d .endOfInput ≠ .reject) (h : MendsPart pre post step)
    (hskip : ∀ n, pre n → post n) : MendsPart pre post (optional table d step) := by
  intro n s hs
  obtain ⟨es, hr, -, hnone, hsome⟩ := run_choose table d hs
  have hmade := choose_ne_none hend hs
  unfold Parser.optional
  generalize choose table d s = c at hr hnone hsome hmade
  obtain ⟨_ | a, t⟩ := c
  · exact absurd rfl hmade
  · obtain ⟨ht, -⟩ := hsome a rfl
    cases a with
    | descend r =>
      obtain ⟨fs, hr', hpost⟩ := h n t ht
      exact ⟨es ++ fs, .trans hr hr', fun hm => hpost (mended_append.1 hm).2⟩
    | take | leave | reject => exact ⟨es, ⟨hr, ht.normal⟩, fun _ => ⟨rfl, hskip n⟩⟩

theorem MendsPart.whenDescends {steps : List (Step ν)} (h : MendsPart pre post (sequence steps))
    (hskip : ∀ n, pre n → post n) : MendsPart pre post (whenDescends table d steps) := by
  intro n s hs
  unfold Parser.whenDescends
  split
  · exact h n s hs
  · exact .matched (hskip n) hs rfl rfl

/-- A rule has nothing to recover from where all was mended. -/
theorem Mends.phrase [Node ν] {rule : Rule} {blank : ν} {step : Step ν}
    (hspan : ∀ span n, sound (Node.withSpan span n) ↔ sound n) (h : MendsPart (fun n => n = blank) sound step) :
    Mends sound (phrase rule blank step) := by
  intro s hs
  have ha : Run s [.attempt (.rule rule) .normal] (s.attempt (.rule rule)) := .ofMove (.attempt _ hs.normal)
  obtain ⟨es, hr, hsound⟩ := h blank _ (hs.attempt (.rule rule))
  obtain ⟨fs, hr', -⟩ := recover_reaches rule (.trans ha hr) hs.toSealed
  refine ⟨_, ⟨hr'.run, hr'.fits⟩, fun hm => ?_⟩
  rw [mended_append, mended_append] at hm
  obtain ⟨hv, hn⟩ := hsound hm.1.2
  unfold Parser.phrase
  dsimp only
  rw [recover_of_matched rule hv, hspan]
  exact ⟨hv, hn rfl⟩

/-! ## Repetitions -/

theorem Mends.many {reader : Reader ν} {kind : TokenKind} (hend : table.action d .endOfInput ≠ .reject)
    (h : Mends sound reader) (hp : PassesAt kind reader) (hd : ∀ k r, table.action d k = .descend r → k = kind) :
    Mends (fun ns => ∀ n ∈ ns, sound n) (many table d reader) := by
  intro s hs
  induction hn : s.remaining using Nat.strong_induction_on generalizing s with
  | _ n ih =>
    obtain ⟨es, hr, -, hnone, hsome⟩ := run_choose table d hs
    have hmade := choose_ne_none hend hs
    rw [Parser.many]
    have hle := hr.remaining_le
    generalize choose table d s = c at hr hnone hsome hle hmade
    obtain ⟨_ | a, t⟩ := c
    · exact absurd rfl hmade
    obtain ⟨ht, hact, -, -⟩ := hsome a rfl
    cases a with
    | take | leave | reject => exact ⟨es, ⟨hr, ht.normal⟩, fun _ => ⟨rfl, by simp⟩⟩
    | descend r =>
      obtain ⟨fs, hr', hsound⟩ := h t ht
      have hlt : (reader t).state.remaining < s.remaining := Nat.lt_of_lt_of_le (hp t ht (hd _ r hact)) hle
      dsimp only
      split
      · rename_i hv
        rw [if_pos hlt]
        obtain ⟨gs, hr'', hothers⟩ := ih _ (hn ▸ hlt) _ (hr'.ready ht hv) rfl
        refine ⟨es ++ (fs ++ gs), ⟨hr.trans (hr'.run.trans hr''.run), hr''.fits⟩, fun hm => ?_⟩
        rw [mended_append, mended_append] at hm
        obtain ⟨hv', hns⟩ := hothers hm.2.2
        exact ⟨hv', List.forall_mem_cons.2 ⟨(hsound hm.2.1).2, hns⟩⟩
      · rename_i hv
        exact ⟨es ++ fs, ⟨hr.trans hr'.run, hr'.fits⟩, fun hm => absurd (hsound (mended_append.1 hm).2).1 hv⟩

/-- Items with separators between them, one item more than separators. -/
theorem Mends.separated {item : Reader (List ν)} (h : Mends (fun ns => ∃ n, ns = [n] ∧ sound n) item)
    (hd : ∀ k j, table.action d k = .take j → k = .comma) :
    Mends (fun x => x.items.length = x.separators.length + 1 ∧ (∀ n ∈ x.items, sound n) ∧ ∀ t ∈ x.separators, t.kind = .comma)
      (separated table d item) := by
  intro s hs
  induction hn : s.remaining using Nat.strong_induction_on generalizing s with
  | _ n ih =>
    obtain ⟨es, hr, hsound⟩ := h s hs
    rw [Parser.separated]
    dsimp only
    split
    · rename_i hv
      have hready := hr.ready hs hv
      split
      · rename_i j hact
        have hcomma : (item s).state.nextKind = .comma := hd _ j hact
        have hne : (item s).state.cursor.rest ≠ [] := hready.rest_ne_nil (by simp [hcomma])
        have hrs : Run s (es ++ [.shift (item s).state.lookahead]) (item s).state.shift := hr.run.trans (.ofMove (.shift hready.normal hne))
        have hlt : (item s).state.shift.remaining < s.remaining :=
          Nat.lt_of_lt_of_le (State.remaining_shift_lt hne) hr.run.remaining_le
        rw [if_pos hlt]
        obtain ⟨fs, hr', hothers⟩ := ih _ (hn ▸ hlt) _ ⟨hrs.sealed hs.toSealed, hready.normal⟩ rfl
        refine ⟨_, .trans hrs ⟨hr'.run, hr'.fits⟩, fun hm => ?_⟩
        rw [mended_append, mended_append] at hm
        obtain ⟨x, hx, hsx⟩ := (hsound hm.1.1).2
        obtain ⟨hv', hlen, hitems, hseps⟩ := hothers hm.2
        refine ⟨hv', ?_, ?_, List.forall_mem_cons.2 ⟨hcomma, hseps⟩⟩
        · rw [hx]
          simpa using hlen
        · rw [hx]
          exact List.forall_mem_cons.2 ⟨hsx, hitems⟩
      · refine ⟨es, ⟨hr.run, hready.normal⟩, fun hm => ?_⟩
        obtain ⟨x, hx, hsx⟩ := (hsound hm).2
        exact ⟨rfl, by simp [hx], by simpa [hx] using hsx, by simp⟩
    · rename_i hv
      exact ⟨es, ⟨hr.run, hr.fits⟩, fun hm => absurd (hsound hm).1 hv⟩

/-! ## Rules -/

theorem mends_basicType : Mends (fun n => (n.mapTerminals Terminal.shape).Complete) (basicType .standard) := by
  refine .phrase (fun _ _ => Iff.rfl) fun n s hs => ?_
  split
  · rename_i k hk
    have hnext : s.nextKind = .numberType ∨ s.nextKind = .booleanType := Table.basicType_of_standard hk
    have hne : s.cursor.rest ≠ [] := hs.rest_ne_nil (by rcases hnext with h | h <;> simp [h])
    exact ⟨_, ⟨.ofMove (.shift hs.normal hne), hs.normal⟩,
      fun _ => ⟨rfl, fun _ => hnext.imp Terminal.holds_shape.2 Terminal.holds_shape.2⟩⟩
  · exact .mismatch (c := .unexpectedToken) n hs (Diagnostic.blames_of_code (by decide) _ _ _ _) rfl (by decide)

theorem mends_extent : Mends (fun n => (n.mapTerminals Terminal.shape).Complete) extent := by
  refine .phrase (fun _ _ => Iff.rfl) ?_
  refine .cons (fun n => n.left.kind = .leftBracket) (.terminal _ (by decide) _ ?_) <|
    .cons (fun n => n.left.kind = .leftBracket ∧ n.size.kind = .integer) (.terminal _ (by decide) _ ?_) <|
    .last (.terminal _ (by decide) _ ?_)
  · exact fun n t _ ht => ht
  · exact fun n t hn ht => ⟨hn, ht⟩
  · intro n t hn ht
    exact ⟨Terminal.holds_shape.2 hn.1, Terminal.holds_shape.2 hn.2, Terminal.holds_shape.2 ht⟩

theorem mends_dimension (rule : Rule) : Mends (fun n => (n.mapTerminals Terminal.shape).Complete) (dimension rule) :=
  .phrase (fun _ _ => Iff.rfl) (.child mends_extent fun _ _ _ he => he)

theorem mendsPart_noExtraDimension (sound : TypeSpec → Prop) : MendsPart sound sound (noExtraDimension table) := by
  intro n s hs
  unfold noExtraDimension
  split
  · exact .mismatch (c := .tooManyDimensions) n hs (Diagnostic.blames_of_code (by decide) _ _ _ _) rfl (by decide)
  · exact .matched id hs rfl rfl

/-- A second dimension is only read after a first one. -/
theorem mends_typeSpec : Mends (fun n => (n.mapTerminals Terminal.shape).Complete) (typeSpec .standard) := by
  refine .phrase (fun _ _ => Iff.rfl) ?_
  refine .cons (fun n => ∃ b, n = { basic := b } ∧ (b.mapTerminals Terminal.shape).Complete) (.child mends_basicType ?_) <|
    .last (.whenDescends
      (.cons (fun n => ∃ b e, n = { basic := b, first := some e } ∧ (b.mapTerminals Terminal.shape).Complete ∧
          (e.mapTerminals Terminal.shape).Complete) (.child (mends_dimension _) ?_) <|
        .last (.whenDescends
          (.cons (fun n => (n.mapTerminals Terminal.shape).Complete) (.child (mends_dimension _) ?_) <|
            .last (mendsPart_noExtraDimension _)) ?_)) ?_)
  · intro n b hn hb
    subst hn
    exact ⟨b, rfl, hb⟩
  · intro n e hn he
    obtain ⟨b, rfl, hb⟩ := hn
    exact ⟨b, e, rfl, hb, he⟩
  · intro n e hn he
    obtain ⟨b, e', rfl, hb, he'⟩ := hn
    refine ⟨hb, ?_, ?_, fun _ => rfl⟩
    · simpa [TypeSpec.mapTerminals] using he'
    · simpa [TypeSpec.mapTerminals] using he
  · intro n hn
    obtain ⟨b, e, rfl, hb, he⟩ := hn
    exact ⟨hb, by simpa [TypeSpec.mapTerminals] using he, by simp [TypeSpec.mapTerminals], by simp [TypeSpec.mapTerminals]⟩
  · intro n hn
    obtain ⟨b, rfl, hb⟩ := hn
    exact ⟨hb, by simp [TypeSpec.mapTerminals], by simp [TypeSpec.mapTerminals], by simp [TypeSpec.mapTerminals]⟩

theorem mends_declaredName : Mends (fun ns => ∃ n, ns = [n] ∧ n.kind = .identifier) declaredName := by
  have h : MendsPart (fun _ => True) (fun ns => ∃ n : Terminal, ns = [n] ∧ n.kind = .identifier)
      (terminal .varDecl .identifier (.ofList [.comma, .semicolon]) fun _ t => [t]) :=
    .terminal _ (by decide) _ fun _ t _ ht => ⟨t, rfl, ht⟩
  intro s hs
  obtain ⟨es, hr, hsound⟩ := h [] s hs
  exact ⟨es, hr, fun hm => ⟨(hsound hm).1, (hsound hm).2 trivial⟩⟩

/-- What is said of a list with separators is said of it without the data of its terminals. -/
theorem complete_mapTerminals_shape {x : Separated ν} {C : ν → Prop} {item : ν → ν}
    (hx : x.items.length = x.separators.length + 1 ∧ (∀ n ∈ x.items, C (item n)) ∧ ∀ t ∈ x.separators, t.kind = .comma) :
    (x.mapTerminals Terminal.shape item).Complete C := by
  obtain ⟨hlen, hitems, hseps⟩ := hx
  refine ⟨by simpa [Separated.mapTerminals] using hlen, List.forall_mem_map.2 hitems, List.forall_mem_map.2 fun t ht => ?_⟩
  exact Terminal.holds_shape.2 (hseps t ht)

theorem mends_varDecl : Mends (fun n => (n.mapTerminals Terminal.shape).Complete) (varDecl .standard) := by
  refine .phrase (fun _ _ => Iff.rfl) ?_
  refine .cons (fun n => n.keyword.kind = .var) (.terminal _ (by decide) _ ?_) <|
    .cons (fun n => n.keyword.kind = .var ∧ (n.type.mapTerminals Terminal.shape).Complete) (.child mends_typeSpec ?_) <|
    .cons (fun n => n.keyword.kind = .var ∧ (n.type.mapTerminals Terminal.shape).Complete ∧
      (n.names.mapTerminals Terminal.shape Terminal.shape).Complete (Terminal.Holds .identifier))
      (.child (.separated mends_declaredName (take_comma_of_standard (.inl rfl))) ?_) <|
    .last (.terminal _ (by decide) _ ?_)
  · exact fun n t _ ht => ht
  · exact fun n t hn ht => ⟨hn, ht⟩
  · intro n names hn hnames
    refine ⟨hn.1, hn.2, complete_mapTerminals_shape ⟨hnames.1, fun t ht => ?_, hnames.2.2⟩⟩
    exact Terminal.holds_shape.2 (hnames.2.1 t ht)
  · intro n t hn ht
    exact ⟨Terminal.holds_shape.2 hn.1, hn.2.1, hn.2.2, Terminal.holds_shape.2 ht⟩

/-- The declarations of a program and those of a function are read in the same way. -/
theorem mends_varDecls (rule : Rule) (hend : Table.standard.action d .endOfInput ≠ .reject)
    (hd : ∀ k r, Table.standard.action d k = .descend r → k = .var) :
    Mends (fun n => (n.mapTerminals Terminal.shape).Complete)
      (phrase rule {} (child (many .standard d (varDecl .standard)) fun (n : VarDecls) decls => { n with decls })) := by
  refine .phrase (fun _ _ => Iff.rfl) (.child (.many hend mends_varDecl (accounts_varDecl Table.standard_orderly).2 hd) ?_)
  exact fun n decls _ hdecls => List.forall_mem_map.2 hdecls

theorem mends_statement : Mends (fun n => n.semicolon.kind = .semicolon) statement := by
  have hexpression : Mends (fun _ => True) expression := .phrase (fun _ _ => Iff.rfl) (.nil fun _ _ => trivial)
  refine .phrase (fun _ _ => Iff.rfl) ?_
  exact .cons (fun _ => True) (.child hexpression fun _ _ _ _ => trivial) (.last (.terminal _ (by decide) _ fun _ _ _ ht => ht))

theorem mends_block : Mends (fun n => (n.mapTerminals Terminal.shape).Complete) (block .standard) := by
  refine .phrase (fun _ _ => Iff.rfl) ?_
  refine .cons (fun n => n.left.kind = .leftBrace) (.terminal _ (by decide) _ ?_) <|
    .cons (fun n => n.left.kind = .leftBrace ∧ ∀ t ∈ n.statements, t.semicolon.kind = .semicolon)
      (.child (.many (by decide) mends_statement statement_passesAt Table.standard_orderly.moreStatements) ?_) <|
    .last (.terminal _ (by decide) _ ?_)
  · exact fun n t _ ht => ht
  · exact fun n ss hn hss => ⟨hn, hss⟩
  · intro n t hn ht
    refine ⟨Terminal.holds_shape.2 hn.1, List.forall_mem_map.2 fun t ht => ?_, Terminal.holds_shape.2 ht⟩
    exact Terminal.holds_shape.2 (hn.2 t ht)

theorem mends_paramItem :
    Mends (fun ps => ∃ p, ps = [p] ∧ (p.mapTerminals Terminal.shape).Complete) (paramItem .standard) := by
  have hparam : MendsPart (fun _ => True) (fun p : Param => (p.mapTerminals Terminal.shape).Complete) (sequence [
      child (basicType .standard) fun n b => { n with type := b },
      terminal .paramList .identifier (.ofList [.comma, .rightParen]) fun n t => { n with name := t }]) := by
    refine .cons (fun n => (n.type.mapTerminals Terminal.shape).Complete) (.child mends_basicType fun _ _ _ hb => hb) <|
      .last (.terminal _ (by decide) _ ?_)
    exact fun n t hn ht => ⟨hn, Terminal.holds_shape.2 ht⟩
  intro s hs
  obtain ⟨es, hr, hsound⟩ := hparam {} s hs
  exact ⟨es, ⟨hr.run, hr.fits⟩, fun hm => ⟨(hsound hm).1, _, rfl, (hsound hm).2 trivial⟩⟩

theorem mends_paramList : Mends (fun n => (n.mapTerminals Terminal.shape).Complete) (paramList .standard) := by
  refine .phrase (fun _ _ => Iff.rfl) (.child (.separated mends_paramItem (take_comma_of_standard (.inr rfl))) ?_)
  exact fun n params _ hparams => complete_mapTerminals_shape hparams

/-- A function that is as it should be up to its closing parenthesis. -/
structure MendedHead (n : FunctionDecl) : Prop where
  keyword : n.keyword.kind = .function
  name : n.name.kind = .identifier
  left : n.left.kind = .leftParen
  params : ∀ ps ∈ n.params, (ps.mapTerminals Terminal.shape).Complete
  right : n.right.kind = .rightParen

theorem mends_functionDecl : Mends (fun n => (n.mapTerminals Terminal.shape).Complete) (functionDecl .standard) := by
  refine .phrase (fun _ _ => Iff.rfl) ?_
  refine .cons (fun n => n.params = none ∧ n.keyword.kind = .function) (.terminal _ (by decide) _ ?_) <|
    .cons (fun n => (n.params = none ∧ n.keyword.kind = .function) ∧ n.name.kind = .identifier) (.terminal _ (by decide) _ ?_) <|
    .cons (fun n => n.params = none ∧ n.keyword.kind = .function ∧ n.name.kind = .identifier ∧ n.left.kind = .leftParen)
      (.terminal _ (by decide) _ ?_) <|
    .cons (fun n => (∀ ps ∈ n.params, (ps.mapTerminals Terminal.shape).Complete) ∧ n.keyword.kind = .function ∧
      n.name.kind = .identifier ∧ n.left.kind = .leftParen) (.optional (by decide) (.child mends_paramList ?_) ?_) <|
    .cons MendedHead (.terminal _ (by decide) _ ?_) <|
    .cons (fun n => MendedHead n ∧ (n.locals.mapTerminals Terminal.shape).Complete)
      (.child (mends_varDecls .localVars (by decide) Table.standard_orderly.moreLocals) ?_) <|
    .last (.child mends_block ?_)
  · intro n t hn ht
    subst hn
    exact ⟨rfl, ht⟩
  · exact fun n t hn ht => ⟨hn, ht⟩
  · exact fun n t hn ht => ⟨hn.1.1, hn.1.2, hn.2, ht⟩
  · intro n ps hn hps
    exact ⟨by simpa using hps, hn.2⟩
  · intro n hn
    exact ⟨by simp [hn.1], hn.2⟩
  · exact fun n t hn ht => ⟨hn.2.1, hn.2.2.1, hn.2.2.2, hn.1, ht⟩
  · exact fun n vs hn hvs => ⟨⟨hn.keyword, hn.name, hn.left, hn.params, hn.right⟩, hvs⟩
  · intro n b hn hb
    obtain ⟨hhead, hlocals⟩ := hn
    refine ⟨Terminal.holds_shape.2 hhead.keyword, Terminal.holds_shape.2 hhead.name, Terminal.holds_shape.2 hhead.left, ?_,
      Terminal.holds_shape.2 hhead.right, hlocals, hb⟩
    intro ps hps
    obtain ⟨qs, hqs, rfl⟩ := Option.map_eq_some_iff.1 hps
    exact hhead.params qs hqs

theorem mends_functions : Mends (fun n => (n.mapTerminals Terminal.shape).Complete) (functions .standard) := by
  refine .phrase (fun _ _ => Iff.rfl) (.child (.many (by decide) mends_functionDecl (accounts_functionDecl Table.standard_orderly).2
    Table.standard_orderly.moreFunctions) ?_)
  exact fun n decls _ hdecls => List.forall_mem_map.2 hdecls

theorem mends_mainBlock : Mends (fun n => (n.mapTerminals Terminal.shape).Complete) (mainBlock .standard) := by
  refine .phrase (fun _ _ => Iff.rfl) ?_
  refine .cons (fun n => n.keyword.kind = .main) (.terminal _ (by decide) _ ?_) (.last (.child mends_block ?_))
  · exact fun n t _ ht => ht
  · exact fun n b hn hb => ⟨Terminal.holds_shape.2 hn, hb⟩

/-! ## Programs -/

/-- The header of a program is as it should be. -/
structure MendedHeader (n : Program) : Prop where
  keyword : n.keyword.kind = .program
  name : n.name.kind = .identifier
  colon : n.colon.kind = .colon

theorem mendsPart_header : MendsPart (fun _ => True) MendedHeader header := by
  have h : MendsPart (fun _ => True) MendedHeader (sequence headerSteps) := by
    refine .cons (fun n => n.keyword.kind = .program) (.terminal _ (by decide) _ ?_) <|
      .cons (fun n => n.keyword.kind = .program ∧ n.name.kind = .identifier) (.terminal _ (by decide) _ ?_) <|
      .last (.terminal _ (by decide) _ ?_)
    · exact fun n t _ ht => ht
    · exact fun n t hn ht => ⟨hn, ht⟩
    · exact fun n t hn ht => ⟨hn.1, hn.2, ht⟩
  intro n s hs
  obtain ⟨es, hr, hsound⟩ := h n s hs
  unfold header
  dsimp only
  split
  · rename_i hv
    obtain ⟨fs, hr', -⟩ := restart_reaches (sequence headerSteps n s).node (hr.recovering hv)
    refine ⟨es ++ fs, .trans hr.run hr', fun hm => ?_⟩
    have hmatched := (hsound (mended_append.1 hm).1).1
    rw [hv] at hmatched
    cases hmatched
  · exact ⟨es, hr, hsound⟩

theorem mending_mainStep {n : Program} (hs : s.Ready) (hk : s.nextKind ∈ [TokenKind.main, .leftBrace, .endOfInput]) :
    Mending (fun m => ∃ b, m = { n with main := b } ∧ (b.mapTerminals Terminal.shape).Complete) s (mainStep .standard n s) := by
  obtain ⟨es, hr, hsound⟩ := mends_mainBlock s hs
  unfold mainStep child
  dsimp only
  split
  · rename_i hv
    have hend := mainBlock_ended hs hk hv
    refine ⟨_, ⟨hr.run.trans (.ofMove (.abandon .main hend)), hend⟩, fun hm => ?_⟩
    have hmatched := (hsound (mended_append.1 hm).1).1
    rw [hv] at hmatched
    cases hmatched
  · exact ⟨es, ⟨hr.run, hr.fits⟩, fun hm => ⟨(hsound hm).1, _, rfl, (hsound hm).2⟩⟩

theorem mends_nothingLeft (n : Program) : Mends (fun m => m = n) (nothingLeft n) := by
  intro s hs
  obtain ⟨es, hr, hn, hv, -⟩ := nothingLeft_reaches n hs
  exact ⟨es, hr, fun _ => ⟨hv, hn⟩⟩

/-- A program that is as it should be, but for the end of the input. -/
structure MendedProgram (n : Program) : Prop extends MendedHeader n where
  globals : (n.globals.mapTerminals Terminal.shape).Complete
  functions : (n.functions.mapTerminals Terminal.shape).Complete
  main : (n.main.mapTerminals Terminal.shape).Complete

/-- After the functions the main block is next, so it is read where functions end. -/
theorem mendsPart_fromFunctions :
    MendsPart (fun n => MendedHeader n ∧ (n.globals.mapTerminals Terminal.shape).Complete) MendedProgram (sequence [
      child (functions .standard) fun n fs => { n with functions := fs }, mainStep .standard, nothingLeft]) := by
  intro n s hs
  have hfunctions : MendsPart (fun m => m = n)
      (fun m => ∃ fs, m = { n with functions := fs } ∧ (fs.mapTerminals Terminal.shape).Complete)
      (child (functions .standard) fun (m : Program) fs => { m with functions := fs }) := by
    refine .child mends_functions fun m fs hm hfs => ?_
    subst hm
    exact ⟨fs, rfl, hfs⟩
  refine .cons hs (hfunctions n s hs) fun hv hs => ?_
  refine .cons hs (mending_mainStep hs (nextKind_of_functions Table.standard_orderly hv)) fun _ hs => ?_
  rw [sequence_singleton]
  obtain ⟨es, hr, hsame⟩ := mends_nothingLeft _ _ hs
  refine ⟨es, hr, fun hm => ⟨(hsame hm).1, fun hmain hfs hn => ?_⟩⟩
  obtain ⟨fs, hfs, hsound⟩ := hfs rfl
  obtain ⟨b, hb, hblock⟩ := hmain
  rw [(hsame hm).2, hb, hfs]
  exact ⟨⟨hn.1.keyword, hn.1.name, hn.1.colon⟩, hn.2, hsound, hblock⟩

theorem mends_programSteps : MendsPart (fun _ => True) MendedProgram (sequence (programSteps .standard)) := by
  refine .cons MendedHeader mendsPart_header <|
    .cons _ (.child (mends_varDecls .globalVars (by decide) Table.standard_orderly.moreGlobals) ?_) mendsPart_fromFunctions
  exact fun n vs hn hvs => ⟨⟨hn.keyword, hn.name, hn.colon⟩, hvs⟩

end Parser

open QuillFrontEnd.Parser

/-- Where a parse never loses track it does not give up, and every terminal of the tree is of the kind of its place. -/
theorem matched_of_mended {ts : TokenList} (h : ∀ d ∈ (parse ts).diagnostics, d.code ∉ Diagnostic.lostCodes) :
    (parse ts).verdict = .matched ∧ (parse ts).tree.shape.Complete := by
  have hs := (State.ready_initial ts).attempt (.rule .start)
  obtain ⟨es, hr, hsound⟩ := mends_programSteps {} _ hs
  obtain ⟨htrace, span, htree⟩ := parseWith_of_run Table.standard_orderly hr.run
  have hmended : Mended es := by
    have hreports : (parse ts).diagnostics = reports (.attempt (.rule .start) .normal :: es) :=
      diagnostics_of_trace htrace
    rw [hreports] at h
    exact h
  obtain ⟨hv, hn⟩ := hsound hmended
  have hverdict : (parse ts).verdict = (program .standard (.initial ts)).verdict := rfl
  refine ⟨by rw [hverdict, (program_eq .standard (.initial ts)).2.1, hv], ?_⟩
  rw [parse, htree]
  have hn := hn trivial
  exact ⟨Terminal.holds_shape.2 hn.keyword, Terminal.holds_shape.2 hn.name, Terminal.holds_shape.2 hn.colon, hn.globals,
    hn.functions, hn.main, Terminal.holds_shape.2 ts.kind_sentinel⟩

/-- Where a parse mends its input, every terminal of the tree is of the kind of its place. -/
theorem complete_shape_of_mended {ts : TokenList}
    (h : ∀ d ∈ (parse ts).diagnostics, d.code ∉ Diagnostic.brokenCodes) : (parse ts).tree.shape.Complete := by
  have hlost : Diagnostic.lostCodes ⊆ Diagnostic.brokenCodes := by decide
  exact (matched_of_mended fun d hd hcode => h d hd (hlost hcode)).2

/-- The tokens that are laid out for kinds are of these kinds. -/
theorem TokenList.kinds_layOut (offset : Nat) (ks : List TokenKind) : (layOut offset ks).map Token.kind = ks := by
  induction ks generalizing offset with
  | nil => rfl
  | cons k ks ih => rw [layOut, List.map_cons, ih]

/-- The token list of the kinds of a program has these kinds. -/
theorem IsProgram.kinds_ofKinds {w : List TokenKind} (h : IsProgram w) : (TokenList.ofKinds w).kinds = w := by
  have hkinds := TokenList.kinds_layOut 0 w
  obtain ⟨tl, htl⟩ := IsProgram.exists_tokenList (hkinds.symm ▸ h)
  rw [TokenList.ofKinds, ← htl, TokenList.ofTokens_toList, TokenList.kinds, htl, hkinds]

/-- Where a parse reports no unexpected token, no extra dimension and no end of input, it has mended its input: the kinds of the
terminals of its tree from left to right, with those that are missing, are a program, and the parse of that program is clean and
gives a tree of the same shape. -/
theorem mended_input_is_program (ts : TokenList)
    (h : ∀ d ∈ (parse ts).diagnostics, d.code ∉ [Code.unexpectedToken, .tooManyDimensions, .endOfInput]) :
    IsProgram (parse ts).tree.leafKinds ∧ (parse (.ofKinds (parse ts).tree.leafKinds)).isClean = true ∧
      (parse (.ofKinds (parse ts).tree.leafKinds)).tree.shape = (parse ts).tree.shape := by
  have hcomplete : (parse ts).tree.shape.Complete := complete_shape_of_mended h
  have hprogram := Program.isProgram_leafKinds hcomplete
  have hkinds : IsProgram (TokenList.ofKinds (parse ts).tree.leafKinds).kinds := by rwa [hprogram.kinds_ofKinds]
  obtain ⟨u, hu, htokens, hq, hbare⟩ := exists_tree_of_isProgram hkinds
  refine ⟨hprogram, (isClean_iff_quiet _).2 hq, ?_⟩
  have hshape : (parse (.ofKinds (parse ts).tree.leafKinds)).tree.shape = u.shape := by
    rw [Program.shape, ← Program.mapTerminals_bare, hbare, Program.mapTerminals_bare, Program.shape]
  rw [hshape]
  refine Program.shape_eq_of_leafKinds_eq (hu.mapTerminals fun k t ht => Terminal.holds_shape.2 ht.2) hcomplete ?_
  rw [hu.leafKinds_eq, htokens]
  exact hprogram.kinds_ofKinds

/-- In `program : main {,} ;` the name is put in, and the comma and the last semicolon are passed over. -/
theorem mended_input_is_program_gap :
    (∀ d ∈ (parse (.ofKinds [.program, .colon, .main, .leftBrace, .comma, .rightBrace, .semicolon])).diagnostics,
      d.code ∉ [Code.unexpectedToken, .tooManyDimensions, .endOfInput]) ∧
      IsProgram [.program, .identifier, .colon, .main, .leftBrace, .rightBrace, .endOfInput] := by
  have hmended : ∀ d ∈ (parse (.ofKinds [.program, .colon, .main, .leftBrace, .comma, .rightBrace, .semicolon])).diagnostics,
      d.code ∉ [Code.unexpectedToken, .tooManyDimensions, .endOfInput] := by decide +kernel
  have hkinds : (parse (.ofKinds [.program, .colon, .main, .leftBrace, .comma, .rightBrace, .semicolon])).tree.leafKinds =
      [.program, .identifier, .colon, .main, .leftBrace, .rightBrace, .endOfInput] := by decide +kernel
  have h := (mended_input_is_program _ hmended).1
  rw [hkinds] at h
  exact ⟨hmended, h⟩

end QuillFrontEnd
