import QuillFrontEnd.Proofs.Language

/-!
# The spans of phrases

The span of a node is set when its phrase has been read: it goes from the token that was next before to the end of the last one
that was passed, and is a point if none was. So every node has tokens of its own, those that were passed while it was read, and its
span is the one around them. They are among the tokens of the node around it (`Element.Within`), however much was dropped or put in
or never read. In a parse that goes by the grammar, the nodes and terminals below a node share out its tokens from left to right
and leave none over (`Element.Laid`).
-/

namespace QuillFrontEnd

/-! ## Nodes and their tokens -/

/-- The span around tokens: from the start of the first to the end of the last. Around no tokens it is the point where the next
token starts. -/
def Span.around (own : List Token) (next : Token) : Span :=
  ⟨(own.headD next).span.start, own.getLast?.elim next.span.start fun t => t.span.stop⟩

@[simp] theorem Span.around_nil (next : Token) : around [] next = .point next.span.start := rfl

namespace Element

/-- An element whose tokens are among those of a list: its terminals were taken from the list or are missing, and each node in it
has the span around some tokens of the list, with its children among these. -/
inductive Within : List Token → Element → Prop where
  | leaf {own : List Token} {t : Terminal} (taken : t.missing = false → t.toToken ∈ own) : Within own (.leaf t)
  | node {own part : List Token} {rule : Rule} {children : List Element} (next : Token) (sublist : part.Sublist own)
      (inner : ∀ c ∈ children, Within part c) : Within own (.node rule (.around part next) children)

/-- A node of which nothing has been read. -/
@[simp] theorem Within.blank {own : List Token} {rule : Rule} {children : List Element} (h : ∀ c ∈ children, Within [] c) :
    Within own (.node rule .zero children) :=
  .node (Terminal.absent .endOfInput).toToken (List.nil_sublist own) h

@[simp] theorem within_absent (own : List Token) (kind : TokenKind) : Within own (.leaf (.absent kind)) := .leaf nofun

theorem Within.mono {own more : List Token} {e : Element} (h : e.Within own) (hsub : own.Sublist more) : e.Within more := by
  cases h with
  | leaf taken => exact .leaf fun hm => hsub.subset (taken hm)
  | node next sublist inner => exact .node next (sublist.trans hsub) inner

/-- Elements that share out the tokens of a list from left to right, with `next` the token after them: each terminal has one
token, and each node has the span around the tokens of its children. If a node has children, there is a terminal in the last of them. -/
inductive Laid : List Element → List Token → Token → Prop where
  | nil (next : Token) : Laid [] [] next
  | leaf {t : Terminal} {es : List Element} {own : List Token} {next : Token} (taken : t.missing = false)
      (rest : Laid es own next) : Laid (.leaf t :: es) (t.toToken :: own) next
  | node {rule : Rule} {children es : List Element} {part own : List Token} {next : Token}
      (last : ∀ c ∈ children.getLast?, c.leaves ≠ []) (inner : Laid children part (own.headD next)) (rest : Laid es own next) :
      Laid (.node rule (.around part (own.headD next)) children :: es) (part ++ own) next

/-- A node has the tokens of its children. -/
theorem Laid.single {rule : Rule} {children : List Element} {part : List Token} {next : Token}
    (last : ∀ c ∈ children.getLast?, c.leaves ≠ []) (inner : Laid children part next) :
    Laid [.node rule (.around part next) children] part next := by
  have h : Laid [.node rule (.around part next) children] (part ++ []) next := .node last inner (.nil next)
  rwa [List.append_nil] at h

theorem Laid.append {es fs : List Element} {own more : List Token} {after next : Token} (h : Laid es own after)
    (hafter : after = more.headD next) (h' : Laid fs more next) : Laid (es ++ fs) (own ++ more) next := by
  induction h with
  | nil => exact h'
  | leaf taken _ ih => exact .leaf taken (ih hafter)
  | @node rule children es part own after last inner _ _ ih =>
    have hnext : own.headD after = (own ++ more).headD next := by rw [headD_append, hafter]
    rw [hnext] at inner ⊢
    rw [List.append_assoc]
    exact .node last inner (ih hafter)

end Element

theorem Separated.forall_mem_interleave {α β : Type} {item : α → List β} {separator : Terminal → β} {p : β → Prop}
    (hitem : ∀ a, ∀ b ∈ item a, p b) (hseparator : ∀ t, p (separator t)) {as : List α} {ss : List Terminal} :
    ∀ b ∈ interleave item separator as ss, p b := by
  fun_induction interleave item separator as ss with
  | case1 ss => simpa using fun t _ => hseparator t
  | case2 a as ih => exact List.forall_mem_append.2 ⟨hitem a, ih⟩
  | case3 a as t ss ih => exact List.forall_mem_append.2 ⟨hitem a, List.forall_mem_cons.2 ⟨hseparator t, ih⟩⟩

namespace Parser

open Element

variable {ν μ : Type} {s t : State} {es fs : List Event}

/-! ## The state after a run -/

theorem Move.lastEnd_eq (h : Move s es t) : t.lastEnd = (passes es).getLast?.elim s.lastEnd fun x => x.span.stop := by
  cases h with
  | mismatch d normal => rw [State.mismatch, normal]; rfl
  | attempt | shift | close | drop | insert | resume | abandon => rfl

/-- The state keeps where the last token that was passed ends. -/
theorem Run.lastEnd_eq (h : Run s es t) : t.lastEnd = (passes es).getLast?.elim s.lastEnd fun x => x.span.stop := by
  induction h with
  | refl => rfl
  | head m _ ih =>
    rw [ih, m.lastEnd_eq, passes_append, List.getLast?_append]
    cases (passes _).getLast? <;> rfl

/-- The span of a phrase is the one around the tokens that were passed while it was read. -/
theorem span_phrase [Node ν] {rule : Rule} {blank : ν} {step : Step ν} (h : Run s es (phrase rule blank step s).state) :
    (phrase rule blank step s).node =
      Node.withSpan (.around (passes es) (phrase rule blank step s).state.lookahead)
        (recover rule (step blank (s.attempt (.rule rule)))).node := by
  have hconsumed := h.effect.consumed
  have hstart := h.lookahead_eq
  have hstop := h.lastEnd_eq
  unfold phrase at *
  dsimp only at *
  generalize (recover rule (step blank (s.attempt (.rule rule)))).state = u at *
  rw [hconsumed, hstart]
  cases hp : passes es with
  | nil => simp
  | cons x xs =>
    rw [if_pos (by simp), hstop, hp, Span.around]
    cases hlast : (x :: xs).getLast? with
    | none => cases List.getLast?_eq_none_iff.1 hlast
    | some y => rfl

/-! ## Readers and steps that keep to their tokens -/

/-- A reader whose node keeps to the tokens that were passed while it was read. -/
def Lays (parts : ν → List Element) (reader : Reader ν) : Prop :=
  ∀ s : State, s.Ready → ∃ es, Reaches s es (reader s) ∧ (∀ c ∈ parts (reader s).node, c.Within (passes es)) ∧
    (Quiet es → (reader s).verdict = .matched ∧ Laid (parts (reader s).node) (passes es) (reader s).state.lookahead)

/-- How far a phrase has been read: the children up to there, and what is known of those after them. -/
structure Phase (ν : Type) where
  done : ν → List Element
  ahead : ν → Prop := fun _ => True

/-- An outcome in which children were added to a node that had the children `old`, of which `pre` had been read. The children that
are new keep to the tokens that were passed; in a quiet run they are laid out over them, after `pre`. -/
def Laying (children : ν → List Element) (old pre : List Element) (stop : Phase ν) (s : State) (o : Outcome ν) : Prop :=
  ∃ es, Reaches s es o ∧ (∀ c ∈ children o.node, c ∈ old ∨ c.Within (passes es)) ∧ (o.verdict = .matched → stop.ahead o.node) ∧
    (Quiet es → o.verdict = .matched ∧ ∃ new, stop.done o.node = pre ++ new ∧ Laid new (passes es) o.state.lookahead)

/-- A step that reads the children of a node from one phase up to another. -/
def LaysPart (children : ν → List Element) (start stop : Phase ν) (step : Step ν) : Prop :=
  ∀ (n : ν) (s : State), start.ahead n → s.Ready → Laying children (children n) (start.done n) stop s (step n s)

variable {table : Table} {d : Decision} {children : ν → List Element} {old pre : List Element} {start mid stop : Phase ν}

/-- Nothing is added where nothing was passed. -/
theorem Laying.nothing {o : Outcome ν} (hr : Reaches s es o) (hold : ∀ c ∈ children o.node, c ∈ old)
    (hstop : o.verdict = .matched → stop.ahead o.node)
    (hquiet : Quiet es → o.verdict = .matched ∧ passes es = [] ∧ stop.done o.node = pre) : Laying children old pre stop s o := by
  refine ⟨es, hr, fun c hc => .inl (hold c hc), hstop, fun hq => ?_⟩
  obtain ⟨hv, hpasses, hdone⟩ := hquiet hq
  rw [hpasses]
  exact ⟨hv, [], by rw [hdone, List.append_nil], .nil _⟩

theorem Laying.mismatch {n : ν} (hs : s.Ready) {d : Diagnostic} (hd : d.Blames s.lookahead) :
    Laying children (children n) pre stop s ⟨n, .mismatched, s.mismatch d⟩ :=
  .nothing (.mismatch n hs hd) (fun _ hc => hc) nofun fun hq => by simp at hq

/-- What is read after a run that passes nothing, unless it drops tokens. -/
theorem Laying.after {o : Outcome ν} (hr : Run s es t) (hes : Quiet es → passes es = []) (h : Laying children old pre stop t o) :
    Laying children old pre stop s o := by
  obtain ⟨fs, hr', hwithin, hahead, hquiet⟩ := h
  refine ⟨es ++ fs, .trans hr hr', fun c hc => ?_, hahead, fun hq => ?_⟩
  · refine (hwithin c hc).imp_right fun hc => hc.mono ?_
    rw [passes_append]
    exact List.sublist_append_right _ _
  · rw [quiet_append] at hq
    rw [passes_append, hes hq.1, List.nil_append]
    exact hquiet hq.2

theorem Laying.cons {step : Step ν} {steps : List (Step ν)} {n : ν} (hs : s.Ready) (h : Laying children old pre mid s (step n s))
    (h' : (step n s).verdict = .matched → (step n s).state.Ready → mid.ahead (step n s).node →
      Laying children (children (step n s).node) (mid.done (step n s).node) stop (step n s).state
        (sequence steps (step n s).node (step n s).state)) :
    Laying children old pre stop s (sequence (step :: steps) n s) := by
  obtain ⟨es, hr, hwithin, hahead, hquiet⟩ := h
  by_cases hv : (step n s).verdict = .matched
  · obtain ⟨fs, hr', hwithin', hahead', hquiet'⟩ := h' hv (hr.ready hs hv) (hahead hv)
    rw [sequence_cons_of_matched steps hv]
    refine ⟨es ++ fs, .trans hr.run hr', fun c hc => ?_, hahead', fun hq => ?_⟩
    · rw [passes_append]
      rcases hwithin' c hc with hc | hc
      · exact (hwithin c hc).imp_right fun hc => hc.mono (List.sublist_append_left _ _)
      · exact .inr (hc.mono (List.sublist_append_right _ _))
    · rw [quiet_append] at hq
      obtain ⟨-, new, hdone, hlaid⟩ := hquiet hq.1
      obtain ⟨hv', new', hdone', hlaid'⟩ := hquiet' hq.2
      rw [passes_append]
      exact ⟨hv', new ++ new', by rw [hdone', hdone, List.append_assoc], hlaid.append hr'.run.lookahead_eq hlaid'⟩
  · rw [sequence_cons_of_ne_matched steps hv]
    exact ⟨es, hr, hwithin, fun h => absurd h hv, fun hq => absurd (hquiet hq).1 hv⟩

theorem LaysPart.nil (h : ∀ n, start.ahead n → stop.ahead n ∧ stop.done n = start.done n) :
    LaysPart children start stop (sequence []) :=
  fun n s hn hs => .nothing ⟨.refl s, hs.normal⟩ (fun _ hc => hc) (fun _ => (h n hn).1) fun _ => ⟨rfl, rfl, (h n hn).2⟩

theorem LaysPart.cons {step : Step ν} {steps : List (Step ν)} (mid : Phase ν) (h : LaysPart children start mid step)
    (h' : LaysPart children mid stop (sequence steps)) : LaysPart children start stop (sequence (step :: steps)) :=
  fun n s hn hs => .cons hs (h n s hn hs) fun _ hready hmid => h' _ _ hmid hready

theorem LaysPart.last {step : Step ν} (h : LaysPart children start stop step) : LaysPart children start stop (sequence [step]) := by
  intro n
  rw [sequence_singleton]
  exact h n

/-- A terminal that is taken has its token, and one that is put in has none. -/
theorem LaysPart.terminal (rule : Rule) {kind : TokenKind} (hk : kind ≠ .endOfInput) (follow : KindSet) {put : ν → Terminal → ν}
    (hmem : ∀ n t, children (put n t) ⊆ .leaf t :: children n)
    (hput : ∀ n t, start.ahead n → stop.ahead (put n t) ∧ stop.done (put n t) = start.done n ++ [.leaf t]) :
    LaysPart children start stop (terminal rule kind follow put) := by
  intro n s hn hs
  obtain ⟨es, hr, ⟨-, hq, hshifts, hnode, hv⟩ | ⟨hq, -, t, hnode, hv⟩ | ⟨-, -, hq, -, hnode, hv⟩⟩ :=
    terminal_reaches rule hk follow put n hs
  · have hpasses : passes es = [s.lookahead] := by rw [passes_eq_shifts_of_quiet hq, hshifts]
    obtain ⟨hahead, hdone⟩ := hput n (.ofToken s.lookahead) hn
    refine ⟨es, hr, fun c hc => ?_, fun _ => by rw [hnode]; exact hahead, fun _ => ⟨hv, _, by rw [hnode, hdone], ?_⟩⟩
    · rw [hnode] at hc
      rcases List.mem_cons.1 (hmem n _ hc) with rfl | hc
      · rw [hpasses]
        exact .inr (.leaf fun _ => List.mem_singleton_self _)
      · exact .inl hc
    · rw [hpasses]
      exact .leaf rfl (.nil _)
  · refine ⟨es, hr, fun c hc => ?_, fun _ => by rw [hnode]; exact (hput n _ hn).1, fun h => absurd h hq⟩
    rw [hnode] at hc
    rcases List.mem_cons.1 (hmem n _ hc) with rfl | hc
    · exact .inr (.leaf nofun)
    · exact .inl hc
  · exact ⟨es, hr, fun c hc => .inl (by rwa [hnode] at hc), by simp [hv], fun h => absurd h hq⟩

theorem LaysPart.child {reader : Reader μ} {parts : μ → List Element} (h : Lays parts reader) {put : ν → μ → ν}
    (hmem : ∀ n x, children (put n x) ⊆ parts x ++ children n)
    (hput : ∀ n x, start.ahead n → stop.ahead (put n x) ∧ stop.done (put n x) = start.done n ++ parts x) :
    LaysPart children start stop (child reader put) := by
  intro n s hn hs
  obtain ⟨es, hr, hwithin, hquiet⟩ := h s hs
  obtain ⟨hahead, hdone⟩ := hput n (reader s).node hn
  refine ⟨es, ⟨hr.run, hr.fits⟩, fun c hc => ?_, fun _ => hahead, fun hq => ⟨(hquiet hq).1, _, hdone, (hquiet hq).2⟩⟩
  rcases List.mem_append.1 (hmem n _ hc) with hc | hc
  · exact .inr (hwithin c hc)
  · exact .inl hc

/-- A decision passes no token unless it drops some. -/
theorem passes_of_quiet_choose (hs : s.Ready) (h : Run s es (choose table d s).2) (hq : Quiet es) : passes es = [] := by
  obtain ⟨fs, hr, hshifts, -⟩ := run_choose table d hs
  obtain rfl := h.events_eq hr
  rw [passes_eq_shifts_of_quiet hq, hshifts]

theorem LaysPart.optional {step : Step ν} (h : LaysPart children start stop step)
    (hskip : ∀ n, start.ahead n → stop.ahead n ∧ stop.done n = start.done n) :
    LaysPart children start stop (optional table d step) := by
  intro n s hn hs
  obtain ⟨es, hr, -, hnone, hsome⟩ := run_choose table d hs
  have hpasses := passes_of_quiet_choose hs hr
  unfold Parser.optional
  generalize choose table d s = c at hr hnone hsome
  obtain ⟨_ | a, t⟩ := c
  · exact .nothing ⟨hr, (hnone rfl).1⟩ (fun _ hc => hc) nofun fun hq => absurd hq (hnone rfl).2
  · obtain ⟨ht, -⟩ := hsome a rfl
    cases a with
    | descend r => exact .after hr hpasses (h n t hn ht)
    | take | leave | reject =>
      exact .nothing ⟨hr, ht.normal⟩ (fun _ hc => hc) (fun _ => (hskip n hn).1) fun hq => ⟨rfl, hpasses hq, (hskip n hn).2⟩

theorem LaysPart.whenDescends {steps : List (Step ν)} (h : LaysPart children start stop (sequence steps))
    (hskip : ∀ n, start.ahead n → stop.ahead n ∧ stop.done n = start.done n) :
    LaysPart children start stop (whenDescends table d steps) := by
  intro n s hn hs
  unfold Parser.whenDescends
  split
  · exact h n s hn hs
  · exact LaysPart.nil hskip n s hn hs

/-- A step on a node of which nothing was read is a reader. -/
theorem Lays.ofPart {step : Step ν} {blank : ν} (h : LaysPart children ⟨fun _ => [], fun n => n = blank⟩ { done := children } step)
    (hblank : ∀ c ∈ children blank, c.Within []) : Lays children (step blank) := by
  intro s hs
  obtain ⟨es, hr, hwithin, -, hquiet⟩ := h blank s rfl hs
  refine ⟨es, hr, fun c hc => ?_, fun hq => ?_⟩
  · rcases hwithin c hc with hc | hc
    · exact (hblank c hc).mono (List.nil_sublist _)
    · exact hc
  · obtain ⟨hv, new, hdone, hlaid⟩ := hquiet hq
    have hnew : children (step blank s).node = new := hdone
    rw [hnew]
    exact ⟨hv, hlaid⟩

/-- What a rule does to recover adds at most the terminator, which is passed. -/
theorem within_recover [Node ν] {rule : Rule} {o : Outcome ν} (children : ν → List Element) (hr : Reaches s es o) (hs : s.Sealed)
    (hwithin : ∀ c ∈ children o.node, c.Within (passes es))
    (hclose : ∀ k, rule.terminator? = some k → ∀ n t, children (Node.close t n) ⊆ .leaf t :: children n) :
    ∃ fs, Reaches s (es ++ fs) (recover rule o) ∧ (∀ c ∈ children (recover rule o).node, c.Within (passes (es ++ fs))) ∧
      (o.verdict = .matched → fs = []) := by
  obtain ⟨fs, hr', hcases⟩ := recover_reaches rule hr hs
  have hold : ∀ c ∈ children o.node, c.Within (passes (es ++ fs)) := by
    intro c hc
    rw [passes_append]
    exact (hwithin c hc).mono (List.sublist_append_left _ _)
  refine ⟨fs, hr', fun c hc => ?_, fun hv => ?_⟩
  · rcases hcases with ⟨heq, -⟩ | ⟨-, ⟨t, k, hk, hnode, hshifts⟩ | ⟨hnode, -⟩⟩
    · rw [heq] at hc
      exact hold c hc
    · rw [hnode] at hc
      rcases List.mem_cons.1 (hclose k hk _ _ hc) with rfl | hc
      · have ht : t ∈ passes fs := (merge_passes fs).mem_iff.2 (.inl (by rw [hshifts]; exact List.mem_singleton_self t))
        rw [passes_append]
        exact .leaf fun _ => List.mem_append_right _ ht
      · exact hold c hc
    · rw [hnode] at hc
      exact hold c hc
  · rcases hcases with ⟨-, hfs⟩ | ⟨hmismatched, -⟩
    · exact hfs
    · rw [hv] at hmismatched
      cases hmismatched

theorem Lays.phrase [Node ν] {rule : Rule} {blank : ν} {step : Step ν} {element : ν → Element}
    (h : LaysPart (fun n => (element n).children) ⟨fun _ => [], fun n => n = blank⟩ { done := fun n => (element n).children } step)
    (hblank : ∀ c ∈ (element blank).children, c.Within [])
    (hspan : ∀ span n, element (Node.withSpan span n) = .node rule span (element n).children)
    (hlast : ∀ n, ∀ c ∈ (element n).children.getLast?, c.leaves ≠ [])
    (hclose : ∀ k, rule.terminator? = some k → ∀ n t, (element (Node.close t n)).children ⊆ .leaf t :: (element n).children) :
    Lays (fun n => [element n]) (phrase rule blank step) := by
  intro s hs
  have ha : Run s [.attempt (.rule rule) .normal] (s.attempt (.rule rule)) := .ofMove (.attempt _ hs.normal)
  obtain ⟨es, hr, hwithin, hquiet⟩ := Lays.ofPart h hblank _ (hs.attempt (.rule rule))
  obtain ⟨fs, hr', hwithin', hfs⟩ := within_recover (fun n => (element n).children) (.trans ha hr) hs.toSealed
    (by simpa using hwithin) hclose
  have hreaches : Reaches s ([.attempt (.rule rule) .normal] ++ es ++ fs) (Parser.phrase rule blank step s) := ⟨hr'.run, hr'.fits⟩
  have hnode : element (Parser.phrase rule blank step s).node = .node rule _ _ :=
    (congrArg element (span_phrase hreaches.run)).trans (hspan _ _)
  refine ⟨_, hreaches, List.forall_mem_singleton.2 ?_, fun hq => ?_⟩
  · rw [hnode]
    exact .node _ (.refl _) hwithin'
  · simp only [quiet_append] at hq
    obtain ⟨hv, hlaid⟩ := hquiet hq.1.2
    -- The phrase was read to its end, so there was nothing to recover from and its children are all that was passed.
    obtain rfl := hfs hv
    have hrecover := recover_of_matched rule hv
    have hphrase : (Parser.phrase rule blank step s).verdict = .matched ∧
        (Parser.phrase rule blank step s).state = (step blank (s.attempt (.rule rule))).state := by
      change (recover rule _).verdict = _ ∧ (recover rule _).state = _
      rw [hrecover]
      exact ⟨hv, rfl⟩
    have hpasses : passes ([.attempt (.rule rule) .normal] ++ es ++ []) = passes es := by simp
    refine ⟨hphrase.1, ?_⟩
    dsimp only
    rw [hnode, hrecover, hphrase.2, hpasses]
    exact .single (hlast _) hlaid

/-! ## Repetitions -/

theorem Lays.many {reader : Reader ν} {kind : TokenKind} {element : ν → Element} (h : Lays (fun n => [element n]) reader)
    (hp : PassesAt kind reader) (hd : ∀ k r, table.action d k = .descend r → k = kind) :
    Lays (fun ns => ns.map element) (many table d reader) := by
  intro s hs
  induction hn : s.remaining using Nat.strong_induction_on generalizing s with
  | _ n ih =>
    obtain ⟨es, hr, -, hnone, hsome⟩ := run_choose table d hs
    have hpasses := passes_of_quiet_choose hs hr
    rw [Parser.many]
    have hle := hr.remaining_le
    generalize choose table d s = c at hr hnone hsome hle
    obtain ⟨_ | a, t⟩ := c
    · exact ⟨es, ⟨hr, (hnone rfl).1⟩, List.forall_mem_nil _, fun hq => absurd hq (hnone rfl).2⟩
    obtain ⟨ht, hact, -, -⟩ := hsome a rfl
    cases a with
    | take | leave | reject =>
      exact ⟨es, ⟨hr, ht.normal⟩, List.forall_mem_nil _, fun hq => ⟨rfl, by rw [hpasses hq]; exact .nil _⟩⟩
    | descend r =>
      obtain ⟨fs, hr', hwithin, hquiet⟩ := h t ht
      have hlt : (reader t).state.remaining < s.remaining := Nat.lt_of_lt_of_le (hp t ht (hd _ r hact)) hle
      have hfirst := List.forall_mem_singleton.1 hwithin
      dsimp only
      split
      · rename_i hv
        rw [if_pos hlt]
        obtain ⟨gs, hr'', hwithin', hquiet'⟩ := ih _ (hn ▸ hlt) _ (hr'.ready ht hv) rfl
        refine ⟨es ++ (fs ++ gs), ⟨hr.trans (hr'.run.trans hr''.run), hr''.fits⟩, List.forall_mem_cons.2 ⟨?_, fun c hc => ?_⟩,
          fun hq => ?_⟩
        · refine hfirst.mono ?_
          simp only [passes_append]
          exact (List.sublist_append_left _ _).trans (List.sublist_append_right _ _)
        · refine (hwithin' c hc).mono ?_
          simp only [passes_append]
          exact (List.sublist_append_right _ _).trans (List.sublist_append_right _ _)
        · simp only [quiet_append] at hq
          obtain ⟨-, hlaid⟩ := hquiet hq.2.1
          obtain ⟨hv', hlaid'⟩ := hquiet' hq.2.2
          simp only [passes_append, hpasses hq.1, List.nil_append]
          exact ⟨hv', hlaid.append hr''.run.lookahead_eq hlaid'⟩
      · rename_i hv
        refine ⟨es ++ fs, ⟨hr.trans hr'.run, hr'.fits⟩, List.forall_mem_singleton.2 (hfirst.mono ?_), fun hq => ?_⟩
        · rw [passes_append]
          exact List.sublist_append_right _ _
        · exact absurd (hquiet ((quiet_append _ _).1 hq).2).1 hv

theorem Lays.separated {item : Reader (List ν)} {parts : ν → List Element} (h : Lays (fun ns => ns.flatMap parts) item)
    (hone : ∀ s, (item s).verdict = .matched → ∃ n, (item s).node = [n]) (hend : ∀ k, table.action d .endOfInput ≠ .take k) :
    Lays (fun x => Separated.interleave parts .leaf x.items x.separators) (separated table d item) := by
  intro s hs
  induction hn : s.remaining using Nat.strong_induction_on generalizing s with
  | _ n ih =>
    obtain ⟨es, hr, hwithin, hquiet⟩ := h s hs
    rw [Parser.separated]
    dsimp only
    split
    · rename_i hv
      have hready := hr.ready hs hv
      split
      · rename_i k hact
        have hne : (item s).state.cursor.rest ≠ [] := hready.rest_ne_nil (fun hk => hend k (hk ▸ hact))
        have hshift : Run (item s).state [.shift (item s).state.lookahead] (item s).state.shift :=
          .ofMove (.shift hready.normal hne)
        have hlt : (item s).state.shift.remaining < s.remaining :=
          Nat.lt_of_lt_of_le (State.remaining_shift_lt hne) hr.run.remaining_le
        rw [if_pos hlt]
        obtain ⟨fs, hr', hwithin', hquiet'⟩ := ih _ (hn ▸ hlt) _ ⟨hshift.sealed hready.toSealed, hready.normal⟩ rfl
        obtain ⟨x, hx⟩ := hone s hv
        simp only [hx, List.flatMap_singleton] at hwithin hquiet
        simp only [hx, List.singleton_append, Separated.interleave]
        have hpasses : passes (es ++ ([.shift (item s).state.lookahead] ++ fs)) =
            passes es ++ (item s).state.lookahead :: passes fs := by simp
        refine ⟨_, .trans hr.run (.trans hshift ⟨hr'.run, hr'.fits⟩), ?_, fun hq => ?_⟩
        · rw [hpasses]
          refine List.forall_mem_append.2 ⟨fun c hc => (hwithin c hc).mono (List.sublist_append_left _ _),
            List.forall_mem_cons.2 ⟨.leaf fun _ => List.mem_append_right _ List.mem_cons_self, fun c hc => ?_⟩⟩
          exact (hwithin' c hc).mono ((List.sublist_cons_self _ _).trans (List.sublist_append_right _ _))
        · simp only [quiet_append] at hq
          obtain ⟨-, hlaid⟩ := hquiet hq.1
          obtain ⟨hv', hlaid'⟩ := hquiet' hq.2.2
          rw [hpasses]
          exact ⟨hv', hlaid.append rfl (.leaf rfl hlaid')⟩
      · rw [Separated.interleave_nil_right]
        exact ⟨es, ⟨hr.run, hready.normal⟩, hwithin, fun hq => ⟨rfl, (hquiet hq).2⟩⟩
    · rw [Separated.interleave_nil_right]
      exact ⟨es, ⟨hr.run, hr.fits⟩, hwithin, hquiet⟩

/-! ## Rules -/

theorem leaves_of_getLast?_concat (es : List Element) {e : Element} (h : e.leaves ≠ []) :
    ∀ c ∈ (es ++ [e]).getLast?, c.leaves ≠ [] := by
  simpa using h

theorem lays_basicType : Lays (fun n => [n.element]) (basicType .standard) := by
  refine .phrase (fun n s _ hs => ?_) (List.forall_mem_singleton.2 (within_absent ..)) (fun _ _ => rfl) ?_ nofun
  · dsimp only
    split
    · rename_i k hk
      have hnext : s.nextKind = .numberType ∨ s.nextKind = .booleanType := Table.basicType_of_standard hk
      have hne : s.cursor.rest ≠ [] := hs.rest_ne_nil (by rcases hnext with h | h <;> simp [h])
      refine ⟨_, ⟨.ofMove (.shift hs.normal hne), hs.normal⟩, ?_, fun _ => trivial, fun _ => ⟨rfl, _, rfl, .leaf rfl (.nil _)⟩⟩
      exact List.forall_mem_singleton.2 (.inr (.leaf fun _ => List.mem_singleton_self _))
    · exact .mismatch hs (Diagnostic.blames_of_code (by decide) _ _ _ _)
  · simp [BasicType.element, Element.children, Element.leaves]

theorem lays_extent : Lays (fun n => [n.element]) extent := by
  refine .phrase ?_ ?_ (fun _ _ => rfl) ?_ nofun
  · refine .cons { done := fun n => [.leaf n.left] } (.terminal _ (by decide) _ ?_ fun _ _ _ => ⟨trivial, rfl⟩) <|
      .cons { done := fun n => [.leaf n.left, .leaf n.size] } (.terminal _ (by decide) _ ?_ fun _ _ _ => ⟨trivial, rfl⟩) <|
      .last (.terminal _ (by decide) _ ?_ fun _ _ _ => ⟨trivial, rfl⟩)
    all_goals grind [Extent.element, Element.children]
  · simp [Extent.element, Element.children]
  · exact fun n => leaves_of_getLast?_concat [_, _] (e := .leaf n.right) (by simp [Element.leaves])

theorem lays_dimension {rule : Rule} (hrule : rule.terminator? = none) : Lays (fun n => [n.element rule]) (dimension rule) := by
  refine .phrase ?_ ?_ (fun _ _ => rfl) ?_ (by simp [hrule])
  · exact .child lays_extent (by grind [Dimension.element, Element.children]) fun _ _ _ => ⟨trivial, rfl⟩
  · simp [Dimension.element, Extent.element, Element.children]
  · simp [Dimension.element, Element.children]

theorem laysPart_noExtraDimension (children done : TypeSpec → List Element) :
    LaysPart children { done := done } { done := done } (noExtraDimension .standard) := by
  intro n s _ hs
  unfold noExtraDimension
  split
  · exact .mismatch hs (Diagnostic.blames_of_code (by decide) _ _ _ _)
  · exact LaysPart.nil (fun _ _ => ⟨trivial, rfl⟩) n s trivial hs

theorem lays_typeSpec : Lays (fun n => [n.element]) (typeSpec .standard) := by
  refine .phrase ?_ ?_ (fun _ _ => rfl) ?_ nofun
  · refine .cons ⟨fun n => [n.basic.element], fun n => n.first = none ∧ n.second = none⟩ (.child lays_basicType ?_ ?_) <|
      .last (.whenDescends (.cons ⟨fun n => n.basic.element :: (n.first.map (Dimension.element .typeDim1)).toList,
        fun n => n.second = none⟩ (.child (lays_dimension rfl) ?_ ?_) <|
        .last (.whenDescends (.cons { done := fun n => n.element.children } (.child (lays_dimension rfl) ?_ ?_) <|
          .last (laysPart_noExtraDimension _ _)) ?_)) ?_)
    · grind [TypeSpec.element, Element.children]
    · rintro n b rfl
      exact ⟨⟨rfl, rfl⟩, rfl⟩
    · grind [TypeSpec.element, Element.children]
    · exact fun n d hn => ⟨hn.2, by simp⟩
    · grind [TypeSpec.element, Element.children]
    · exact fun n d hn => ⟨trivial, by simp [TypeSpec.element, Element.children]⟩
    · exact fun n hn => ⟨trivial, by simp [TypeSpec.element, Element.children, show n.second = none from hn]⟩
    · exact fun n hn => ⟨trivial, by simp [TypeSpec.element, Element.children, hn.1, hn.2]⟩
  · simp [TypeSpec.element, BasicType.element, Element.children]
  · rintro ⟨basic, _ | first, _ | second, span⟩ <;> simp [TypeSpec.element, Element.children]

theorem lays_declaredName : Lays (fun ns => ns.flatMap fun t => [.leaf t]) declaredName :=
  .ofPart (.terminal .varDecl (show TokenKind.identifier ≠ _ by decide) _ (by simp) fun _ _ _ => ⟨trivial, rfl⟩) (by simp)

theorem lays_varDecl : Lays (fun n => [n.element]) (varDecl .standard) := by
  have hnames := Lays.separated lays_declaredName declaredName_eq_singleton Table.standard_orderly.moreNames
  refine .phrase ?_ ?_ (fun _ _ => rfl) ?_ ?_
  · refine .cons { done := fun n => [.leaf n.keyword] } (.terminal _ (by decide) _ ?_ fun _ _ _ => ⟨trivial, rfl⟩) <|
      .cons { done := fun n => [.leaf n.keyword, n.type.element] } (.child lays_typeSpec ?_ fun _ _ _ => ⟨trivial, rfl⟩) <|
      .cons { done := fun n => .leaf n.keyword :: n.type.element ::
          Separated.interleave (fun t => [.leaf t]) .leaf n.names.items n.names.separators }
        (.child hnames ?_ fun _ _ _ => ⟨trivial, rfl⟩) <|
      .last (.terminal _ (by decide) _ ?_ fun _ _ _ => ⟨trivial, rfl⟩)
    all_goals grind [VarDecl.element, Element.children]
  · simp [VarDecl.element, TypeSpec.element, BasicType.element, Element.children, Separated.interleave]
  · exact fun n => leaves_of_getLast?_concat (_ :: _ :: _) (e := .leaf n.semicolon) (by simp [Element.leaves])
  · intro _ _ n t
    change ({ n with semicolon := t } : VarDecl).element.children ⊆ _
    grind [VarDecl.element, Element.children]

/-- The declarations of a program and those of a function are read in the same way. -/
theorem lays_varDecls (rule : Rule) (hrule : rule.terminator? = none)
    (hd : ∀ k r, Table.standard.action d k = .descend r → k = .var) :
    Lays (fun n => [n.element rule])
      (phrase rule {} (child (many .standard d (varDecl .standard)) fun (n : VarDecls) decls => { n with decls })) := by
  have hdecls := Lays.many lays_varDecl (accounts_varDecl Table.standard_orderly).2 hd
  refine .phrase (.child hdecls ?_ fun _ _ _ => ⟨trivial, rfl⟩) (List.forall_mem_nil _) (fun _ _ => rfl) ?_ (by simp [hrule])
  · grind [VarDecls.element, Element.children]
  · intro n c hc
    obtain ⟨v, -, rfl⟩ := List.mem_map.1 (List.mem_of_getLast? hc)
    simp [VarDecl.leaves_element]

theorem lays_expression : Lays (fun n => [n.element]) expression :=
  .phrase (.nil fun _ _ => ⟨trivial, rfl⟩) (List.forall_mem_nil _) (fun _ _ => rfl) (fun _ _ h => nomatch h) nofun

theorem lays_statement : Lays (fun n => [n.element]) statement := by
  refine .phrase ?_ ?_ (fun _ _ => rfl) ?_ ?_
  · refine .cons { done := fun n => [n.expression.element] } (.child lays_expression ?_ fun _ _ _ => ⟨trivial, rfl⟩) <|
      .last (.terminal _ (by decide) _ ?_ fun _ _ _ => ⟨trivial, rfl⟩)
    all_goals grind [Statement.element, Element.children]
  · simp [Statement.element, Expression.element, Element.children]
  · exact fun n => leaves_of_getLast?_concat [n.expression.element] (by simp [Element.leaves])
  · intro _ _ n t
    change ({ n with semicolon := t } : Statement).element.children ⊆ _
    grind [Statement.element, Element.children]

theorem lays_block : Lays (fun n => [n.element]) (block .standard) := by
  have hstatements := Lays.many lays_statement statement_passesAt Table.standard_orderly.moreStatements
  refine .phrase ?_ ?_ (fun _ _ => rfl) ?_ ?_
  · refine .cons { done := fun n => [.leaf n.left] } (.terminal _ (by decide) _ ?_ fun _ _ _ => ⟨trivial, rfl⟩) <|
      .cons { done := fun n => .leaf n.left :: n.statements.map Statement.element }
        (.child hstatements ?_ fun _ _ _ => ⟨trivial, rfl⟩) <|
      .last (.terminal _ (by decide) _ ?_ fun _ _ _ => ⟨trivial, rfl⟩)
    all_goals grind [Block.element, Element.children]
  · simp [Block.element, Element.children]
  · exact fun n => leaves_of_getLast?_concat (_ :: n.statements.map _) (e := .leaf n.right) (by simp [Element.leaves])
  · intro _ _ n t
    change ({ n with right := t } : Block).element.children ⊆ _
    grind [Block.element, Element.children]

theorem lays_paramList : Lays (fun n => [n.element]) (paramList .standard) := by
  have hparam : Lays Param.elements (param .standard) := by
    refine .ofPart (.cons { done := fun n => [n.type.element] } (.child lays_basicType ?_ fun _ _ _ => ⟨trivial, rfl⟩) <|
      .last (.terminal _ (by decide) _ ?_ fun _ _ _ => ⟨trivial, rfl⟩)) ?_
    · grind [Param.elements]
    · grind [Param.elements]
    · simp [Param.elements, BasicType.element]
  have hitem : Lays (fun ns => ns.flatMap Param.elements) (paramItem .standard) :=
    .ofPart (.child hparam (by simp) fun _ _ _ => ⟨trivial, List.flatMap_singleton ..⟩) (by simp)
  have hparams := Lays.separated hitem (fun s _ => ⟨_, rfl⟩) Table.standard_orderly.moreParams
  refine .phrase (.child hparams ?_ fun _ _ _ => ⟨trivial, rfl⟩) ?_ (fun _ _ => rfl) ?_ (fun _ h => nomatch h)
  · grind [ParamList.element, Element.children]
  · simp [ParamList.element, Element.children, Separated.interleave]
  · intro n c hc
    refine Separated.forall_mem_interleave (p := fun c => c.leaves ≠ []) (fun p => ?_) (fun t => ?_) c (List.mem_of_getLast? hc)
    · simp [Param.elements, BasicType.leaves_element, Element.leaves]
    · simp [Element.leaves]

theorem lays_functionDecl : Lays (fun n => [n.element]) (functionDecl .standard) := by
  refine .phrase ?_ ?_ (fun _ _ => rfl) ?_ (fun _ h => nomatch h)
  · refine .cons ⟨fun n => [.leaf n.keyword], fun n => n.params = none⟩ (.terminal _ (by decide) _ ?_ ?_) <|
      .cons ⟨fun n => [.leaf n.keyword, .leaf n.name], fun n => n.params = none⟩ (.terminal _ (by decide) _ ?_ ?_) <|
      .cons ⟨fun n => [.leaf n.keyword, .leaf n.name, .leaf n.left], fun n => n.params = none⟩ (.terminal _ (by decide) _ ?_ ?_) <|
      .cons { done := fun n => [.leaf n.keyword, .leaf n.name, .leaf n.left] ++ (n.params.map ParamList.element).toList }
        (.optional (.child lays_paramList ?_ ?_) ?_) <|
      .cons { done := fun n => [.leaf n.keyword, .leaf n.name, .leaf n.left] ++ (n.params.map ParamList.element).toList ++
          [.leaf n.right] } (.terminal _ (by decide) _ ?_ ?_) <|
      .cons { done := fun n => [.leaf n.keyword, .leaf n.name, .leaf n.left] ++ (n.params.map ParamList.element).toList ++
          [.leaf n.right, n.locals.element .localVars] }
        (.child (lays_varDecls .localVars rfl Table.standard_orderly.moreLocals) ?_ ?_) <|
      .last (.child lays_block ?_ ?_)
    · grind [FunctionDecl.element, Element.children]
    · rintro n t rfl
      exact ⟨rfl, rfl⟩
    · grind [FunctionDecl.element, Element.children]
    · exact fun n t hn => ⟨hn, rfl⟩
    · grind [FunctionDecl.element, Element.children]
    · exact fun n t hn => ⟨hn, rfl⟩
    · grind [FunctionDecl.element, Element.children]
    · exact fun n ps hn => ⟨trivial, by simp⟩
    · exact fun n hn => ⟨trivial, by simp [show n.params = none from hn]⟩
    · grind [FunctionDecl.element, Element.children]
    · exact fun n t _ => ⟨trivial, rfl⟩
    · grind [FunctionDecl.element, Element.children]
    · exact fun n vs _ => ⟨trivial, by simp⟩
    · grind [FunctionDecl.element, Element.children]
    · exact fun n b _ => ⟨trivial, by simp [FunctionDecl.element, Element.children]⟩
  · simp [FunctionDecl.element, VarDecls.element, Block.element, Element.children]
  · intro n
    have hchildren : n.element.children = ([.leaf n.keyword, .leaf n.name, .leaf n.left] ++
        (n.params.map ParamList.element).toList ++ [.leaf n.right, n.locals.element .localVars]) ++ [n.body.element] := by
      simp [FunctionDecl.element, Element.children]
    rw [hchildren]
    exact leaves_of_getLast?_concat _ (by simp [Block.leaves_element])

theorem lays_functions : Lays (fun n => [n.element]) (functions .standard) := by
  have hdecls := Lays.many lays_functionDecl (accounts_functionDecl Table.standard_orderly).2 Table.standard_orderly.moreFunctions
  refine .phrase (.child hdecls ?_ fun _ _ _ => ⟨trivial, rfl⟩) (List.forall_mem_nil _) (fun _ _ => rfl) ?_ nofun
  · grind [Functions.element, Element.children]
  · intro n c hc
    obtain ⟨f, -, rfl⟩ := List.mem_map.1 (List.mem_of_getLast? hc)
    simp [FunctionDecl.leaves_element]

theorem lays_mainBlock : Lays (fun n => [n.element]) (mainBlock .standard) := by
  refine .phrase ?_ ?_ (fun _ _ => rfl) ?_ nofun
  · refine .cons { done := fun n => [.leaf n.keyword] } (.terminal _ (by decide) _ ?_ fun _ _ _ => ⟨trivial, rfl⟩) <|
      .last (.child lays_block ?_ fun _ _ _ => ⟨trivial, rfl⟩)
    all_goals grind [MainBlock.element, Element.children]
  · simp [MainBlock.element, Block.element, Element.children]
  · simp [MainBlock.element, Element.children, Block.leaves_element]

/-! ## Programs -/

/-- What is read before the end of the input as elements. -/
def sections (n : Program) : List Element :=
  [.leaf n.keyword, .leaf n.name, .leaf n.colon, n.globals.element .globalVars, n.functions.element, n.main.element]

/-- After an error that leaves the node as it is, nothing is added to it. -/
theorem Laying.failed {o o' : Outcome ν} (h : Laying children old pre mid s o) (hv : o.verdict ≠ .matched)
    (hr : Reaches o.state fs o') (hnode : o'.node = o.node) (hahead : o'.verdict = .matched → stop.ahead o'.node) :
    Laying children old pre stop s o' := by
  obtain ⟨es, hr', hwithin, -, hquiet⟩ := h
  refine ⟨es ++ fs, .trans hr'.run hr, fun c hc => ?_, hahead, fun hq => ?_⟩
  · rw [hnode] at hc
    rw [passes_append]
    exact (hwithin c hc).imp_right fun hc => hc.mono (List.sublist_append_left _ _)
  · exact absurd (hquiet ((quiet_append _ _).1 hq).1).1 hv

theorem laysPart_header :
    LaysPart sections { done := fun _ => [] } { done := fun n => [.leaf n.keyword, .leaf n.name, .leaf n.colon] } header := by
  have hsteps : LaysPart sections { done := fun _ => [] } { done := fun n => [.leaf n.keyword, .leaf n.name, .leaf n.colon] }
      (sequence headerSteps) := by
    refine .cons { done := fun n => [.leaf n.keyword] } (.terminal _ (by decide) _ ?_ fun _ _ _ => ⟨trivial, rfl⟩) <|
      .cons { done := fun n => [.leaf n.keyword, .leaf n.name] } (.terminal _ (by decide) _ ?_ fun _ _ _ => ⟨trivial, rfl⟩) <|
      .last (.terminal _ (by decide) _ ?_ fun _ _ _ => ⟨trivial, rfl⟩)
    all_goals grind [sections]
  intro n s hn hs
  have h := hsteps n s hn hs
  unfold header
  dsimp only
  split
  · rename_i hv
    have ⟨es, hr, _⟩ := h
    obtain ⟨fs, hr', -, hnode, -⟩ := restart_reaches (sequence headerSteps n s).node (hr.recovering hv)
    exact h.failed (by simp [hv]) hr' hnode fun _ => trivial
  · exact h

theorem laying_mainStep {n : Program} (hs : s.Ready) (hk : s.nextKind ∈ [TokenKind.main, .leftBrace, .endOfInput]) :
    Laying sections (sections n) (sections n).dropLast { done := sections } s (mainStep .standard n s) := by
  have hchild : LaysPart sections { done := fun n => (sections n).dropLast } { done := sections }
      (child (mainBlock .standard) fun n m => { n with main := m }) :=
    .child lays_mainBlock (by grind [sections]) fun _ _ _ => ⟨trivial, rfl⟩
  have h := hchild n s trivial hs
  unfold mainStep
  dsimp only
  split
  · rename_i hv
    have hend := mainBlock_ended hs hk hv
    exact h.failed (by simp [hv]) ⟨.ofMove (.abandon .main hend), hend⟩ rfl nofun
  · exact h

theorem laysPart_nothingLeft (children done : Program → List Element) :
    LaysPart children { done := done } { done := done } nothingLeft := by
  intro n s _ hs
  obtain ⟨es, hr, hnode, hv, -, hshifts, -⟩ := nothingLeft_reaches n hs
  refine .nothing hr (fun c hc => by rwa [hnode] at hc) (fun _ => trivial) fun hq => ⟨hv, ?_, by rw [hnode]⟩
  rw [passes_eq_shifts_of_quiet hq, hshifts]

theorem laysPart_programSteps :
    LaysPart sections { done := fun _ => [] } { done := sections } (sequence (programSteps .standard)) := by
  refine .cons _ laysPart_header <|
    .cons { done := fun n => [.leaf n.keyword, .leaf n.name, .leaf n.colon, n.globals.element .globalVars] }
      (.child (lays_varDecls .globalVars rfl Table.standard_orderly.moreGlobals) ?_ fun _ _ _ => ⟨trivial, rfl⟩) fun n s _ hs => ?_
  · grind [sections]
  -- The step for the main block is not a `LaysPart` of its own: it gives up as it should only after the functions.
  have hfunctions : LaysPart sections
      { done := fun n => [.leaf n.keyword, .leaf n.name, .leaf n.colon, n.globals.element .globalVars] }
      { done := fun n => (sections n).dropLast } (child (functions .standard) fun n fs => { n with functions := fs }) :=
    .child lays_functions (by grind [sections]) fun _ _ _ => ⟨trivial, rfl⟩
  refine .cons hs (hfunctions n s trivial hs) fun hv hs _ => ?_
  refine .cons hs (laying_mainStep hs (nextKind_of_functions Table.standard_orderly hv)) fun _ hs _ => ?_
  exact LaysPart.last (laysPart_nothingLeft _ _) _ _ trivial hs

end Parser

open QuillFrontEnd.Parser

/-! ## Whole parses -/

/-- The span of a program goes from its first token to the sentinel. -/
theorem span_parse (ts : TokenList) : (parse ts).tree.span = .around ts.toList ts.sentinel := by
  obtain ⟨es, t, hr, hend, hstate, -⟩ := program_reaches Table.standard_orderly (State.ready_initial ts)
  have hspan : (parse ts).tree.span =
      if 0 < (program .standard (.initial ts)).state.consumed then
        ⟨(State.initial ts).lookahead.span.start, (program .standard (.initial ts)).state.lastEnd⟩
      else .point (State.initial ts).lookahead.span.start := rfl
  have hlook : t.lookahead = ts.sentinel := by
    rw [State.lookahead, Cursor.peek, hend, hr.effect.sentinel]
    rfl
  have hconsumed : 0 < t.shift.consumed := Nat.succ_pos t.consumed
  have hstop : t.shift.lastEnd = ts.sentinel.span.stop := congrArg (fun x => x.span.stop) hlook
  rw [hspan, hstate, if_pos hconsumed, hstop, Span.around, TokenList.toList, headD_append, List.getLast?_concat]
  rfl

/-- The elements of a tree keep to the tokens that were parsed. In a parse that goes by the grammar they share them out. -/
theorem within_parse (ts : TokenList) :
    (parse ts).tree.element.Within ts.toList ∧
      (Quiet (parse ts).trace.reverse → Element.Laid [(parse ts).tree.element] ts.toList ts.sentinel) := by
  have hlays : Lays sections (sequence (programSteps .standard) {}) :=
    .ofPart (fun n s _ hs => laysPart_programSteps n s trivial hs)
      (by simp [sections, VarDecls.element, Functions.element, MainBlock.element, Block.element])
  obtain ⟨es, hr, hwithin, hquiet⟩ := hlays _ ((State.ready_initial ts).attempt (.rule .start))
  obtain ⟨htrace, span, htree⟩ := parseWith_of_run Table.standard_orderly hr.run
  have hpasses : passes es ++ [ts.sentinel] = ts.toList := by
    rw [← passes_trace Table.standard_orderly ts, htrace]
    simp
  have helement : (parse ts).tree.element = .node .start (.around ts.toList ts.sentinel)
      (sections (sequence (programSteps .standard) {} ((State.initial ts).attempt (.rule .start))).node ++
        [.leaf (.ofToken ts.sentinel)]) := by
    rw [Program.element, span_parse, parse, htree]
    rfl
  rw [helement]
  refine ⟨.node _ (.refl _) (List.forall_mem_append.2 ⟨fun c hc => ?_, List.forall_mem_singleton.2 ?_⟩), fun hq => ?_⟩
  · rw [← hpasses]
    exact (hwithin c hc).mono (List.sublist_append_left _ _)
  · exact .leaf fun _ => List.mem_append_right _ (List.mem_singleton_self _)
  · have hes : Quiet es := by
      rw [parse, htrace] at hq
      simpa using hq
    have hlaid := (hquiet hes).2
    rw [State.lookahead_of_ahead (hr.run.ahead_of_passes hpasses.symm)] at hlaid
    refine .single (leaves_of_getLast?_concat _ (by simp [Element.leaves])) ?_
    rw [← hpasses]
    exact hlaid.append rfl (.leaf rfl (.nil _))

end QuillFrontEnd
