import QuillFrontEnd.Proofs.Locality
import QuillFrontEnd.Proofs.MapTerminals
import QuillFrontEnd.Proofs.Places

/-!
# What of the tokens a parse depends on

A parse is steered by the kinds of its tokens alone: their texts only go into messages and into the tree, and where they stand
only into spans and positions. So two parses of token lists that look alike, by their kinds or by their kinds and texts, do
things that look alike all the way. `seen` says what is left of a token, a terminal, a diagnostic or an event if only so much
of the tokens is looked at; each function that readers are made of is then shown to keep states alike.
-/

namespace QuillFrontEnd

/-! ## What is seen -/

/-- How much of tokens is looked at: their kinds, or their texts too. Where they stand is never looked at. -/
inductive Detail where
  | kinds
  | texts

/-- What is seen of a text. -/
def Detail.text : Detail → String → String
  | kinds, _ => ""
  | texts, text => text

variable {v : Detail}

/-- What is seen of a token. -/
def Token.seen (v : Detail) (t : Token) : Token := ⟨t.kind, v.text t.lexeme, .zero, .first⟩

/-- What is seen of a terminal: what is seen of its token, and whether it is missing. -/
def Terminal.seen (v : Detail) (t : Terminal) : Terminal := { t.toToken.seen v with missing := t.missing }

/-- What is seen of a diagnostic: all but its place. The message may hold the text of a token. -/
def Diagnostic.seen (v : Detail) (d : Diagnostic) : Diagnostic :=
  { d with message := v.text d.message, span := .zero, position := .first, found := d.found.map (Token.seen v) }

/-- What is seen of an event. -/
def Parser.Event.seen (v : Detail) : Parser.Event → Parser.Event
  | attempt goal mode => attempt goal mode
  | shift t => shift (t.seen v)
  | drop t => drop (t.seen v)
  | insert kind before => insert kind (before.seen v)
  | report d => report (d.seen v)
  | mute d => mute (d.seen v)
  | abandon rule lookahead => abandon rule (lookahead.seen v)

section

variable {t t' : Token}

theorem Token.kind_eq_of_seen (h : t.seen v = t'.seen v) : t.kind = t'.kind := by
  injection h

theorem Token.isEnd_eq_of_seen (h : t.seen v = t'.seen v) : t.isEnd = t'.isEnd := by
  rw [Token.isEnd, Token.isEnd, Token.kind_eq_of_seen h]

/-- Where texts are seen, tokens that look alike are described in the same words. -/
theorem Token.describe_eq_of_seen (h : t.seen .texts = t'.seen .texts) : t.describe = t'.describe := by
  have hlexeme : t.lexeme = t'.lexeme := by injection h
  rw [Token.describe, Token.describe, Token.isEnd_eq_of_seen h, hlexeme]

/-- A message that ends with the description of a token looks like the one for another token that looks alike. -/
theorem Detail.text_describe (h : t.seen v = t'.seen v) (front : String) :
    v.text (front ++ t.describe) = v.text (front ++ t'.describe) := by
  cases v with
  | kinds => rfl
  | texts => rw [Token.describe_eq_of_seen h]

theorem Terminal.seen_ofToken (h : t.seen v = t'.seen v) : (Terminal.ofToken t).seen v = (Terminal.ofToken t').seen v :=
  congrArg Terminal.ofToken h

/-- Diagnostics that blame tokens which look alike look alike if their messages do. -/
theorem Diagnostic.seen_blaming (h : t.seen v = t'.seen v) {message message' : String} (hm : v.text message = v.text message')
    (c : Code) (expected note : String) :
    (((((ofCode c).saying message).blaming t).expecting expected).noting note).seen v =
      (((((ofCode c).saying message').blaming t').expecting expected).noting note).seen v := by
  simp only [seen, noting, expecting, blaming, saying, Option.map_some, h, hm]

end

namespace Parser

variable {ν μ : Type} {s s' : State}

/-! ## States that look alike -/

/-- Two states in which all that matters to what is done next looks alike, and so does all that was done. Where the last token
ended may differ: that goes into the spans of nodes only. -/
structure Alike (v : Detail) (s s' : State) : Prop where
  rest : s.cursor.rest.map (Token.seen v) = s'.cursor.rest.map (Token.seen v)
  sentinel : s.cursor.sentinel.seen v = s'.cursor.sentinel.seen v
  consumed : s.consumed = s'.consumed
  mode : s.mode = s'.mode
  trace : s.trace.map (Event.seen v) = s'.trace.map (Event.seen v)

namespace Alike

theorem lookahead (h : Alike v s s') : s.lookahead.seen v = s'.lookahead.seen v := by
  have hrest := h.rest
  unfold State.lookahead Cursor.peek
  generalize s.cursor.rest = ts at hrest
  generalize s'.cursor.rest = ts' at hrest
  cases ts with
  | nil =>
    rw [List.map_eq_nil_iff.1 hrest.symm]
    exact h.sentinel
  | cons t ts =>
    obtain ⟨t', ts', rfl, ht, -⟩ := List.map_eq_cons_iff.1 hrest.symm
    exact ht.symm

theorem nextKind (h : Alike v s s') : s.nextKind = s'.nextKind := Token.kind_eq_of_seen h.lookahead

theorem remaining (h : Alike v s s') : s.remaining = s'.remaining := by
  simpa [State.remaining] using congrArg List.length h.rest

theorem log (h : Alike v s s') {e e' : Event} (he : e.seen v = e'.seen v) : Alike v (s.log e) (s'.log e') :=
  { h with trace := by rw [State.log, State.log, List.map_cons, List.map_cons, he, h.trace] }

theorem attempt (h : Alike v s s') (goal : Goal) : Alike v (s.attempt goal) (s'.attempt goal) :=
  h.log (by rw [h.mode])

theorem report (h : Alike v s s') {d d' : Diagnostic} (hd : d.seen v = d'.seen v) : Alike v (s.report d) (s'.report d') :=
  h.log (by rw [Event.seen, Event.seen, hd])

theorem pass (h : Alike v s s') {mark : Token → Event}
    (hmark : (mark s.lookahead).seen v = (mark s'.lookahead).seen v) : Alike v (s.pass mark) (s'.pass mark) := by
  have htail : ∀ c : Cursor, c.advance.2.rest = c.rest.tail := by
    intro c
    unfold Cursor.advance
    cases hr : c.rest <;> simp [hr]
  rw [State.pass_eq, State.pass_eq]
  refine ⟨?_, ?_, ?_, h.mode, ?_⟩
  · rw [htail, htail, List.map_tail, List.map_tail, h.rest]
  · rw [State.sentinel_advance, State.sentinel_advance]
    exact h.sentinel
  · rw [h.consumed]
  · rw [List.map_cons, List.map_cons, hmark, h.trace]

theorem shift (h : Alike v s s') : Alike v s.shift s'.shift := h.pass (by rw [Event.seen, Event.seen, h.lookahead])

theorem drop (h : Alike v s s') : Alike v s.drop s'.drop := h.pass (by rw [Event.seen, Event.seen, h.lookahead])

theorem resume (h : Alike v s s') : Alike v s.resume s'.resume := { h with mode := rfl }

theorem mismatch (h : Alike v s s') {d d' : Diagnostic} (hd : d.seen v = d'.seen v) :
    Alike v (s.mismatch d) (s'.mismatch d') := by
  unfold State.mismatch
  rw [h.mode]
  cases s'.mode with
  | normal => exact { h.report hd with mode := rfl }
  | recovering => exact h.log (by rw [Event.seen, Event.seen, hd])

theorem abandon (h : Alike v s s') (rule : Rule) : Alike v (s.abandon rule) (s'.abandon rule) :=
  (h.log (by rw [Event.seen, Event.seen, h.lookahead])).report rfl

theorem insert (h : Alike v s s') (kind : TokenKind) (rule : Rule) : Alike v (s.insert kind rule) (s'.insert kind rule) := by
  have hreport : (missingTerminal kind rule s.lookahead).seen v = (missingTerminal kind rule s'.lookahead).seen v := rfl
  exact (h.report hreport).log (by rw [Event.seen, Event.seen, h.lookahead])

theorem dropAhead (test : TokenKind → Bool) {ts ts' : List Token} (hts : ts.map (Token.seen v) = ts'.map (Token.seen v))
    (h : Alike v s s') : Alike v (State.dropAhead test ts s) (State.dropAhead test ts' s') := by
  induction ts generalizing ts' s s' with
  | nil =>
    rw [List.map_eq_nil_iff.1 hts.symm]
    exact h
  | cons t ts ih =>
    obtain ⟨t', ts', rfl, ht, hts'⟩ := List.map_eq_cons_iff.1 hts.symm
    rw [State.dropAhead, State.dropAhead, Token.kind_eq_of_seen ht]
    split
    · exact ih hts'.symm h.drop
    · exact h

theorem dropWhile (h : Alike v s s') (test : TokenKind → Bool) : Alike v (s.dropWhile test) (s'.dropWhile test) :=
  dropAhead test h.rest h

theorem dropRefused (h : Alike v s s') (table : Table) (d : Decision) :
    Alike v (dropRefused table d s) (dropRefused table d s') := by
  unfold Parser.dropRefused
  rw [h.nextKind, Token.isEnd_eq_of_seen h.lookahead]
  split
  · exact (h.mismatch (Diagnostic.seen_blaming h.lookahead (Detail.text_describe h.lookahead _) _ _ _)).dropWhile _
  · exact h

/-- A decision is made by the kinds of the tokens. -/
theorem choose (h : Alike v s s') (table : Table) (d : Decision) :
    (choose table d s).1 = (choose table d s').1 ∧ Alike v (choose table d s).2 (choose table d s').2 := by
  have hdropped := (h.attempt (.decision d)).dropRefused table d
  rw [choose_eq, choose_eq, hdropped.nextKind]
  split
  · exact ⟨rfl, hdropped.abandon d.rule⟩
  · exact ⟨rfl, hdropped.resume⟩

end Alike

/-! ## Readers and steps that are steered by what is seen -/

/-- Two outcomes that look alike, with a view of their nodes. -/
structure Mirrored (v : Detail) (look : ν → ν) (o o' : Outcome ν) : Prop where
  node : look o.node = look o'.node
  verdict : o.verdict = o'.verdict
  state : Alike v o.state o'.state

/-- A reader whose outcomes look alike in states that look alike. -/
def Steered (v : Detail) (look : ν → ν) (reader : Reader ν) : Prop :=
  ∀ ⦃s s' : State⦄, Alike v s s' → Mirrored v look (reader s) (reader s')

/-- A step whose outcomes look alike from nodes and states that look alike. -/
def SteeredStep (v : Detail) (look : ν → ν) (step : Step ν) : Prop :=
  ∀ ⦃n n' : ν⦄ ⦃s s' : State⦄, look n = look n' → Alike v s s' → Mirrored v look (step n s) (step n' s')

variable {look : ν → ν} {table : Table} {d : Decision}

theorem Steered.ofStep {step : Step ν} (h : SteeredStep v look step) (n : ν) : Steered v look (step n) := fun _ _ hs => h rfl hs

theorem SteeredStep.nil : SteeredStep v look (sequence []) := fun _ _ _ _ hn hs => ⟨hn, rfl, hs⟩

theorem SteeredStep.cons {step : Step ν} {steps : List (Step ν)} (h : SteeredStep v look step)
    (h' : SteeredStep v look (sequence steps)) : SteeredStep v look (sequence (step :: steps)) := by
  intro n n' s s' hn hs
  have ho := h hn hs
  by_cases hv : (step n s).verdict = .matched
  · rw [sequence_cons_of_matched steps hv, sequence_cons_of_matched steps (ho.verdict ▸ hv)]
    exact h' ho.node ho.state
  · rw [sequence_cons_of_ne_matched steps hv, sequence_cons_of_ne_matched steps (ho.verdict ▸ hv)]
    exact ho

theorem SteeredStep.terminal (rule : Rule) (kind : TokenKind) (follow : KindSet) {put : ν → Terminal → ν}
    (hput : ∀ n t, look (put n t) = put (look n) (t.seen v)) : SteeredStep v look (terminal rule kind follow put) := by
  intro n n' s s' hn hs
  have hs' := hs.attempt (.terminal kind)
  have hput' : ∀ {t t' : Terminal}, t.seen v = t'.seen v → look (put n t) = look (put n' t') := by
    intro t t' ht
    rw [hput, hput, hn, ht]
  rw [terminal_eq, terminal_eq, hs'.nextKind]
  split
  · exact ⟨hput' (Terminal.seen_ofToken hs'.lookahead), rfl, hs'.shift⟩
  · split
    · exact ⟨hput' rfl, rfl, hs'.insert kind rule⟩
    · exact ⟨hn, rfl, hs'.mismatch (Diagnostic.seen_blaming hs'.lookahead (Detail.text_describe hs'.lookahead _) _ _ _)⟩

theorem SteeredStep.child {reader : Reader μ} {lookPart : μ → μ} (h : Steered v lookPart reader) {put : ν → μ → ν}
    (hput : ∀ n x, look (put n x) = put (look n) (lookPart x)) : SteeredStep v look (child reader put) := by
  intro n n' s s' hn hs
  have ho := h hs
  refine ⟨?_, ho.verdict, ho.state⟩
  rw [Parser.child, Parser.child, hput, hput, hn, ho.node]

theorem SteeredStep.whenDescends {steps : List (Step ν)} (h : SteeredStep v look (sequence steps)) :
    SteeredStep v look (whenDescends table d steps) := by
  intro n n' s s' hn hs
  unfold Parser.whenDescends
  rw [hs.nextKind]
  split
  · exact h hn hs
  · exact ⟨hn, rfl, hs⟩

theorem SteeredStep.optional {step : Step ν} (h : SteeredStep v look step) : SteeredStep v look (optional table d step) := by
  intro n n' s s' hn hs
  obtain ⟨hchoice, hstate⟩ := hs.choose table d
  unfold Parser.optional
  generalize choose table d s = c at hchoice hstate
  generalize choose table d s' = c' at hchoice hstate
  obtain ⟨a, t⟩ := c
  obtain ⟨a', t'⟩ := c'
  obtain rfl : a = a' := hchoice
  cases a with
  | none => exact ⟨hn, rfl, hstate⟩
  | some a =>
    cases a with
    | descend r => exact h hn hstate
    | take | leave | reject => exact ⟨hn, rfl, hstate⟩

/-! ## Phrases and repetitions -/

theorem steered_resynchronize [Node ν] (hclose : ∀ t n, look (Node.close t n) = Node.close (Terminal.seen v t) (look n))
    (rule : Rule) (policy : ResyncPolicy) {n n' : ν} (hn : look n = look n') (hs : Alike v s s') :
    Mirrored v look (resynchronize rule policy n s) (resynchronize rule policy n' s') := by
  unfold resynchronize
  have ht := hs.dropWhile fun k => !(policy.terminator == some k) && !policy.stop.contains k
  dsimp only
  rw [ht.nextKind]
  split
  · refine ⟨?_, rfl, ht.shift.resume⟩
    rw [hclose, hclose, hn, Terminal.seen_ofToken ht.lookahead]
  · split
    · exact ⟨hn, rfl, ht.resume⟩
    · exact ⟨hn, rfl, ht.abandon rule⟩

theorem Steered.phrase [Node ν] {rule : Rule} {blank : ν} {step : Step ν} (h : SteeredStep v look step)
    (hspan : ∀ span n, look (Node.withSpan span n) = look n)
    (hclose : ∀ t n, look (Node.close t n) = Node.close (Terminal.seen v t) (look n)) :
    Steered v look (phrase rule blank step) := by
  intro s s' hs
  have ho : Mirrored v look (step blank (s.attempt (.rule rule))) (step blank (s'.attempt (.rule rule))) :=
    h rfl (hs.attempt (.rule rule))
  have hr : Mirrored v look (recover rule (step blank (s.attempt (.rule rule))))
      (recover rule (step blank (s'.attempt (.rule rule)))) := by
    unfold recover
    rw [ho.verdict]
    split
    · exact steered_resynchronize hclose rule _ ho.node ho.state
    · exact ho
  refine ⟨?_, hr.verdict, hr.state⟩
  unfold Parser.phrase
  dsimp only
  rw [hspan, hspan, hr.node]

theorem Steered.many {reader : Reader ν} (h : Steered v look reader) : Steered v (List.map look) (many table d reader) := by
  intro s s' hs
  induction hn : s.remaining using Nat.strong_induction_on generalizing s s' with
  | _ n ih =>
    obtain ⟨hchoice, hstate⟩ := hs.choose table d
    rw [Parser.many, Parser.many]
    generalize choose table d s = c at hchoice hstate
    generalize choose table d s' = c' at hchoice hstate
    obtain ⟨a, t⟩ := c
    obtain ⟨a', t'⟩ := c'
    obtain rfl : a = a' := hchoice
    cases a with
    | none => exact ⟨rfl, rfl, hstate⟩
    | some a =>
      cases a with
      | take | leave | reject => exact ⟨rfl, rfl, hstate⟩
      | descend r =>
        have ho : Mirrored v look (reader t) (reader t') := h hstate
        -- As many tokens are left in both, so either both have made progress or neither has.
        dsimp only
        rw [ho.verdict, ho.state.remaining, hs.remaining]
        have hone : [(reader t).node].map look = [(reader t').node].map look := congrArg (fun x => [x]) ho.node
        split
        · split
          · rename_i hlt
            have hothers := ih _ (by rw [← hn, ho.state.remaining, hs.remaining]; exact hlt) ho.state rfl
            exact ⟨by rw [List.map_cons, List.map_cons, ho.node, hothers.node], hothers.verdict, hothers.state⟩
          · exact ⟨hone, rfl, ho.state⟩
        · exact ⟨hone, rfl, ho.state⟩

theorem Steered.separated {item : Reader (List ν)} (h : Steered v (List.map look) item) :
    Steered v (Separated.mapTerminals (Terminal.seen v) look) (separated table d item) := by
  intro s s' hs
  induction hn : s.remaining using Nat.strong_induction_on generalizing s s' with
  | _ n ih =>
    have ho : Mirrored v (List.map look) (item s) (item s') := h hs
    have hsep := Terminal.seen_ofToken ho.state.lookahead
    by_cases hm : (item s).verdict = .matched
    · have hm' : (item s').verdict = .matched := ho.verdict.symm.trans hm
      cases hk : table.action d (item s).state.nextKind with
      | take k =>
        have hk' : table.action d (item s').state.nextKind = .take k := by rw [← ho.state.nextKind, hk]
        rw [separated_of_take hm hk, separated_of_take hm' hk', ← ho.state.shift.remaining, ← hs.remaining]
        split
        · rename_i hlt
          have hothers := ih _ (hn ▸ hlt) ho.state.shift rfl
          refine ⟨?_, hothers.verdict, hothers.state⟩
          have hitems := congrArg Separated.items hothers.node
          have hseparators := congrArg Separated.separators hothers.node
          simp only [Separated.mapTerminals] at hitems hseparators ⊢
          rw [List.map_append, List.map_append, ho.node, hitems, List.map_cons, List.map_cons, hsep, hseparators]
        · exact ⟨by simp only [Separated.mapTerminals, ho.node, List.map_cons, hsep, List.map_nil], rfl, ho.state.shift⟩
      | descend | leave | reject =>
        unfold Parser.separated
        dsimp only
        rw [hm, hm']
        dsimp only
        rw [← ho.state.nextKind, hk]
        exact ⟨by simp only [Separated.mapTerminals, ho.node, List.map_nil], rfl, ho.state⟩
    · unfold Parser.separated
      dsimp only
      rw [← ho.verdict]
      split
      · contradiction
      · exact ⟨by simp only [Separated.mapTerminals, ho.node, List.map_nil], rfl, ho.state⟩

/-! ## Rules -/

variable (v) (table)

theorem steered_basicType : Steered v (BasicType.mapTerminals (Terminal.seen v)) (basicType table) := by
  refine .phrase ?_ (fun _ _ => rfl) fun _ _ => rfl
  intro n n' s s' hn hs
  dsimp only
  rw [hs.nextKind]
  split
  · exact ⟨congrArg (fun t => ({ keyword := .ofToken t } : BasicType)) hs.lookahead, rfl, hs.shift⟩
  · exact ⟨hn, rfl, hs.mismatch (Diagnostic.seen_blaming hs.lookahead (Detail.text_describe hs.lookahead _) _ _ _)⟩

theorem steered_extent : Steered v (Extent.mapTerminals (Terminal.seen v)) extent :=
  .phrase (.cons (.terminal _ _ _ fun _ _ => rfl) (.cons (.terminal _ _ _ fun _ _ => rfl)
    (.cons (.terminal _ _ _ fun _ _ => rfl) .nil))) (fun _ _ => rfl) fun _ _ => rfl

theorem steered_dimension (rule : Rule) : Steered v (Dimension.mapTerminals (Terminal.seen v)) (dimension rule) :=
  .phrase (.child (steered_extent v) fun _ _ => rfl) (fun _ _ => rfl) fun _ _ => rfl

theorem steered_noExtraDimension : SteeredStep v (TypeSpec.mapTerminals (Terminal.seen v)) (noExtraDimension table) := by
  intro n n' s s' hn hs
  unfold noExtraDimension
  rw [hs.nextKind]
  split
  · exact ⟨hn, rfl, hs.mismatch (Diagnostic.seen_blaming hs.lookahead rfl _ _ _)⟩
  · exact ⟨hn, rfl, hs⟩

theorem steered_typeSpec : Steered v (TypeSpec.mapTerminals (Terminal.seen v)) (typeSpec table) :=
  .phrase (.cons (.child (steered_basicType v table) fun _ _ => rfl) (.cons (.whenDescends
    (.cons (.child (steered_dimension v _) fun _ _ => rfl) (.cons (.whenDescends
      (.cons (.child (steered_dimension v _) fun _ _ => rfl) (.cons (steered_noExtraDimension v table) .nil))) .nil))) .nil))
    (fun _ _ => rfl) fun _ _ => rfl

theorem steered_declaredName : Steered v (List.map (Terminal.seen v)) declaredName := by
  have h : SteeredStep v (List.map (Terminal.seen v))
      (terminal .varDecl .identifier (.ofList [.comma, .semicolon]) fun _ t => [t]) := .terminal _ _ _ fun _ _ => rfl
  exact .ofStep h []

theorem steered_varDecl : Steered v (VarDecl.mapTerminals (Terminal.seen v)) (varDecl table) :=
  .phrase (.cons (.terminal _ _ _ fun _ _ => rfl) (.cons (.child (steered_typeSpec v table) fun _ _ => rfl)
    (.cons (.child (.separated (steered_declaredName v)) fun _ _ => rfl) (.cons (.terminal _ _ _ fun _ _ => rfl) .nil))))
    (fun _ _ => rfl) fun _ _ => rfl

theorem steered_globalVars : Steered v (VarDecls.mapTerminals (Terminal.seen v)) (globalVars table) :=
  .phrase (.child (.many (steered_varDecl v table)) fun _ _ => rfl) (fun _ _ => rfl) fun _ _ => rfl

theorem steered_localVars : Steered v (VarDecls.mapTerminals (Terminal.seen v)) (localVars table) :=
  .phrase (.child (.many (steered_varDecl v table)) fun _ _ => rfl) (fun _ _ => rfl) fun _ _ => rfl

theorem steered_expression : Steered v (fun _ => {}) expression := .phrase .nil (fun _ _ => rfl) fun _ _ => rfl

theorem steered_statement : Steered v (Statement.mapTerminals (Terminal.seen v)) statement :=
  .phrase (.cons (.child (steered_expression v) fun _ _ => rfl) (.cons (.terminal _ _ _ fun _ _ => rfl) .nil))
    (fun _ _ => rfl) fun _ _ => rfl

theorem steered_block : Steered v (Block.mapTerminals (Terminal.seen v)) (block table) :=
  .phrase (.cons (.terminal _ _ _ fun _ _ => rfl) (.cons (.child (.many (steered_statement v)) fun _ _ => rfl)
    (.cons (.terminal _ _ _ fun _ _ => rfl) .nil))) (fun _ _ => rfl) fun _ _ => rfl

theorem steered_param : Steered v (Param.mapTerminals (Terminal.seen v)) (param table) := by
  refine .ofStep ?_ ({} : Param)
  exact .cons (.child (steered_basicType v table) fun _ _ => rfl) (.cons (.terminal _ _ _ fun _ _ => rfl) .nil)

theorem steered_paramItem : Steered v (List.map (Param.mapTerminals (Terminal.seen v))) (paramItem table) := by
  refine .ofStep ?_ []
  exact .child (steered_param v table) fun _ _ => rfl

theorem steered_paramList : Steered v (ParamList.mapTerminals (Terminal.seen v)) (paramList table) :=
  .phrase (.child (.separated (steered_paramItem v table)) fun _ _ => rfl) (fun _ _ => rfl) fun _ _ => rfl

theorem steered_functionDecl : Steered v (FunctionDecl.mapTerminals (Terminal.seen v)) (functionDecl table) :=
  .phrase (.cons (.terminal _ _ _ fun _ _ => rfl) (.cons (.terminal _ _ _ fun _ _ => rfl)
    (.cons (.terminal _ _ _ fun _ _ => rfl) (.cons (.optional (.child (steered_paramList v table) fun _ _ => rfl))
    (.cons (.terminal _ _ _ fun _ _ => rfl) (.cons (.child (steered_localVars v table) fun _ _ => rfl)
    (.cons (.child (steered_block v table) fun _ _ => rfl) .nil))))))) (fun _ _ => rfl) fun _ _ => rfl

theorem steered_functions : Steered v (Functions.mapTerminals (Terminal.seen v)) (functions table) :=
  .phrase (.child (.many (steered_functionDecl v table)) fun _ _ => rfl) (fun _ _ => rfl) fun _ _ => rfl

theorem steered_mainBlock : Steered v (MainBlock.mapTerminals (Terminal.seen v)) (mainBlock table) :=
  .phrase (.cons (.terminal _ _ _ fun _ _ => rfl) (.cons (.child (steered_block v table) fun _ _ => rfl) .nil))
    (fun _ _ => rfl) fun _ _ => rfl

/-! ## Programs -/

theorem steered_restart : SteeredStep v (Program.mapTerminals (Terminal.seen v)) restart := by
  intro n n' s s' hn hs
  have hdropped := hs.dropWhile fun k => !headerRestarts.contains k
  unfold restart
  dsimp only
  rw [hdropped.nextKind]
  split
  · exact ⟨hn, rfl, hdropped.resume⟩
  · exact ⟨hn, rfl, hdropped.abandon .start⟩

theorem steered_header : SteeredStep v (Program.mapTerminals (Terminal.seen v)) header := by
  have h : SteeredStep v (Program.mapTerminals (Terminal.seen v)) (sequence headerSteps) :=
    .cons (.terminal _ _ _ fun _ _ => rfl) (.cons (.terminal _ _ _ fun _ _ => rfl)
      (.cons (.terminal _ _ _ fun _ _ => rfl) .nil))
  intro n n' s s' hn hs
  have ho := h hn hs
  unfold header
  dsimp only
  rw [ho.verdict]
  split
  · exact steered_restart v ho.node ho.state
  · exact ho

theorem steered_mainStep : SteeredStep v (Program.mapTerminals (Terminal.seen v)) (mainStep table) := by
  have h : SteeredStep v (Program.mapTerminals (Terminal.seen v))
      (child (mainBlock table) fun (n : Program) m => { n with main := m }) :=
    .child (steered_mainBlock v table) fun _ _ => rfl
  intro n n' s s' hn hs
  have ho := h hn hs
  unfold mainStep
  dsimp only
  rw [ho.verdict]
  split
  · exact ⟨ho.node, rfl, ho.state.abandon .main⟩
  · exact ho

theorem steered_nothingLeft : SteeredStep v (Program.mapTerminals (Terminal.seen v)) nothingLeft := by
  intro n n' s s' hn hs
  unfold nothingLeft
  rw [Token.isEnd_eq_of_seen hs.lookahead]
  split
  · exact ⟨hn, rfl, hs⟩
  · exact ⟨hn, rfl, ((hs.mismatch (Diagnostic.seen_blaming hs.lookahead rfl _ _ _)).dropWhile fun _ => true).resume⟩

theorem steered_programSteps : SteeredStep v (Program.mapTerminals (Terminal.seen v)) (sequence (programSteps table)) :=
  .cons (steered_header v) (.cons (.child (steered_globalVars v table) fun _ _ => rfl)
    (.cons (.child (steered_functions v table) fun _ _ => rfl) (.cons (steered_mainStep v table)
    (.cons (steered_nothingLeft v) .nil))))

theorem steered_program : Steered v (Program.mapTerminals (Terminal.seen v)) (program table) := by
  refine .phrase ?_ (fun _ _ => rfl) fun _ _ => rfl
  intro n n' s s' hn hs
  have ho := steered_programSteps v table hn hs
  refine ⟨?_, ho.verdict, ho.state.shift⟩
  exact congrArg₂ (fun (n : Program) t => { n with eof := t }) ho.node (Terminal.seen_ofToken ho.state.lookahead)

end Parser

open QuillFrontEnd.Parser

/-! ## Whole parses -/

/-- What is seen of a parse: of its tree, without the spans of the nodes, and of all that it has done. -/
def ParseOutput.seen (v : Detail) (o : ParseOutput) : ParseOutput :=
  ⟨o.tree.mapTerminals (Terminal.seen v), o.verdict, o.trace.map (Event.seen v), o.consumed⟩

/-- Token lists that look alike have sentinels that do, and so do the tokens before them. -/
theorem TokenList.map_seen_parts {ts ts' : TokenList} (h : ts.toList.map (Token.seen v) = ts'.toList.map (Token.seen v)) :
    ts.body.map (Token.seen v) = ts'.body.map (Token.seen v) ∧ ts.sentinel.seen v = ts'.sentinel.seen v := by
  rw [TokenList.toList, TokenList.toList, List.map_append, List.map_append] at h
  obtain ⟨hbody, hsentinel⟩ := List.append_inj' h rfl
  exact ⟨hbody, List.head_eq_of_cons_eq hsentinel⟩

/-- The parses of token lists that look alike look alike. -/
theorem seen_parseWith (table : Table) {ts ts' : TokenList}
    (h : ts.toList.map (Token.seen v) = ts'.toList.map (Token.seen v)) :
    (parseWith table ts).seen v = (parseWith table ts').seen v := by
  obtain ⟨hbody, hsentinel⟩ := TokenList.map_seen_parts h
  have hinitial : Alike v (.initial ts) (.initial ts') := ⟨hbody, hsentinel, rfl, rfl, rfl⟩
  have ho := steered_program v table hinitial
  simp only [ParseOutput.seen, parseWith, ho.node, ho.verdict, ho.state.trace, ho.state.consumed]

/-- What is seen of the events of a list has the places of the events. -/
theorem placed_map_seen (n : Nat) (es : List Event) :
    placed n (es.map (Event.seen v)) = (placed n es).map (Prod.map id (Event.seen v)) := by
  induction es generalizing n with
  | nil => rfl
  | cons e es ih =>
    have hpasses : (passes [e.seen v]).length = (passes [e]).length := by cases e <;> rfl
    rw [List.map_cons, placed, placed, List.map_cons, ih, hpasses]
    rfl

/-- What is picked out of the seen events is what is seen of that which is picked out of the events. -/
theorem placesOf_map_seen {α : Type} {pick : Event → Option α} {look : α → α}
    (hpick : ∀ e : Event, pick (e.seen v) = (pick e).map look) (n : Nat) (es : List Event) :
    placesOf pick n (es.map (Event.seen v)) = (placesOf pick n es).map (Prod.map id look) := by
  rw [placesOf, placesOf, placed_map_seen, List.filterMap_map, List.map_filterMap]
  congr 1
  funext p
  rw [Function.comp_apply, Prod.map_snd, hpick, Option.map_map, Option.map_map]
  rfl

namespace ParseOutput

variable (o : ParseOutput)

theorem takenAt_seen : (o.seen v).takenAt = o.takenAt.map (Prod.map id (Token.seen v)) := by
  rw [takenAt, seen, ← List.map_reverse, placesOf_map_seen fun e => by cases e <;> rfl]
  rfl

theorem skippedAt_seen : (o.seen v).skippedAt = o.skippedAt.map (Prod.map id (Token.seen v)) := by
  rw [skippedAt, seen, ← List.map_reverse, placesOf_map_seen fun e => by cases e <;> rfl]
  rfl

theorem reportedAt_seen : (o.seen v).reportedAt = o.reportedAt.map (Prod.map id (Diagnostic.seen v)) := by
  rw [reportedAt, seen, ← List.map_reverse, placesOf_map_seen fun e => by cases e <;> rfl]
  rfl

end ParseOutput

/-- Token lists look alike if they agree in data from which all that is seen of a token can be told. -/
theorem TokenList.map_seen_of_map {β : Type} {f : Token → β} {g : β → Token} (hg : ∀ t, g (f t) = t.seen v)
    {ts ts' : TokenList} (h : ts.toList.map f = ts'.toList.map f) :
    ts.toList.map (Token.seen v) = ts'.toList.map (Token.seen v) := by
  have hview : Token.seen v = g ∘ f := funext fun t => (hg t).symm
  rw [hview, ← List.map_map, ← List.map_map, h]

/-- Only kinds steer a parse. Two token lists with the same kinds have trees of the same shape, with the same kinds and the same
terminals missing. The tokens in the trees come from the same places of the two lists, from left to right, and so do the skipped
tokens; and the diagnostics stand at the same places, with the same codes, severities, expectations and notes. -/
theorem only_kinds_steer (ts ts' : TokenList) (h : ts.kinds = ts'.kinds) :
    (parse ts).tree.mapTerminals (Terminal.seen .kinds) = (parse ts').tree.mapTerminals (Terminal.seen .kinds) ∧
      (parse ts).takenAt.map Prod.fst = (parse ts').takenAt.map Prod.fst ∧
      (parse ts).skippedAt.map Prod.fst = (parse ts').skippedAt.map Prod.fst ∧
      (parse ts).reportedAt.map (fun p => (p.1, p.2.code, p.2.severity, p.2.expected, p.2.notes)) =
        (parse ts').reportedAt.map (fun p => (p.1, p.2.code, p.2.severity, p.2.expected, p.2.notes)) ∧
      (parse ts).Located ts ∧ (parse ts').Located ts' := by
  have hlike : ts.toList.map (Token.seen .kinds) = ts'.toList.map (Token.seen .kinds) :=
    TokenList.map_seen_of_map (g := fun k => ⟨k, "", .zero, .first⟩) (fun _ => rfl) h
  have hseen : (parse ts).seen .kinds = (parse ts').seen .kinds := seen_parseWith .standard hlike
  have htaken := congrArg (List.map Prod.fst ∘ ParseOutput.takenAt) hseen
  have hskipped := congrArg (List.map Prod.fst ∘ ParseOutput.skippedAt) hseen
  have hreported := congrArg (List.map (fun p => (p.1, p.2.code, p.2.severity, p.2.expected, p.2.notes)) ∘
    ParseOutput.reportedAt) hseen
  simp only [Function.comp_apply, ParseOutput.takenAt_seen, ParseOutput.skippedAt_seen, ParseOutput.reportedAt_seen,
    List.map_map] at htaken hskipped hreported
  exact ⟨congrArg ParseOutput.tree hseen, htaken, hskipped, hreported, located_parseWith Table.standard_orderly ts,
    located_parseWith Table.standard_orderly ts'⟩

/-- In a program with a comma too many and no main block, the parse does the same if all tokens stand at one and the same place
and have other texts. -/
theorem only_kinds_steer_without_places :
    let kinds : List TokenKind := [.program, .identifier, .colon, .comma, .var, .numberType, .identifier, .semicolon]
    let ts := TokenList.ofKinds kinds
    let ts' := TokenList.ofTokens (kinds.map Token.placeholder)
    ts.kinds = ts'.kinds ∧
      (parse ts).tree.mapTerminals (Terminal.seen .kinds) = (parse ts').tree.mapTerminals (Terminal.seen .kinds) ∧
      (parse ts').takenAt.map Prod.fst = [0, 1, 2, 4, 5, 6, 7, 8] ∧
      (parse ts').skippedAt.map Prod.fst = [3] ∧
      (parse ts').reportedAt.map (fun p => (p.1, p.2.code)) = [(3, .skippedToken), (8, .unexpectedToken), (8, .endOfInput)] := by
  intro kinds ts ts'
  have hkinds : ts.kinds = ts'.kinds := by decide +kernel
  obtain ⟨htree, htaken, hskipped, hreported, -, -⟩ := only_kinds_steer ts ts' hkinds
  have hcodes := congrArg (List.map fun p => (p.1, p.2.1)) hreported
  rw [List.map_map, List.map_map] at hcodes
  refine ⟨hkinds, htree, htaken.symm.trans ?_, hskipped.symm.trans ?_, hcodes.symm.trans ?_⟩
  · decide +kernel
  · decide +kernel
  · decide +kernel

end QuillFrontEnd
