import QuillFrontEnd.Proofs.Containment
import QuillFrontEnd.Proofs.Keywords

/-!
# Damaged parameters

Other tokens may stand between the parentheses of a function. A mistake that is found within the list of parameters is mended there:
the list goes on at the closing parenthesis, and no more than the parameters is lost. But the list is complete behind a name that no
comma follows. If there are more tokens then, it is the function that misses its closing parenthesis, and it goes on only at the next
function or at the main block, without that parenthesis, its declarations and its block.
-/

namespace QuillFrontEnd

/-! ## Parameters that run on -/

/-- The kinds that may not stand in place of parameters. -/
def paramLimits : List TokenKind := [.var, .function, .main, .leftBrace, .rightParen, .endOfInput]

/-- Parameters with commas between them, each with a name or without, and behind the name of the last one a token that is not a
comma. -/
inductive RunsOn : List TokenKind → Prop
  | last {k u : TokenKind} {ks : List TokenKind} (hk : k ∈ Rule.paramList.first) (hu : u ≠ .comma) :
    RunsOn (k :: .identifier :: u :: ks)
  | named {k : TokenKind} {ks : List TokenKind} (hk : k ∈ Rule.paramList.first) (h : RunsOn ks) :
    RunsOn (k :: .identifier :: .comma :: ks)
  | unnamed {k : TokenKind} {ks : List TokenKind} (hk : k ∈ Rule.paramList.first) (h : RunsOn ks) : RunsOn (k :: .comma :: ks)

/-- Tokens that run on from the first one with which parameters can start. -/
def Overruns (ks : List TokenKind) : Prop := RunsOn (ks.dropWhile fun k => !Rule.paramList.first.contains k)

theorem RunsOn.first_mem {k : TokenKind} {ks : List TokenKind} (h : RunsOn (k :: ks)) : k ∈ Rule.paramList.first := by
  cases h <;> assumption

/-! ## Around the parameters -/

/-- The excerpt around the parameters of a function. -/
def FunctionDecl.paramsExcerpt (n : FunctionDecl) : Excerpt where
  before := [n.keyword, n.name]
  opening := [n.left]
  inside := ParamList.leaves? n.params
  closing := [n.right]
  after := (n.locals.element .localVars).leaves ++ n.body.element.leaves

/-- The excerpt around the parameters of the function at a place. -/
def Program.paramsExcerpt? (i : Nat) (n : Program) : Option Excerpt :=
  (Excerpt.inList (fun f => f.element.leaves) (fun f => some f.paramsExcerpt) n.functions.decls i).map
    (.within (n.heading ++ (n.globals.element .globalVars).leaves) (n.main.element.leaves ++ [n.eof]))

theorem FunctionDecl.terminals_paramsExcerpt (n : FunctionDecl) : n.paramsExcerpt.terminals = n.element.leaves := by
  simp [paramsExcerpt, Excerpt.terminals, FunctionDecl.leaves_element]

theorem Program.terminals_of_paramsExcerpt? {i : Nat} (n : Program) (e : Excerpt) (h : n.paramsExcerpt? i = some e) :
    e.terminals = n.element.leaves := by
  obtain ⟨e', he', rfl⟩ := Option.map_eq_some_iff.1 h
  have hterminals := Excerpt.terminals_of_inList he' fun f e he => by
    rw [← Option.some.inj he, FunctionDecl.terminals_paramsExcerpt]
  rw [Excerpt.terminals_within, hterminals, n.leaves_eq, Functions.leaves_element]
  simp

theorem FunctionDecl.paramsExcerpt_mapTerminals (f : Terminal → Terminal) (n : FunctionDecl) :
    (n.mapTerminals f).paramsExcerpt = n.paramsExcerpt.map f := by
  simp [paramsExcerpt, Excerpt.map, FunctionDecl.mapTerminals, ParamList.leaves?_mapTerminals, VarDecls.leaves_mapTerminals,
    Block.leaves_mapTerminals]

theorem Program.paramsExcerpt?_mapTerminals (f : Terminal → Terminal) (i : Nat) (n : Program) :
    (n.mapTerminals f).paramsExcerpt? i = (n.paramsExcerpt? i).map (Excerpt.map f) := by
  have hlist : Excerpt.inList (fun d => d.element.leaves) (fun d => some d.paramsExcerpt)
      (n.functions.decls.map (FunctionDecl.mapTerminals f)) i = _ :=
    Excerpt.inList_map (FunctionDecl.leaves_mapTerminals f) (fun d => by simp [FunctionDecl.paramsExcerpt_mapTerminals])
      n.functions.decls i
  have hdecls : (n.mapTerminals f).functions.decls = n.functions.decls.map (FunctionDecl.mapTerminals f) := rfl
  have hheading : (n.mapTerminals f).heading = n.heading.map f := rfl
  have hglobals : (n.mapTerminals f).globals = n.globals.mapTerminals f := rfl
  have hmain : (n.mapTerminals f).main = n.main.mapTerminals f := rfl
  have heof : (n.mapTerminals f).eof = f n.eof := rfl
  rw [paramsExcerpt?, paramsExcerpt?, hdecls, hlist, hheading, hglobals, hmain, heof, VarDecls.leaves_mapTerminals,
    MainBlock.leaves_mapTerminals]
  cases Excerpt.inList (fun f => f.element.leaves) (fun f => some f.paramsExcerpt) n.functions.decls i with
  | none => rfl
  | some e => simp [Excerpt.map_within]

/-- The function without its parameters. -/
def FunctionDecl.withoutParams (n : FunctionDecl) : FunctionDecl := { n with params := none }

/-- The function as far as it goes before its parameters. -/
def FunctionDecl.upToParams (n : FunctionDecl) : FunctionDecl := { keyword := n.keyword, name := n.name, left := n.left }

theorem FunctionDecl.withoutParams_unplaced (n : FunctionDecl) :
    n.withoutParams.mapTerminals Terminal.unplaced = (n.mapTerminals Terminal.unplaced).withoutParams := rfl

theorem FunctionDecl.upToParams_unplaced (n : FunctionDecl) :
    n.upToParams.mapTerminals Terminal.unplaced = (n.mapTerminals Terminal.unplaced).upToParams := rfl

/-- The tokens of a function after its parentheses. -/
def FunctionDecl.tokensAfterParams (n : FunctionDecl) : List Token :=
  takenTokens (n.locals.element .localVars).leaves ++ takenTokens n.body.element.leaves

/-- The program with a change to the function at a place. -/
def Program.modifyFunction (i : Nat) (g : FunctionDecl → FunctionDecl) (n : Program) : Program :=
  { n with functions := { n.functions with decls := n.functions.decls.modify i g } }

theorem Program.modifyFunction_unplaced {g : FunctionDecl → FunctionDecl}
    (hg : ∀ f, (g f).mapTerminals Terminal.unplaced = g (f.mapTerminals Terminal.unplaced)) (i : Nat) (n : Program) :
    (n.modifyFunction i g).unplaced = n.unplaced.modifyFunction i g := by
  simp [modifyFunction, unplaced, Program.mapTerminals, Functions.mapTerminals, map_modify hg]

namespace Parser

variable {ν μ : Type} {s : State} {v : Verdict} {ts us damage rest xs : List Token} {c k u x : Token} {ok : Token → Prop}

/-! ## Outcomes in front of known tokens -/

/-- An outcome with a verdict that is reached by passing exactly the given tokens: the reader stops behind them. -/
structure Stops (v : Verdict) (s : State) (ts : List Token) (o : Outcome ν) : Prop where
  verdict : o.verdict = v
  run : ∃ es, Reaches s es o ∧ passes es = ts

namespace Stops

variable {o : Outcome ν} {n : ν}

theorem ready (h : Stops .matched s ts o) (hs : s.Ready) : o.state.Ready := by
  obtain ⟨es, hr, -⟩ := h.run
  exact hr.ready hs h.verdict

theorem ahead (h : Stops v s ts o) (ha : s.ahead = ts ++ rest) : o.state.ahead = rest := by
  obtain ⟨es, hr, rfl⟩ := h.run
  exact hr.run.ahead_of_passes ha

theorem child {reader : Reader μ} (h : Stops v s ts (reader s)) (put : ν → μ → ν) (n : ν) : Stops v s ts (child reader put n s) := by
  obtain ⟨es, hr, hes⟩ := h.run
  exact ⟨h.verdict, es, ⟨hr.run, hr.fits⟩, hes⟩

theorem cons {step : Step ν} {steps : List (Step ν)} (h : Stops .matched s ts (step n s))
    (h' : Stops v (step n s).state us (sequence steps (step n s).node (step n s).state)) :
    Stops v s (ts ++ us) (sequence (step :: steps) n s) := by
  obtain ⟨es, hr, rfl⟩ := h.run
  obtain ⟨fs, hr', rfl⟩ := h'.run
  rw [sequence_cons_of_matched steps h.verdict]
  exact ⟨h'.verdict, es ++ fs, .trans hr.run hr', passes_append es fs⟩

theorem cons_of_mismatched {step : Step ν} (h : Stops .mismatched s ts (step n s)) (steps : List (Step ν)) :
    Stops .mismatched s ts (sequence (step :: steps) n s) := by
  rw [sequence_cons_of_ne_matched steps (by rw [h.verdict]; decide)]
  exact h

theorem last {step : Step ν} (h : Stops v s ts (step n s)) : Stops v s ts (sequence [step] n s) := by
  rw [sequence_singleton]
  exact h

theorem phrase [Node ν] {rule : Rule} {blank : ν} {step : Step ν} (hp : rule.resyncPolicy? = none) (hs : s.Ready)
    (h : Stops v (s.attempt (.rule rule)) ts (step blank (s.attempt (.rule rule)))) : Stops v s ts (phrase rule blank step s) := by
  obtain ⟨es, hr, rfl⟩ := h.run
  have hstart : Run s [.attempt (.rule rule) .normal] (s.attempt (.rule rule)) := .ofMove (.attempt _ hs.normal)
  unfold Parser.phrase
  dsimp only
  rw [recover_of_no_policy hp]
  exact ⟨h.verdict, _, ⟨hstart.trans hr.run, hr.fits⟩, by simp⟩

end Stops

theorem stops_terminal (rule : Rule) {kind : TokenKind} (hend : kind ≠ .endOfInput) (follow : KindSet) (put : ν → Terminal → ν)
    (n : ν) (hs : s.Ready) (h : s.nextKind = kind) : Stops .matched s [s.lookahead] (terminal rule kind follow put n s) := by
  have hs' := hs.attempt (.terminal kind)
  have hne : (s.attempt (.terminal kind)).cursor.rest ≠ [] := hs'.rest_ne_nil (by rw [State.nextKind_attempt, h]; exact hend)
  rw [terminal_of_nextKind rule follow put n h]
  exact ⟨rfl, _, ⟨.head (.attempt (.terminal kind) hs.normal) (.ofMove (.shift hs'.normal hne)), hs'.normal⟩, by simp⟩

/-- A terminal that is not next is put in before a token that may follow it. -/
theorem stops_terminal_of_mem (rule : Rule) {kind : TokenKind} {follow : KindSet} (put : ν → Terminal → ν) (n : ν) (hs : s.Ready)
    (h : s.nextKind ≠ kind) (hfollow : s.nextKind ∈ follow) : Stops .matched s [] (terminal rule kind follow put n s) := by
  have hs' := hs.attempt (.terminal kind)
  unfold terminal readTerminal
  simp only [State.nextKind_attempt, h, if_false, hfollow, if_true]
  exact ⟨rfl, _, ⟨.head (.attempt (.terminal kind) hs.normal) (.ofMove (.insert kind rule hs'.normal)), hs'.normal⟩, by simp⟩

theorem stops_terminal_of_notMem (rule : Rule) {kind : TokenKind} {follow : KindSet} (put : ν → Terminal → ν) (n : ν)
    (hs : s.Ready) (h : s.nextKind ≠ kind) (hfollow : s.nextKind ∉ follow) :
    Stops .mismatched s [] (terminal rule kind follow put n s) := by
  obtain ⟨es, hr, hv, hes⟩ := terminal_of_notMem rule put n hs h hfollow
  exact ⟨hv, es, hr, hes⟩

/-- A basic type is one of the tokens with which parameters can start. -/
theorem action_basicType (k : TokenKind) :
    Table.standard.action .basicType k = if k ∈ Rule.paramList.first then .take k else .reject := by
  cases k <;> rfl

theorem stops_basicType (hs : s.Ready) (h : s.nextKind ∈ Rule.paramList.first) :
    Stops .matched s [s.lookahead] (basicType .standard s) := by
  refine .phrase rfl hs ?_
  have hs' := hs.attempt (.rule .basicType)
  have hne : (s.attempt (.rule .basicType)).cursor.rest ≠ [] := by
    refine hs'.rest_ne_nil fun hend => ?_
    rw [State.nextKind_attempt] at hend
    rw [hend] at h
    exact absurd h (by decide)
  dsimp only
  rw [State.nextKind_attempt, action_basicType, if_pos h]
  exact ⟨rfl, _, ⟨.ofMove (.shift hs'.normal hne), hs'.normal⟩, by simp⟩

theorem stops_basicType_of_notMem (hs : s.Ready) (h : s.nextKind ∉ Rule.paramList.first) :
    Stops .mismatched s [] (basicType .standard s) := by
  refine .phrase rfl hs ?_
  dsimp only
  rw [State.nextKind_attempt, action_basicType, if_neg h]
  exact ⟨rfl, _, .mismatch _ (hs.attempt _) (Diagnostic.blames_of_code (by decide) _ _ _ _), by simp⟩

/-! ## One parameter -/

theorem stops_no_param (hs : s.Ready) (h : s.nextKind ∉ Rule.paramList.first) : Stops .mismatched s [] (paramItem .standard s) :=
  (((stops_basicType_of_notMem hs h).child _ _).cons_of_mismatched _).child _ _

/-- What comes of a parameter is what comes of its name. -/
theorem stops_param (hs : s.Ready) (ha : s.ahead = k :: rest) (hk : k.kind ∈ Rule.paramList.first)
    (hname : ∀ (t : State) (n : Param), t.Ready → t.ahead = rest →
      Stops v t ts (terminal .paramList .identifier (.ofList [.comma, .rightParen]) (fun n t => { n with name := t }) n t)) :
    Stops v s (k :: ts) (paramItem .standard s) := by
  have hlook : s.lookahead = k := State.lookahead_of_ahead ha
  have htype : Stops .matched s [k] (basicType .standard s) := by
    rw [← hlook]
    exact stops_basicType hs (by rw [State.nextKind, hlook]; exact hk)
  refine Stops.child (Stops.cons (htype.child (fun (n : Param) b => { n with type := b }) {}) (.last ?_)) _ _
  exact hname _ _ (htype.ready hs) (htype.ahead ha)

theorem stops_named_param (hs : s.Ready) (ha : s.ahead = k :: u :: rest) (hk : k.kind ∈ Rule.paramList.first)
    (hu : u.kind = .identifier) : Stops .matched s [k, u] (paramItem .standard s) := by
  refine stops_param hs ha hk fun t n ht hahead => ?_
  rw [← State.lookahead_of_ahead hahead]
  exact stops_terminal _ (by decide) _ _ n ht ((nextKind_of_ahead hahead).trans hu)

theorem stops_unnamed_param (hs : s.Ready) (ha : s.ahead = k :: u :: rest) (hk : k.kind ∈ Rule.paramList.first)
    (hu : u.kind ∈ [TokenKind.comma, .rightParen]) : Stops .matched s [k] (paramItem .standard s) := by
  have hfollow : u.kind ≠ .identifier ∧ u.kind ∈ KindSet.ofList [.comma, .rightParen] := by
    revert hu
    cases u.kind <;> decide
  refine stops_param hs ha hk fun t n ht hahead => ?_
  rw [← nextKind_of_ahead hahead] at hfollow
  exact stops_terminal_of_mem _ _ n ht hfollow.1 hfollow.2

theorem stops_wrong_param (hs : s.Ready) (ha : s.ahead = k :: u :: rest) (hk : k.kind ∈ Rule.paramList.first)
    (hu : u.kind ∉ [TokenKind.identifier, .comma, .rightParen]) : Stops .mismatched s [k] (paramItem .standard s) := by
  have hfollow : u.kind ≠ .identifier ∧ u.kind ∉ KindSet.ofList [.comma, .rightParen] := by
    revert hu
    cases u.kind <;> decide
  refine stops_param hs ha hk fun t n ht hahead => ?_
  rw [← nextKind_of_ahead hahead] at hfollow
  exact stops_terminal_of_notMem _ _ n ht hfollow.1 hfollow.2

/-! ## Parameters with commas between them -/

theorem stops_separated_of_mismatched {item : Reader (List μ)} (h : Stops .mismatched s ts (item s)) :
    Stops .mismatched s ts (separated .standard .moreParams item s) := by
  obtain ⟨es, hr, hes⟩ := h.run
  rw [Parser.separated]
  dsimp only
  rw [h.verdict]
  exact ⟨rfl, es, ⟨hr.run, hr.recovering h.verdict⟩, hes⟩

/-- Without a comma after an item there are no others. -/
theorem stops_separated_last {item : Reader (List μ)} (hs : s.Ready) (ha : s.ahead = ts ++ u :: rest)
    (h : Stops .matched s ts (item s)) (hu : u.kind ≠ .comma) : Stops .matched s ts (separated .standard .moreParams item s) := by
  obtain ⟨es, hr, hes⟩ := h.run
  have hleave := moreItems_of_standard (.inr rfl) (nextKind_of_ahead (h.ahead ha) ▸ hu)
  rw [Parser.separated]
  dsimp only
  rw [h.verdict]
  dsimp only
  split
  · rename_i j hj
    exact absurd hj (hleave j)
  · exact ⟨rfl, es, ⟨hr.run, (h.ready hs).normal⟩, hes⟩

/-- After the next token was taken, the one after it is next. -/
theorem State.Ready.shift {t : State} (ht : t.Ready) (ha : t.ahead = u :: rest) (hu : u.kind ≠ .endOfInput) :
    Run t [.shift u] t.shift ∧ t.shift.Ready ∧ t.shift.ahead = rest := by
  have hlook : t.lookahead = u := State.lookahead_of_ahead ha
  have hshift : Run t [.shift t.lookahead] t.shift :=
    .ofMove (.shift ht.normal (ht.rest_ne_nil (by rw [State.nextKind, hlook]; exact hu)))
  rw [hlook] at hshift
  exact ⟨hshift, ⟨hshift.sealed ht.toSealed, ht.normal⟩, hshift.ahead_of_passes ha⟩

/-- With a comma after an item, what comes of the others comes of all. -/
theorem stops_separated_next {item : Reader (List μ)} (hs : s.Ready) (ha : s.ahead = ts ++ u :: rest)
    (h : Stops .matched s ts (item s)) (hu : u.kind = .comma)
    (hothers : Stops v (item s).state.shift us (separated .standard .moreParams item (item s).state.shift)) :
    Stops v s (ts ++ u :: us) (separated .standard .moreParams item s) := by
  obtain ⟨es, hr, rfl⟩ := h.run
  obtain ⟨fs, hr', rfl⟩ := hothers.run
  have hahead := h.ahead ha
  obtain ⟨hshift, -⟩ := (h.ready hs).shift hahead (by rw [hu]; decide)
  have hlt : (item s).state.shift.remaining < s.remaining := by
    have hlength := hshift.effect.remaining
    have hle := hr.run.remaining_le
    rw [passes_cons, passes_nil] at hlength
    simp at hlength
    omega
  have hcomma : Table.standard.action .moreParams (item s).state.nextKind = .take .comma := by
    rw [nextKind_of_ahead hahead, hu]
    rfl
  rw [Parser.separated]
  dsimp only
  rw [h.verdict, hcomma]
  dsimp only
  rw [if_pos hlt]
  exact ⟨hothers.verdict, _, ⟨(hr.run.trans hshift).trans hr'.run, hr'.fits⟩, by simp⟩

/-- The parameters of a list. -/
abbrev params : Reader (Separated Param) := separated .standard .moreParams (paramItem .standard)

/-- Parameters that run on end behind the name of the last one, in front of another of the tokens. -/
theorem exists_stops_of_runsOn {ks : List TokenKind} (h : RunsOn ks) (hks : damage.map Token.kind = ks) :
    ∃ us u us', damage = us ++ u :: us' ∧
      ∀ (s : State) (rest : List Token), s.Ready → s.ahead = damage ++ rest → Stops .matched s us (params s) := by
  induction h generalizing damage with
  | @last _ j _ hk hu =>
    obtain ⟨k, _, rfl, rfl, htail⟩ := List.map_eq_cons_iff.1 hks
    obtain ⟨i, _, rfl, hi, hlast⟩ := List.map_eq_cons_iff.1 htail
    obtain ⟨u, us', rfl, rfl, -⟩ := List.map_eq_cons_iff.1 hlast
    refine ⟨[k, i], u, us', rfl, fun s rest hs ha => ?_⟩
    exact stops_separated_last hs ha (stops_named_param hs ha hk hi) hu
  | named hk _ ih =>
    obtain ⟨k, _, rfl, rfl, htail⟩ := List.map_eq_cons_iff.1 hks
    obtain ⟨i, _, rfl, hi, hcomma⟩ := List.map_eq_cons_iff.1 htail
    obtain ⟨j, others, rfl, hj, hmore⟩ := List.map_eq_cons_iff.1 hcomma
    obtain ⟨us, u, us', rfl, hothers⟩ := ih hmore
    refine ⟨k :: i :: j :: us, u, us', rfl, fun s rest hs ha => ?_⟩
    have hitem := stops_named_param hs ha hk hi
    obtain ⟨-, hready, hahead⟩ := (hitem.ready hs).shift (hitem.ahead ha) (by simp [hj])
    exact stops_separated_next hs ha hitem hj (hothers _ rest hready hahead)
  | unnamed hk _ ih =>
    obtain ⟨k, _, rfl, rfl, hcomma⟩ := List.map_eq_cons_iff.1 hks
    obtain ⟨j, others, rfl, hj, hmore⟩ := List.map_eq_cons_iff.1 hcomma
    obtain ⟨us, u, us', rfl, hothers⟩ := ih hmore
    refine ⟨k :: j :: us, u, us', rfl, fun s rest hs ha => ?_⟩
    have hitem := stops_unnamed_param hs ha hk (by simp [hj])
    obtain ⟨-, hready, hahead⟩ := (hitem.ready hs).shift (hitem.ahead ha) (by simp [hj])
    exact stops_separated_next hs ha hitem hj (hothers _ rest hready hahead)

/-- An outcome with which all tokens of a list were passed, or some of them and then there was an error. -/
def StopsWithin (s : State) (ts : List Token) (o : Outcome ν) : Prop :=
  Stops .matched s ts o ∨ ∃ us us', ts = us ++ us' ∧ Stops .mismatched s us o

theorem stopsWithin_next (hs : s.Ready) (ha : s.ahead = ts ++ u :: rest) (h : Stops .matched s ts (paramItem .standard s))
    (hu : u.kind = .comma)
    (hothers : ∀ t : State, t.Ready → t.ahead = rest → StopsWithin t us (params t)) :
    StopsWithin s (ts ++ u :: us) (params s) := by
  obtain ⟨-, hready, hahead⟩ := (h.ready hs).shift (h.ahead ha) (by simp [hu])
  rcases hothers _ hready hahead with hall | ⟨vs, vs', rfl, herror⟩
  · exact .inl (stops_separated_next hs ha h hu hall)
  · exact .inr ⟨ts ++ u :: vs, vs', by simp, stops_separated_next hs ha h hu herror⟩

/-- For shorter lists of tokens at the end of the given ones, what is to be shown for these: with parameters that do not run on, the
reader of them stops within the list. -/
def OthersStop (c : Token) (xs damage : List Token) : Prop :=
  ∀ others : List Token, others.length < damage.length → others <:+ damage → ¬RunsOn (others.map Token.kind) →
    ∀ s : State, s.Ready → s.ahead = others ++ c :: xs → StopsWithin s others (params s)

/-- After a parameter with a name come other ones, or nothing: another token would make the parameters run on. -/
theorem stopsWithin_named {i : Token} (hc : c.kind = .rightParen) (h : ¬RunsOn ((k :: i :: damage).map Token.kind)) (hs : s.Ready)
    (ha : s.ahead = k :: i :: damage ++ c :: xs) (hk : k.kind ∈ Rule.paramList.first) (hi : i.kind = .identifier)
    (hothers : OthersStop c xs (k :: i :: damage)) : StopsWithin s (k :: i :: damage) (params s) := by
  have hitem := stops_named_param hs ha hk hi
  cases damage with
  | nil => exact .inl (stops_separated_last hs ha hitem (by rw [hc]; decide))
  | cons j damage =>
    rw [List.map_cons, List.map_cons, List.map_cons, hi] at h
    by_cases hj : j.kind = .comma
    · have hrest : ¬RunsOn (damage.map Token.kind) := fun hruns => h (by rw [hj]; exact .named hk hruns)
      exact stopsWithin_next hs (show s.ahead = [k, i] ++ j :: _ from ha) hitem hj
        (hothers damage (by simp only [List.length_cons]; omega) ⟨[k, i, j], rfl⟩ hrest)
    · exact absurd (.last hk hj) h

theorem stopsWithin_of_others (hc : c.kind = .rightParen) (hdamage : ∀ t ∈ damage, t.kind ≠ .rightParen)
    (h : ¬RunsOn (damage.map Token.kind)) (hs : s.Ready) (ha : s.ahead = damage ++ c :: xs) (hothers : OthersStop c xs damage) :
    StopsWithin s damage (params s) := by
  rcases damage with - | ⟨k, damage⟩
  · refine .inr ⟨[], [], rfl, stops_separated_of_mismatched (stops_no_param hs ?_)⟩
    rw [nextKind_of_ahead ha, hc]
    decide
  by_cases hk : k.kind ∈ Rule.paramList.first
  · rcases damage with - | ⟨u, damage⟩
    · exact .inl (stops_separated_last hs ha (stops_unnamed_param hs ha hk (by simp [hc])) (by rw [hc]; decide))
    by_cases hcomma : u.kind = .comma
    · have hrest : ¬RunsOn (damage.map Token.kind) := fun hruns => h (by
        rw [List.map_cons, List.map_cons, hcomma]
        exact .unnamed hk hruns)
      exact stopsWithin_next hs (show s.ahead = [k] ++ u :: _ from ha) (stops_unnamed_param hs ha hk (by simp [hcomma])) hcomma
        (hothers damage (by simp only [List.length_cons]; omega) ⟨[k, u], rfl⟩ hrest)
    by_cases hname : u.kind = .identifier
    · exact stopsWithin_named hc h hs ha hk hname hothers
    · have hu : u.kind ∉ [TokenKind.identifier, .comma, .rightParen] := by simp [hcomma, hname, hdamage u (by simp)]
      exact .inr ⟨[k], u :: damage, rfl, stops_separated_of_mismatched (stops_wrong_param hs ha hk hu)⟩
  · exact .inr ⟨[], k :: damage, rfl, stops_separated_of_mismatched (stops_no_param hs (by rwa [nextKind_of_ahead ha]))⟩

/-- In front of a closing parenthesis, parameters that do not run on are read up to it, or there is an error before it. -/
theorem stopsWithin_of_not_runsOn (hc : c.kind = .rightParen) (hdamage : ∀ t ∈ damage, t.kind ≠ .rightParen)
    (h : ¬RunsOn (damage.map Token.kind)) (hs : s.Ready) (ha : s.ahead = damage ++ c :: xs) :
    StopsWithin s damage (params s) := by
  induction hn : damage.length using Nat.strong_induction_on generalizing damage s with
  | _ n ih =>
    refine stopsWithin_of_others hc hdamage h hs ha fun others hlt hsuffix hnot t ht hahead => ?_
    exact ih _ (hn ▸ hlt) (fun t ht => hdamage t (hsuffix.subset ht)) hnot ht hahead rfl

/-! ## The list of parameters -/

theorem Passing.of_stops {P : ν → Prop} {o : Outcome ν} (hs : s.Ready) (h : Stops .matched s ts o) (hP : P o.node)
    (ha : s.ahead = ts ++ x :: xs) (hx : x.kind ≠ .endOfInput) (hok : ∀ t ∈ ts ++ [x], ok t) : Passing ok P s ts o := by
  obtain ⟨es, hr, rfl⟩ := h.run
  exact .of_reaches hs hr h.verdict hP [] ha hx hok

/-- An error is calm if it comes before a token that is not the sentinel, and all tokens up to there may be reported. -/
theorem Stops.calm {o : Outcome ν} (hs : s.Ready) (h : Stops v s ts o) (ha : s.ahead = ts ++ (us ++ x :: xs))
    (hx : x.kind ≠ .endOfInput) (hok : ∀ t ∈ ts ++ (us ++ [x]), ok t) : ∃ es, Reaches s es o ∧ passes es = ts ∧ Calm ok es := by
  obtain ⟨es, hr, rfl⟩ := h.run
  have hahead := h.ahead ha
  rw [List.forall_mem_append] at hok
  exact ⟨es, hr, rfl, hr.run.calm hok.1 (hok.2 _ (lookahead_mem_of_ahead hahead))
    ((hr.run.sealed hs.toSealed).rest_ne_nil_of_ahead hahead hx)⟩

/-- After a calm error, a rule that goes on at a stop token is on track again, and its node is as it was. -/
theorem passing_recover_of_stop [Node ν] {rule : Rule} {policy : ResyncPolicy} {o : Outcome ν} {es : List Event} (hs : s.Sealed)
    (hr : Reaches s es o) (hes : Calm ok es) (hv : o.verdict = .mismatched) (hpolicy : rule.resyncPolicy? = some policy)
    (ha : o.state.ahead = us ++ x :: xs) (hdropped : ∀ t ∈ us, Dropped policy t.kind) (hx : x.kind ∈ policy.stop)
    (hx' : policy.terminator ≠ some x.kind) : Passing ok (fun m => m = o.node) s (passes es ++ us) (recover rule o) := by
  obtain ⟨fs, hr', hv', rfl, hreports, hnode⟩ := resynchronize_of_stop rule o.node (hr.recovering hv) ha hdropped hx hx'
  have hcalm : Calm ok fs := by simp [Calm, hreports]
  have hrun := Reaches.trans hr.run hr'
  have hnormal := hrun.fits
  rw [hv'] at hnormal
  rw [recover_of_mismatched hv hpolicy]
  exact ⟨hv', hnode, ⟨hrun.run.sealed hs, hnormal⟩, _, hrun.run, passes_append es fs, calm_append.2 ⟨hes, hcalm⟩⟩

/-- Parameters that do not run on are read, and other tokens dropped, up to the closing parenthesis. -/
theorem handles_paramList (hc : c.kind = .rightParen) (hdamage : ∀ t ∈ damage, t.kind ∉ paramLimits)
    (h : ¬RunsOn (damage.map Token.kind)) (hok : ∀ t ∈ damage ++ [c], ok t) :
    Handles ok (fun _ => True) damage (c :: xs) (paramList .standard) := by
  intro s hs ha
  have hs' := hs.attempt (.rule .paramList)
  have hend : c.kind ≠ .endOfInput := by rw [hc]; decide
  have hclose : ∀ t ∈ damage, t.kind ≠ .rightParen := fun t ht hk => hdamage t ht (by rw [hk]; decide)
  let list := child params (fun (n : ParamList) params => { n with params }) {} (s.attempt (.rule .paramList))
  have hpassing : Passing ok (fun _ => True) (s.attempt (.rule .paramList)) damage (recover .paramList list) := by
    rcases stopsWithin_of_not_runsOn hc hclose h hs' ha with hall | ⟨us, us', rfl, herror⟩
    · have hlist : Stops .matched _ damage list := hall.child _ _
      rw [recover_of_matched _ hlist.verdict]
      exact .of_stops hs' hlist trivial ha hend hok
    · have hlist : Stops .mismatched _ us list := herror.child _ _
      rw [List.append_assoc] at ha hok
      obtain ⟨es, hr, rfl, hes⟩ := hlist.calm hs' ha hend hok
      have hpolicy : Rule.resyncPolicy? .paramList = some ⟨declarationStarts.insert .rightParen, none⟩ := rfl
      refine (passing_recover_of_stop hs'.toSealed hr hes hlist.verdict hpolicy (hlist.ahead ha) (fun t ht => ⟨?_, nofun⟩)
        (by rw [hc]; decide) nofun).map rfl rfl fun _ => trivial
      have hlimits := hdamage t (List.mem_append_right _ ht)
      revert hlimits
      cases t.kind <;> decide
  exact (Passing.of_attempt hs hpassing).map rfl rfl fun _ => trivial

/-- Parameters that run on are read up to the name of the last one. -/
theorem exists_handles_paramList_of_runsOn (hdamage : ∀ t ∈ damage, t.kind ∉ paramLimits) (h : RunsOn (damage.map Token.kind))
    (hok : ∀ t ∈ damage, ok t) :
    ∃ us u us', damage = us ++ u :: us' ∧
      ∀ rest, Handles ok (fun _ => True) us (u :: (us' ++ rest)) (paramList .standard) := by
  obtain ⟨us, u, us', rfl, hstops⟩ := exists_stops_of_runsOn h rfl
  refine ⟨us, u, us', rfl, fun rest => .phrase (.child (P := fun _ => True) (R := fun _ => True) ?_ fun _ _ => trivial)
    fun _ _ _ => trivial⟩
  intro s hs ha
  have hend : u.kind ≠ .endOfInput := fun hk => hdamage u (by simp) (by rw [hk]; decide)
  refine .of_stops hs (hstops s rest hs (by simpa using ha)) trivial ha hend fun t ht => hok t ?_
  rw [List.append_cons]
  exact List.mem_append_left _ ht

/-! ## The parameters of a function -/

variable {table : Table} {d : Decision} {r : Rule} {y : Token} {ys : List Token}

/-- An option is gone into at a token with which it starts, after the junk before that. -/
theorem HandlesAfterJunk.optional {P : ν → Prop} {step : Step ν} {n : ν} (hd : table.action d y.kind = .descend r)
    (hy : ts ++ rest = y :: ys) (h : Handles ok P ts rest (step n)) :
    HandlesAfterJunk table d ok P ts rest (Parser.optional table d step n) := by
  intro junk hjunk s hs ha
  rw [List.append_assoc, hy] at ha
  obtain ⟨es, t, hchoose, ht, hahead, hr, rfl, hes⟩ := choose_of_junk hs hjunk ha (by simp [hd])
  unfold Parser.optional
  rw [hchoose, hd]
  exact .trans hr hes (h t ht (hahead.trans hy.symm))

/-- An option is passed over at a token at which it is left. -/
theorem HandlesAfterJunk.optional_nil {step : Step ν} {n : ν} (hx : table.action d x.kind = .leave) :
    HandlesAfterJunk table d ok (fun m => m = n) [] (x :: xs) (Parser.optional table d step n) := by
  intro junk hjunk s hs ha
  rw [List.append_nil] at ha ⊢
  obtain ⟨es, t, hchoose, ht, -, hr, rfl, hes⟩ := choose_of_junk hs hjunk ha (by simp [hx])
  unfold Parser.optional
  rw [hchoose, hx]
  exact ⟨rfl, rfl, ht, es, hr, rfl, hes⟩

/-- The step with which a function reads its parameters. -/
abbrev paramsStep : Step FunctionDecl :=
  optional .standard .anyParams (child (paramList .standard) fun n ps => { n with params := some ps })

/-- Tokens in place of parameters are junk up to the first with which parameters can start. -/
theorem exists_junk (hdamage : ∀ t ∈ damage, t.kind ∉ paramLimits) (hok : ∀ t ∈ damage, ok t) :
    ∃ junk others, damage = junk ++ others ∧ Junk .standard .anyParams ok junk ∧
      (Overruns (damage.map Token.kind) ↔ RunsOn (others.map Token.kind)) ∧
      (others = [] ∨ ∃ y ys, others = y :: ys ∧ y.kind ∈ Rule.paramList.first) := by
  let test : Token → Bool := fun t => !Rule.paramList.first.contains t.kind
  refine ⟨damage.takeWhile test, damage.dropWhile test, List.takeWhile_append_dropWhile.symm, fun t ht => ?_, ?_, ?_⟩
  · have hmem : t ∈ damage := (List.takeWhile_prefix test).subset ht
    refine ⟨?_, hok t hmem⟩
    have hlimits := hdamage t hmem
    have htest : test t = true := List.mem_takeWhile_imp ht
    simp only [test] at htest
    revert hlimits htest
    cases t.kind <;> decide
  · rw [Overruns, List.dropWhile_map]
    rfl
  · have hhead := List.head?_dropWhile_not test damage
    cases hothers : damage.dropWhile test with
    | nil => exact .inl rfl
    | cons y ys =>
      rw [hothers] at hhead
      exact .inr ⟨y, ys, rfl, by simpa [test, KindSet.mem_iff] using hhead⟩

/-- Parameters can start with the tokens at which a function goes into its list of parameters. -/
theorem descend_anyParams {k : TokenKind} (h : k ∈ Rule.paramList.first) :
    Table.standard.action .anyParams k = .descend .paramList := by
  revert h
  cases k <;> decide

/-- Tokens in place of parameters that do not overrun are passed up to the closing parenthesis. -/
theorem handles_paramsStep (n : FunctionDecl) (hc : c.kind = .rightParen) (hdamage : ∀ t ∈ damage, t.kind ∉ paramLimits)
    (h : ¬Overruns (damage.map Token.kind)) (hok : ∀ t ∈ damage ++ [c], ok t) :
    Handles ok (fun _ => True) damage (c :: xs) (paramsStep n) := by
  obtain ⟨junk, others, rfl, hjunk, hruns, hothers⟩ := exists_junk hdamage fun t ht => hok t (List.mem_append_left _ ht)
  rw [hruns] at h
  rcases hothers with rfl | ⟨y, ys, rfl, hy⟩
  · exact ((HandlesAfterJunk.optional_nil (by rw [hc]; rfl)).weaken fun _ _ => trivial) junk hjunk
  · refine HandlesAfterJunk.optional (descend_anyParams hy) rfl (.child (R := fun _ => True) ?_ fun _ _ => trivial) junk hjunk
    exact handles_paramList hc (fun t ht => hdamage t (List.mem_append_right _ ht)) h
      fun t ht => hok t (by rw [List.append_assoc]; exact List.mem_append_right _ ht)

/-- Tokens in place of parameters that overrun are passed only up to one of them. -/
theorem exists_handles_paramsStep_of_overruns (hdamage : ∀ t ∈ damage, t.kind ∉ paramLimits)
    (h : Overruns (damage.map Token.kind)) (hok : ∀ t ∈ damage, ok t) :
    ∃ us u us', damage = us ++ u :: us' ∧ ∀ n rest, Handles ok (fun _ => True) us (u :: (us' ++ rest)) (paramsStep n) := by
  obtain ⟨junk, others, rfl, hjunk, hruns, -⟩ := exists_junk hdamage hok
  rw [hruns] at h
  obtain ⟨us, u, us', rfl, hhandles⟩ := exists_handles_paramList_of_runsOn
    (fun t ht => hdamage t (List.mem_append_right _ ht)) h fun t ht => hok t (List.mem_append_right _ ht)
  refine ⟨junk ++ us, u, us', by simp, fun n rest => ?_⟩
  obtain ⟨y, ys, hy⟩ := List.exists_cons_of_ne_nil (show us ++ u :: us' ≠ [] by simp)
  have hfirst : y.kind ∈ Rule.paramList.first := by
    rw [hy] at h
    exact h.first_mem
  have hfollows : us ++ u :: (us' ++ rest) = y :: (ys ++ rest) := by
    calc us ++ u :: (us' ++ rest)
      _ = (us ++ u :: us') ++ rest := by simp
      _ = y :: (ys ++ rest) := by rw [hy, List.cons_append]
  exact HandlesAfterJunk.optional (descend_anyParams hfirst) hfollows
    (.child (R := fun _ => True) (hhandles rest) fun _ _ => trivial) junk hjunk

/-! ## Functions -/

/-- What a step leaves as it is, is as it was in a node that comes of the step. -/
theorem Handles.keeps {α : Type} {part : ν → α} {P : ν → Prop} {step : Step ν} {n : ν} (h : Handles ok P ts rest (step n))
    (hkeeps : Keeps part step) : Handles ok (fun m => part m = part n) ts rest (step n) :=
  fun s hs ha => (h s hs ha).map rfl rfl fun _ => hkeeps n s

theorem Handles.append {steps steps' : List (Step ν)} {P mid : ν → Prop} {n : ν}
    (h : Handles ok mid ts (us ++ rest) (sequence steps n)) (h' : ∀ m, mid m → Handles ok P us rest (sequence steps' m)) :
    Handles ok P (ts ++ us) rest (sequence (steps ++ steps') n) := by
  intro s hs ha
  rw [List.append_assoc] at ha
  have hfirst := h s hs ha
  have hothers := h' _ hfirst.node _ hfirst.ready (hfirst.ahead ha)
  rw [sequence_append_of_matched hfirst.verdict]
  obtain ⟨es, hr, rfl, hes⟩ := hfirst.run
  exact hothers.trans hr hes

/-- The steps of a function up to its parameters. -/
def stepsToParams : List (Step FunctionDecl) := [
  terminal .functionDecls .function (.single .identifier) fun n t => { n with keyword := t },
  terminal .functionDecls .identifier (.single .leftParen) fun n t => { n with name := t },
  terminal .functionDecls .leftParen (.ofList [.numberType, .booleanType, .rightParen]) fun n t => { n with left := t },
  paramsStep]

/-- The steps of a function after its parameters. -/
def stepsAfterParams : List (Step FunctionDecl) := [
  terminal .functionDecls .rightParen (.ofList [.var, .leftBrace]) fun n t => { n with right := t },
  child (localVars .standard) fun n vs => { n with locals := vs },
  child (block .standard) fun n b => { n with body := b }]

theorem functionDecl_eq : functionDecl .standard = phrase .functionDecls {} (sequence (stepsToParams ++ stepsAfterParams)) := rfl

theorem handles_stepsToParams {n : FunctionDecl} (hn : n.Complete)
    (hparams : ∀ m, Handles ok (fun _ => True) ts rest (paramsStep m)) :
    Handles ok (fun m => m.withoutParams = n.upToParams) (n.keyword.toToken :: n.name.toToken :: n.left.toToken :: ts) rest
      (sequence stepsToParams {}) := by
  have hkeeps : Keeps FunctionDecl.withoutParams paramsStep := .optional (.child fun _ _ => rfl)
  change Handles ok _ ([n.keyword.toToken] ++ ([n.name.toToken] ++ ([n.left.toToken] ++ ts))) rest _
  refine .cons (.terminal _ (by decide) _ _ hn.keyword.2) fun k hk => .cons (.terminal _ (by decide) _ _ hn.name.2) fun i hi =>
    .cons (.terminal _ (by decide) _ _ hn.left.2) fun l hl => .last (((hparams l).keeps hkeeps).weaken fun m hm => ?_)
  rw [hm, hl, hi, hk, hn.keyword.ofToken_toToken, hn.name.ofToken_toToken, hn.left.ofToken_toToken]
  rfl

/-- Neither a function nor the main block is in a phrase of a pattern that leads to neither. -/
theorem inner_of_derives {p : Pattern} {w : List TokenKind} (h : Derives p w)
    (hfunction : p.avoids .function [.functionDecls, .functions, .start] = true) (hmain : p.avoids .main [.main, .start] = true) :
    ∀ k ∈ w, Inner k := by
  have hno : .function ∉ w := h.not_mem_of_avoids (fun r => by cases r <;> decide) hfunction
  have hno' : .main ∉ w := h.not_mem_of_avoids (fun r => by cases r <;> decide) hmain
  exact fun k hk => ⟨fun heq => hno (heq ▸ hk), fun heq => hno' (heq ▸ hk)⟩

variable {n : FunctionDecl}

theorem inner_of_tokensAfterParams (hn : n.Complete) : ∀ t ∈ n.tokensAfterParams, Inner t.kind := by
  have hlocals := ((realized_varDecls rfl : Realized (.phrase .localVars) _ _) _).2 ⟨n.locals, hn.locals, rfl⟩
  have hbody := (realized_block _).2 ⟨n.body, hn.body, rfl⟩
  have hinner := inner_of_derives (.append hlocals hbody) rfl rfl
  rw [← List.map_append] at hinner
  exact fun t ht => hinner t.kind (List.mem_map_of_mem ht)

/-- The tokens of a function with others in place of its parameters. -/
theorem replace_paramsExcerpt (hn : n.Complete) (damage : List Token) :
    n.paramsExcerpt.replace damage =
      n.keyword.toToken :: n.name.toToken :: n.left.toToken :: (damage ++ n.right.toToken :: n.tokensAfterParams) := by
  simp [FunctionDecl.paramsExcerpt, Excerpt.replace, FunctionDecl.tokensAfterParams, hn.keyword.token?, hn.name.token?, hn.left.token?,
    hn.right.token?]

theorem startsWith_function_of_params (hn : n.Complete) (damage : List Token) :
    StartsWith .function (n.paramsExcerpt.replace damage) := by
  rw [replace_paramsExcerpt hn]
  exact ⟨_, _, rfl, hn.keyword.2⟩

/-- A function is as it was but for its parameters, if the tokens in place of these do not overrun. -/
theorem handles_damaged_params (hn : n.Complete) (hdamage : ∀ t ∈ damage, t.kind ∉ paramLimits)
    (h : ¬Overruns (damage.map Token.kind)) (hok : ∀ t ∈ damage ++ [n.right.toToken], ok t) :
    Handles ok (fun m => m.bare.withoutParams = n.bare.withoutParams) (n.paramsExcerpt.replace damage) (x :: xs)
      (functionDecl .standard) := by
  obtain ⟨y, ys, hbody, hy⟩ := startsWith_brace hn.body
  have hlocals : Handles ok (fun m => m.bare = n.locals.bare) (takenTokens (n.locals.element .localVars).leaves)
      (takenTokens n.body.element.leaves ++ x :: xs) (localVars .standard) := by
    rw [hbody]
    exact (handles_decls hn.locals rfl (by rw [hy]; rfl)).handles
  have hblock : Handles ok (fun m => m.bare = n.body.bare) (takenTokens n.body.element.leaves) (x :: xs) (block .standard) :=
    .ofRebuilds rebuilds_block hn.body rfl trivial
  have hfirst : Handles ok (fun m => m.withoutParams = n.upToParams)
      (n.keyword.toToken :: n.name.toToken :: n.left.toToken :: damage) (n.right.toToken :: n.tokensAfterParams ++ x :: xs)
      (sequence stepsToParams {}) :=
    handles_stepsToParams hn fun m => handles_paramsStep m hn.right.2 hdamage h hok
  rw [replace_paramsExcerpt hn, ← List.cons_append, ← List.cons_append, ← List.cons_append]
  rw [functionDecl_eq]
  refine .phrase (.append hfirst fun m hm => (handles_afterParams hn.right hlocals hblock).weaken fun q hq => ?_) fun _ _ h => h
  obtain ⟨vs, b, hvs, hb, hq⟩ := hq
  have hbare : (FunctionDecl.bare { m with right := n.right, locals := vs, body := b }).withoutParams =
      { m.withoutParams with right := n.right, locals := vs.bare, body := b.bare, span := .zero } := rfl
  rw [hq, hbare, hm, hvs, hb]
  rfl

theorem node_terminal_of_notMem (rule : Rule) {kind : TokenKind} {follow : KindSet} (put : ν → Terminal → ν) (n : ν)
    (h : s.nextKind ≠ kind) (hfollow : s.nextKind ∉ follow) : (terminal rule kind follow put n s).node = n := by
  simp [terminal, readTerminal, h, hfollow]

/-- A function that misses its closing parenthesis goes on at the next function or at the main block, with its node as it is. -/
theorem passing_recover_afterParams (m : FunctionDecl) (hs : s.Ready) (ha : s.ahead = u :: us ++ x :: xs)
    (hu : u.kind ∉ paramLimits) (hok : ok u) (hinner : ∀ t ∈ u :: us, Inner t.kind) (hx : x.kind ∈ [TokenKind.function, .main]) :
    Passing ok (fun m' => m' = m) s (u :: us) (recover .functionDecls (sequence stepsAfterParams m s)) := by
  have hnext : s.nextKind ≠ .rightParen ∧ s.nextKind ∉ KindSet.ofList [.var, .leftBrace] ∧ u.kind ≠ .endOfInput := by
    rw [nextKind_of_ahead ha]
    revert hu
    cases u.kind <;> decide
  have hpolicy : Rule.resyncPolicy? .functionDecls = some ⟨.ofList [.function, .main], none⟩ := rfl
  have hdropped : ∀ t ∈ u :: us, Dropped ⟨.ofList [.function, .main], none⟩ t.kind := by
    refine fun t ht => ⟨?_, nofun⟩
    have hkind := hinner t ht
    revert hkind
    cases t.kind <;> decide
  have hstop : x.kind ∈ KindSet.ofList [.function, .main] := by
    revert hx
    cases x.kind <;> decide
  have hright : Stops .mismatched s [] (terminal .functionDecls .rightParen (.ofList [.var, .leftBrace])
      (fun n t => { n with right := t }) m s) := stops_terminal_of_notMem _ _ m hs hnext.1 hnext.2.1
  obtain ⟨es, hr, hes, hcalm⟩ := hright.calm hs (show s.ahead = [] ++ ([] ++ u :: _) from ha) hnext.2.2 (by simpa using hok)
  have hnode : (terminal .functionDecls .rightParen (.ofList [.var, .leftBrace])
      (fun n t => { n with right := t }) m s).node = m := node_terminal_of_notMem _ _ m hnext.1 hnext.2.1
  rw [stepsAfterParams, sequence_cons_of_ne_matched _ (by rw [hright.verdict]; decide)]
  have hpassing := passing_recover_of_stop hs.toSealed hr hcalm hright.verdict hpolicy (hright.ahead ha) hdropped hstop nofun
  rw [hes, List.nil_append, hnode] at hpassing
  exact hpassing

/-- A function ends before its closing parenthesis, if the tokens in place of its parameters overrun. -/
theorem handles_overrun_params (hn : n.Complete) (hdamage : ∀ t ∈ damage, t.kind ∉ paramLimits)
    (h : Overruns (damage.map Token.kind)) (hok : ∀ t ∈ damage, ok t) (hx : x.kind ∈ [TokenKind.function, .main]) :
    Handles ok (fun m => m.bare.withoutParams = n.bare.upToParams) (n.paramsExcerpt.replace damage) (x :: xs)
      (functionDecl .standard) := by
  obtain ⟨us, u, us', rfl, hparams⟩ := exists_handles_paramsStep_of_overruns hdamage h hok
  intro s hs ha
  have htokens : n.paramsExcerpt.replace (us ++ u :: us') = n.keyword.toToken :: n.name.toToken :: n.left.toToken :: us ++
      (u :: us' ++ n.right.toToken :: n.tokensAfterParams) := by
    rw [replace_paramsExcerpt hn]
    simp
  have hs' := hs.attempt (.rule .functionDecls)
  have hfirst : Passing ok (fun m => m.withoutParams = n.upToParams) (s.attempt (.rule .functionDecls))
      (n.keyword.toToken :: n.name.toToken :: n.left.toToken :: us) (sequence stepsToParams {} _) :=
    handles_stepsToParams hn (fun m => hparams m (n.right.toToken :: n.tokensAfterParams ++ x :: xs)) _ hs'
      (ha.trans (by rw [htokens]; simp))
  have hrest : (sequence stepsToParams {} (s.attempt (.rule .functionDecls))).state.ahead =
      (u :: us' ++ n.right.toToken :: n.tokensAfterParams) ++ x :: xs :=
    hfirst.ahead (ha.trans (by rw [htokens, List.append_assoc]))
  have hright : n.right.toToken.kind = .rightParen := hn.right.2
  have hinner : ∀ t ∈ u :: us' ++ n.right.toToken :: n.tokensAfterParams, Inner t.kind := by
    refine List.forall_mem_append.2 ⟨fun t ht => ?_, List.forall_mem_cons.2 ⟨by rw [hright]; decide, inner_of_tokensAfterParams hn⟩⟩
    have hlimits := hdamage t (List.mem_append_right _ ht)
    revert hlimits
    cases t.kind <;> decide
  have hothers := passing_recover_afterParams (sequence stepsToParams {} (s.attempt (.rule .functionDecls))).node hfirst.ready
    hrest (hdamage u (by simp)) (hok u (by simp)) hinner hx
  have hpassing : Passing ok (fun m => m.bare.withoutParams = n.bare.upToParams) (s.attempt (.rule .functionDecls))
      (n.paramsExcerpt.replace (us ++ u :: us'))
      (recover .functionDecls (sequence (stepsToParams ++ stepsAfterParams) {} (s.attempt (.rule .functionDecls)))) := by
    obtain ⟨es, hr, hes, hcalm⟩ := hfirst.run
    rw [sequence_append_of_matched hfirst.verdict, htokens, ← hes]
    refine (Passing.trans hr hcalm hothers).map rfl rfl fun hnode => ?_
    rw [hnode]
    exact congrArg FunctionDecl.bare hfirst.node
  exact (Passing.of_attempt hs hpassing).map rfl rfl id

/-- How much is left of a function, its parameters apart, if tokens of some kinds stand in place of them. -/
def LeavesOf (ks : List TokenKind) (g : FunctionDecl → FunctionDecl) : Prop :=
  Overruns ks ∧ g = .upToParams ∨ ¬Overruns ks ∧ g = .withoutParams

theorem handles_params {g : FunctionDecl → FunctionDecl} (hn : n.Complete) (hdamage : ∀ t ∈ damage, t.kind ∉ paramLimits)
    (hg : LeavesOf (damage.map Token.kind) g) (hok : ∀ t ∈ damage ++ [n.right.toToken], ok t)
    (hx : x.kind ∈ [TokenKind.function, .main]) :
    Handles ok (fun m => m.bare.withoutParams = g n.bare) (n.paramsExcerpt.replace damage) (x :: xs) (functionDecl .standard) := by
  rcases hg with ⟨h, rfl⟩ | ⟨h, rfl⟩
  · exact handles_overrun_params hn hdamage h (fun t ht => hok t (List.mem_append_left _ ht)) hx
  · exact handles_damaged_params hn hdamage h hok

/-! ## Programs -/

variable {i : Nat} {e : Excerpt} {g : FunctionDecl → FunctionDecl}

/-- Functions with other tokens in place of the parameters of one of them. -/
theorem handles_functions_params {n : Functions} (hn : n.Complete)
    (he : Excerpt.inList (fun f => f.element.leaves) (fun f => some f.paramsExcerpt) n.decls i = some e)
    (hdamage : ∀ t ∈ damage, t.kind ∉ paramLimits) (hg : LeavesOf (damage.map Token.kind) g)
    (hok : ∀ t ∈ damage ++ takenTokens e.closing, ok t) (hx : x.kind = .main) :
    Handles ok (fun m => m.bare.decls.modify i .withoutParams = n.bare.decls.modify i g) (e.replace damage) (x :: xs)
      (functions .standard) := by
  obtain ⟨a, e', ha, he', rfl⟩ := Excerpt.inList_eq_some_iff.1 he
  obtain rfl := Option.some.inj he'
  have hcomplete : a.Complete := hn a (List.mem_of_getElem? ha)
  have hbefore : ∀ f ∈ n.decls.take i, f.Complete := fun f hf => hn f (List.mem_of_mem_take hf)
  have hafter : ∀ f ∈ n.decls.drop (i + 1), f.Complete := fun f hf => hn f (List.mem_of_mem_drop hf)
  have hclosing : takenTokens [a.right] = [a.right.toToken] := by simp [hcomplete.right.token?]
  obtain ⟨y, ys, hy, hkind⟩ := exists_first_of_many (fun _ => startsWith_function) hafter x xs
  have hnext : y.kind ∈ [TokenKind.function, .main] := by
    rw [hx] at hkind
    simpa using hkind
  have hdamaged : HandlesLeaving .standard .moreFunctions ok (fun m => m.bare.withoutParams = g a.bare)
      (a.paramsExcerpt.replace damage) (y :: ys) (functionDecl .standard) :=
    (handles_params hcomplete hdamage hg (by rwa [← hclosing]) hnext).leaving
  rw [← hy] at hdamaged
  have hmany := HandlesAfterJunk.many_damaged rebuilds_functionDecl (fun _ => startsWith_function) rfl
    (accounts_functionDecl Table.standard_orderly).2 (by rw [hx]; rfl) hbefore hafter
    (startsWith_function_of_params hcomplete damage) hdamaged
  rw [Excerpt.replace_within]
  refine .phrase (.child hmany.handles fun decls hdecls => ?_) fun _ _ h => h
  obtain ⟨f, hf, hdecls⟩ := hdecls
  have hreplaced : (n.decls.map FunctionDecl.bare)[i]? = some a.bare := by rw [List.getElem?_map, ha]; rfl
  change (decls.map FunctionDecl.bare).modify i .withoutParams = (n.decls.map FunctionDecl.bare).modify i g
  rw [hdecls, List.map_append, List.map_cons, List.map_take, List.map_drop]
  exact modify_of_replaced hreplaced hf

/-- Parsing the tokens of a program with others in place of the parameters of a function. -/
theorem parse_damaged_params {ts : TokenList} {n : Program} (hn : n.Complete) (he : n.paramsExcerpt? i = some e)
    (hdamage : ∀ t ∈ damage, t.kind ∉ paramLimits) (hg : LeavesOf (damage.map Token.kind) g)
    (hts : ts.toList = e.replace damage) :
    (∀ d ∈ (parse ts).diagnostics, d.isFatal = false ∧
        ∃ t, t ∈ takenTokens e.opening ++ (damage ++ takenTokens e.closing) ∧ d.AnchoredAt t) ∧
      (parse ts).tree.bare.modifyFunction i .withoutParams = n.bare.modifyFunction i g := by
  obtain ⟨e', he', rfl⟩ := Option.map_eq_some_iff.1 he
  obtain ⟨x, xs, hmain, hx⟩ := startsWith_main_of_complete hn
  have hfunctions : Handles (fun t => t ∈ takenTokens e'.opening ++ (damage ++ takenTokens e'.closing))
      (fun m => m.bare.decls.modify i .withoutParams = n.functions.bare.decls.modify i g) (e'.replace damage)
      (takenTokens n.main.element.leaves ++ [n.eof.toToken]) (functions .standard) := by
    rw [hmain]
    exact handles_functions_params hn.functions he' hdamage hg (fun t ht => List.mem_append_right _ ht) hx
  have hnext : ∃ y ys, e'.replace damage ++ (takenTokens n.main.element.leaves ++ [n.eof.toToken]) = y :: ys ∧
      y.kind ∈ [TokenKind.function, .main] := by
    obtain ⟨y, ys, hy, hkind⟩ := startsWith_function_of_inList hn.functions (fun f _ hf he => by
      rw [← Option.some.inj he]
      exact startsWith_function_of_params hf damage) he'
    exact ⟨y, _, by rw [hy]; rfl, by simp [hkind]⟩
  have htokens : ts.toList = (takenTokens n.heading ++ (takenTokens (n.globals.element .globalVars).leaves ++
      (e'.replace damage ++ takenTokens n.main.element.leaves))) ++ [n.eof.toToken] := by
    rw [hts, Excerpt.replace_within]
    simp [hn.eof.token?]
  let P : Program → Prop := fun m => m.modifyFunction i .withoutParams = n.bare.modifyFunction i g
  refine parse_of_handled (P := P) hn.eof htokens (handles_of_parts (P := P) hn (handles_globals hn hnext) hfunctions
    (handles_main hn _) fun vs fs b hvs hfs hb => ?_)
  change Program.modifyFunction i .withoutParams _ = _
  rw [Program.modifyFunction, hvs, hfs, hb]
  rfl

/-- The tree has a function for each of the program, which is as much as is left of it. -/
theorem exists_function_of_modified {m n : Program} {a : FunctionDecl}
    (h : m.bare.modifyFunction i .withoutParams = n.bare.modifyFunction i g) (ha : n.functions.decls[i]? = some a) :
    ∃ f, m.functions.decls[i]? = some f ∧ f.bare.withoutParams = g a.bare := by
  have hat := congrArg (fun m : Program => m.functions.decls[i]?) h
  simpa [Program.modifyFunction, Program.bare, Functions.bare, List.getElem?_modify, ha] using hat

theorem exists_leavesOf (ks : List TokenKind) : ∃ g, LeavesOf ks g := by
  by_cases h : Overruns ks
  · exact ⟨_, .inl ⟨h, rfl⟩⟩
  · exact ⟨_, .inr ⟨h, rfl⟩⟩

theorem LeavesOf.unplaced {ks : List TokenKind} (hg : LeavesOf ks g) (f : FunctionDecl) :
    (g f).mapTerminals Terminal.unplaced = g (f.mapTerminals Terminal.unplaced) := by
  rcases hg with ⟨-, rfl⟩ | ⟨-, rfl⟩
  · exact f.upToParams_unplaced
  · exact f.withoutParams_unplaced

/-- A function keeps its closing parenthesis if the tokens in place of its parameters do not overrun, and only then. -/
theorem LeavesOf.right_iff {ks : List TokenKind} {f a : FunctionDecl} (hg : LeavesOf ks g) (ha : a.right.Holds .rightParen)
    (hf : f.bare.withoutParams = g a.bare) : takenTokens [f.right] = takenTokens [a.right] ↔ ¬Overruns ks := by
  have hright : f.right = (g a.bare).right := by
    rw [← hf]
    rfl
  rcases hg with ⟨h, rfl⟩ | ⟨h, rfl⟩
  · have hmissing : takenTokens [f.right] = [] := by
      rw [hright]
      rfl
    rw [hmissing]
    simp [h, ha.token?]
  · rw [hright]
    exact iff_of_true rfl h

end Parser

open QuillFrontEnd.Parser

/-- What damage to the parameters of a function costs. Let tokens of kinds that may stand there take the place of the parameters of
a function of a program, and let the tokens around them be moved. Then a parse does not give up, and reports nothing but at the
tokens from the opening parenthesis to the closing one. If the tokens do not overrun, then the function takes the closing
parenthesis, and but for the parameters the tree is as before. If they do, then the function ends before that parenthesis, and what
is lost is the parenthesis, the declarations and the block of that function. -/
theorem param_damage_contained {ts ts' : TokenList} {i : Nat} {e : Excerpt} (edit : e.Edit) (hprogram : IsProgram ts.kinds)
    (he : (parse ts).tree.paramsExcerpt? i = some e) (hinside : ∀ t ∈ edit.inside, t.kind ∉ paramLimits)
    (hts' : ts'.toList = edit.tokens) :
    ts.toList = takenTokens e.terminals ∧ (parse ts').isFatal = false ∧
      (∀ d ∈ (parse ts').diagnostics, ∃ t ∈ edit.opening ++ (edit.inside ++ edit.closing), d.AnchoredAt t) ∧
      (∃ f, (parse ts').tree.functions.decls[i]? = some f ∧
        (takenTokens [f.right] = edit.closing ↔ ¬Overruns (edit.inside.map Token.kind))) ∧
      (¬Overruns (edit.inside.map Token.kind) →
        (parse ts').tree.unplaced.modifyFunction i .withoutParams = (parse ts).tree.unplaced.modifyFunction i .withoutParams) ∧
      (Overruns (edit.inside.map Token.kind) →
        (parse ts').tree.unplaced.modifyFunction i .withoutParams = (parse ts).tree.unplaced.modifyFunction i .upToParams) := by
  obtain ⟨hcomplete, htokens⟩ := complete_tree_of_isProgram hprogram
  obtain ⟨n, e', hn, hsame, he', hreplace, hopening, hclosing, -⟩ := edit.exists_moved_of_cut Program.terminals_of_paramsExcerpt?
    (Program.paramsExcerpt?_mapTerminals Terminal.unplaced i) hcomplete he
  obtain ⟨a, ha, hright⟩ : ∃ a, n.functions.decls[i]? = some a ∧ e'.closing = [a.right] := by
    obtain ⟨e'', he'', rfl⟩ := Option.map_eq_some_iff.1 he'
    obtain ⟨a, _, ha, hpart, rfl⟩ := Excerpt.inList_eq_some_iff.1 he''
    obtain rfl := Option.some.inj hpart
    exact ⟨a, ha, rfl⟩
  have hparse := fun g (hg : LeavesOf _ g) => parse_damaged_params hn he' hinside hg (hts'.trans hreplace.symm)
  have hunplaced : ∀ g, LeavesOf (edit.inside.map Token.kind) g →
      (parse ts').tree.unplaced.modifyFunction i .withoutParams = (parse ts).tree.unplaced.modifyFunction i g := by
    intro g hg
    have h := congrArg Program.unplaced (hparse g hg).2
    rw [Program.modifyFunction_unplaced FunctionDecl.withoutParams_unplaced, Program.modifyFunction_unplaced hg.unplaced,
      Program.unplaced_bare, Program.unplaced_bare, hsame] at h
    exact h
  obtain ⟨g, hg⟩ := exists_leavesOf (edit.inside.map Token.kind)
  obtain ⟨hdiag, htree⟩ := hparse g hg
  obtain ⟨f, hf, hfa⟩ := exists_function_of_modified htree ha
  rw [hopening, hclosing] at hdiag
  refine ⟨?_, ?_, fun d hd => (hdiag d hd).2, ⟨f, hf, ?_⟩, fun h => hunplaced _ (.inr ⟨h, rfl⟩),
    fun h => hunplaced _ (.inl ⟨h, rfl⟩)⟩
  · rw [Program.terminals_of_paramsExcerpt? _ e he, htokens]
  · rw [ParseOutput.isFatal, List.any_eq_false]
    exact fun d hd => by simp [(hdiag d hd).1]
  · rw [← hclosing, hright]
    exact hg.right_iff (hn.functions a (List.mem_of_getElem? ha)).right hfa

/-- In `program x: function x() { ; } main {}`, let `; number, x` stand between the parentheses of the function. -/
theorem param_damage_contained_at_comma :
    let ts := TokenList.ofKinds [.program, .identifier, .colon, .function, .identifier, .leftParen, .rightParen, .leftBrace,
      .semicolon, .rightBrace, .main, .leftBrace, .rightBrace]
    let ts' := TokenList.ofKinds [.program, .identifier, .colon, .function, .identifier, .leftParen, .semicolon, .numberType,
      .comma, .identifier, .rightParen, .leftBrace, .semicolon, .rightBrace, .main, .leftBrace, .rightBrace]
    IsProgram ts.kinds ∧ ¬Overruns [.semicolon, .numberType, .comma, .identifier] ∧ (parse ts').isFatal = false ∧
      (parse ts').tree.unplaced.modifyFunction 0 .withoutParams = (parse ts).tree.unplaced.modifyFunction 0 .withoutParams := by
  intro ts ts'
  have hprogram : IsProgram ts.kinds := isProgram_of_quiet (by decide +kernel)
  have hfits : ¬Overruns [.semicolon, .numberType, .comma, .identifier] := by
    rw [Overruns, show List.dropWhile _ _ = [TokenKind.numberType, .comma, .identifier] by decide]
    rintro (_ | _ | ⟨-, h⟩)
    cases h
  let e := ((parse ts).tree.paramsExcerpt? 0).getD { inside := [] }
  have he : (parse ts).tree.paramsExcerpt? 0 = some e := by decide +kernel
  let edit : e.Edit := {
    before := ts'.toList.take 5
    opening := (ts'.toList.drop 5).take 1
    inside := (ts'.toList.drop 6).take 4
    closing := (ts'.toList.drop 10).take 1
    after := ts'.toList.drop 11
    before_same := by decide +kernel
    opening_same := by decide +kernel
    closing_same := by decide +kernel
    after_same := by decide +kernel }
  have hinside : ∀ t ∈ edit.inside, t.kind ∉ paramLimits := by decide +kernel
  have htokens : ts'.toList = edit.tokens := by decide +kernel
  obtain ⟨-, hfatal, -, -, hkept, -⟩ := param_damage_contained edit hprogram he hinside htokens
  exact ⟨hprogram, hfits, hfatal, hkept hfits⟩

/-- In the same program let `number x x` stand between the parentheses: the function loses its closing parenthesis and its block. -/
theorem param_damage_escapes :
    let ts := TokenList.ofKinds [.program, .identifier, .colon, .function, .identifier, .leftParen, .rightParen, .leftBrace,
      .semicolon, .rightBrace, .main, .leftBrace, .rightBrace]
    let ts' := TokenList.ofKinds [.program, .identifier, .colon, .function, .identifier, .leftParen, .numberType, .identifier,
      .identifier, .rightParen, .leftBrace, .semicolon, .rightBrace, .main, .leftBrace, .rightBrace]
    let rightAndStatements := fun o : ParseOutput =>
      o.tree.functions.decls.map fun f => (takenTokens [f.right], f.body.statements.length)
    IsProgram ts.kinds ∧ ts'.kinds = ts.kinds.take 6 ++ ([.numberType, .identifier, .identifier] ++ ts.kinds.drop 6) ∧
      (∀ k ∈ [TokenKind.numberType, .identifier, .identifier], k ∉ paramLimits) ∧
      rightAndStatements (parse ts) = [((ts.toList.drop 6).take 1, 1)] ∧ rightAndStatements (parse ts') = [([], 0)] := by
  intro ts ts' rightAndStatements
  exact ⟨isProgram_of_quiet (by decide +kernel), by decide +kernel, by decide, by decide +kernel, by decide +kernel⟩

end QuillFrontEnd
