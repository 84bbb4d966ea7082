import QuillFrontEnd.Proofs.DamagedPhrases
import QuillFrontEnd.Proofs.TokenOrder

/-!
# Keywords that are not lost

Functions and the main block start with keywords of their own, and wherever the parser drops tokens it stops at these keywords,
until it has read the main block. So up to there every such keyword is taken: that of a function opens a function, and that of the
main block opens the main block. What comes after the main block is reported as such and dropped, with the keywords in it.
-/

namespace QuillFrontEnd

namespace Parser

variable {ν μ α : Type} {s : State} {table : Table} {d : Decision}

/-! ## Parts of a node that a step leaves as they are -/

/-- A step that leaves a part of the node as it is. -/
def Keeps (part : ν → α) (step : Step ν) : Prop := ∀ n s, part (step n s).node = part n

variable {part : ν → α}

theorem Keeps.nil : Keeps part (sequence []) := fun _ _ => rfl

/-- What the first of some steps has made of a part stays if the others leave it as it is. -/
theorem Keeps.after {step : Step ν} {steps : List (Step ν)} (h : Keeps part (sequence steps)) (n : ν) (s : State) :
    part (sequence (step :: steps) n s).node = part (step n s).node := by
  by_cases hv : (step n s).verdict = .matched
  · rw [sequence_cons_of_matched steps hv, h]
  · rw [sequence_cons_of_ne_matched steps hv]

theorem Keeps.cons {step : Step ν} {steps : List (Step ν)} (h : Keeps part step) (h' : Keeps part (sequence steps)) :
    Keeps part (sequence (step :: steps)) := fun n s => (h'.after n s).trans (h n s)

theorem Keeps.terminal {rule : Rule} {kind : TokenKind} {follow : KindSet} {put : ν → Terminal → ν}
    (hput : ∀ n t, part (put n t) = part n) : Keeps part (terminal rule kind follow put) := by
  intro n s
  unfold Parser.terminal
  split
  · exact hput n _
  · rfl

theorem Keeps.child {reader : Reader μ} {put : ν → μ → ν} (hput : ∀ n x, part (put n x) = part n) :
    Keeps part (child reader put) := fun n _ => hput n _

theorem Keeps.optional {step : Step ν} (h : Keeps part step) : Keeps part (optional table d step) := by
  intro n s
  unfold Parser.optional
  split
  · exact h n _
  · rfl
  · rfl

theorem part_recover [Node ν] {rule : Rule} (hclose : ∀ t n, part (Node.close t n) = part n) (o : Outcome ν) :
    part (recover rule o).node = part o.node := by
  unfold recover
  split
  · unfold resynchronize
    dsimp only
    split
    · exact hclose _ _
    · split <;> rfl
  · rfl

/-- What is needed of the terminal with which a phrase starts: the other steps leave it as it is, and so does the rule. -/
structure Opens [Node ν] (opening : ν → Terminal) (blank : ν) (put : ν → Terminal → ν) (steps : List (Step ν)) : Prop where
  put : ∀ t, opening (put blank t) = t
  keeps : Keeps opening (sequence steps)
  span : ∀ span n, opening (Node.withSpan span n) = opening n
  close : ∀ t n, opening (Node.close t n) = opening n

/-- A phrase whose first terminal is next starts with that terminal, whatever comes after it. -/
theorem Opens.eq_ofToken [Node ν] {opening : ν → Terminal} {rule rule' : Rule} {blank : ν} {kind : TokenKind} {follow : KindSet}
    {put : ν → Terminal → ν} {steps : List (Step ν)} (h : Opens opening blank put steps) (hnext : s.nextKind = kind) :
    opening (phrase rule blank (sequence (terminal rule' kind follow put :: steps)) s).node = .ofToken s.lookahead := by
  obtain ⟨span, hphrase⟩ : ∃ span, phrase rule blank (sequence (terminal rule' kind follow put :: steps)) s =
      ⟨Node.withSpan span _, _, _⟩ := phrase_of_nextKind hnext
  rw [hphrase, h.span, part_recover h.close, h.keeps, h.put]

end Parser

/-- A terminal that was taken for a token is the terminal of that token. -/
theorem Terminal.eq_ofToken_of_token? {t : Terminal} {x : Token} (h : t.token? = some x) : t = .ofToken x := by
  obtain ⟨token, missing⟩ := t
  cases missing with
  | false => rw [← Option.some.inj h]; rfl
  | true => cases h

namespace Parser

/-! ## Readers that spare the keywords -/

variable {ν : Type} {s : State}

/-- The tokens of a kind in a list. -/
def tokensOf (kind : TokenKind) (ts : List Token) : List Token := ts.filter fun t => t.kind == kind

@[simp] theorem tokensOf_append (kind : TokenKind) (ts us : List Token) :
    tokensOf kind (ts ++ us) = tokensOf kind ts ++ tokensOf kind us := List.filter_append ..

theorem tokensOf_eq_nil {kind : TokenKind} {ts : List Token} (h : ∀ t ∈ ts, t.kind ≠ kind) : tokensOf kind ts = [] := by
  rw [tokensOf, List.filter_eq_nil_iff]
  simpa using h

/-- The tokens that are dropped are among those that are moved over. -/
theorem mem_passes_of_mem_drops {es : List Event} {t : Token} (h : t ∈ drops es) : t ∈ passes es :=
  (merge_passes es).mem_of_mem_right h

/-- Events that spare the keywords: none is dropped, and of those that are passed, `functions` are the ones that start functions and
`mains` the ones that start the main block. -/
structure Spares (es : List Event) (functions mains : List Token) : Prop where
  drops : ∀ t ∈ drops es, Inner t.kind
  functions : tokensOf .function (passes es) = functions
  mains : tokensOf .main (passes es) = mains

variable {es fs : List Event} {ks ls ms ns : List Token}

theorem Spares.of_inner (h : ∀ t ∈ passes es, Inner t.kind) : Spares es [] [] where
  drops t ht := h t (mem_passes_of_mem_drops ht)
  functions := tokensOf_eq_nil fun t ht => (h t ht).1
  mains := tokensOf_eq_nil fun t ht => (h t ht).2

theorem Spares.append (h : Spares es ks ms) (h' : Spares fs ls ns) : Spares (es ++ fs) (ks ++ ls) (ms ++ ns) where
  drops := by
    rw [drops_append]
    exact List.forall_mem_append.2 ⟨h.drops, h'.drops⟩
  functions := by rw [passes_append, tokensOf_append, h.functions, h'.functions]
  mains := by rw [passes_append, tokensOf_append, h.mains, h'.mains]

/-- A keyword that is next is taken. -/
theorem Spares.of_quiet {x : Token} (h : Quiet es) (hpasses : passes es = [x]) :
    Spares es (tokensOf .function [x]) (tokensOf .main [x]) where
  drops := by simp [drops_eq_nil_of_quiet h]
  functions := by rw [hpasses]
  mains := by rw [hpasses]

/-! ## Functions and the main block -/

/-- A function starts with the keyword in front of which it is read. -/
theorem keyword_functionDecl (hnext : s.nextKind = .function) : (functionDecl .standard s).node.keyword = .ofToken s.lookahead := by
  unfold functionDecl
  refine Opens.eq_ofToken ⟨fun _ => rfl, ?_, fun _ _ => rfl, fun _ _ => rfl⟩ hnext
  exact .cons (.terminal fun _ _ => rfl) <| .cons (.terminal fun _ _ => rfl) <| .cons (.optional (.child fun _ _ => rfl)) <|
    .cons (.terminal fun _ _ => rfl) <| .cons (.child fun _ _ => rfl) <| .cons (.child fun _ _ => rfl) .nil

theorem keyword_mainBlock (hnext : s.nextKind = .main) : (mainBlock .standard s).node.keyword = .ofToken s.lookahead := by
  unfold mainBlock
  exact Opens.eq_ofToken ⟨fun _ => rfl, .cons (.child fun _ _ => rfl) .nil, fun _ _ => rfl, fun _ _ => rfl⟩ hnext

/-- A phrase whose first terminal is next takes it, and then passes only what its other steps pass. -/
theorem spares_phrase [Node ν] {rule rule' : Rule} {blank : ν} {kind : TokenKind} {follow : KindSet}
    {put : ν → Terminal → ν} {steps : List (Step ν)} (hs : s.Ready) (hend : kind ≠ .endOfInput) (hnext : s.nextKind = kind)
    (hsteps : ∀ n, StaysIn Inner (sequence steps n))
    (hpolicy : ∀ policy, rule.resyncPolicy? = some policy → ∀ k, k ∉ policy.stop → Inner k) :
    ∃ es, Reaches s es (phrase rule blank (sequence (terminal rule' kind follow put :: steps)) s) ∧
      Spares es (tokensOf .function [s.lookahead]) (tokensOf .main [s.lookahead]) := by
  obtain ⟨es, hr, hq, hpasses, hready⟩ := run_entered rule hs hend hnext
  obtain ⟨fs, hr', hinner⟩ := StaysIn.recover (hsteps (put blank (.ofToken s.lookahead))) hpolicy _ hready
  obtain ⟨span, hphrase⟩ : ∃ span, phrase rule blank (sequence (terminal rule' kind follow put :: steps)) s =
      ⟨Node.withSpan span _, _, _⟩ := phrase_of_nextKind hnext
  rw [hphrase]
  have hspares := (Spares.of_quiet hq hpasses).append (.of_inner hinner)
  rw [List.append_nil, List.append_nil] at hspares
  exact ⟨es ++ fs, ⟨hr.trans hr'.run, hr'.fits⟩, hspares⟩

theorem spares_functionDecl (hs : s.Ready) (hnext : s.nextKind = .function) :
    ∃ es, Reaches s es (functionDecl .standard s) ∧ Spares es [s.lookahead] [] := by
  have hspares : ∃ es, Reaches s es (functionDecl .standard s) ∧
      Spares es (tokensOf .function [s.lookahead]) (tokensOf .main [s.lookahead]) := by
    refine spares_phrase hs (by decide) hnext (fun n => ?_) ?_
    · refine .cons (.terminal _ (by decide) (by decide) _ _ _) fun _ =>
        .cons (.terminal _ (by decide) (by decide) _ _ _) fun _ => .cons (.optional (staysIn_paramList.child _ _) fun k hk => ?_)
        fun _ => .cons (.terminal _ (by decide) (by decide) _ _ _) fun _ => .cons (staysIn_localVars.child _ _) fun _ =>
        .cons (staysIn_block.child _ _) fun _ => .nil
      cases k <;> first | decide | exact absurd hk (by decide)
    · rintro policy ⟨⟩ k hk
      exact inner_of_notMem (by decide) (by decide) hk
  have hkind : s.lookahead.kind = .function := hnext
  simpa [tokensOf, hkind] using hspares

/-- Functions are read up to the first token that is no function, and each starts with its keyword. -/
theorem spares_functions (hs : s.Ready) :
    ∃ es ks, Reaches s es (functions .standard s) ∧ Spares es ks [] ∧
      (functions .standard s).node.decls.map FunctionDecl.keyword = ks.map .ofToken := by
  have hmany (s : State) (hs : s.Ready) : ∃ es ks, Reaches s es (many .standard .moreFunctions (functionDecl .standard) s) ∧
      Spares es ks [] ∧ (many .standard .moreFunctions (functionDecl .standard) s).node.map FunctionDecl.keyword =
        ks.map .ofToken := by
    induction hn : s.remaining using Nat.strong_induction_on generalizing s with
    | _ n ih =>
      obtain ⟨es, hr, -, hnone, hsome⟩ := run_choose .standard .moreFunctions hs
      have hinner : ∀ t ∈ passes es, Inner t.kind := by
        intro t ht
        have hrefused := refuses_of_run_choose hs hr t ht
        revert hrefused
        cases t.kind <;> decide
      rw [many]
      have hle := hr.remaining_le
      generalize choose .standard .moreFunctions s = c at hr hnone hsome hle
      obtain ⟨_ | a, t⟩ := c
      · exact ⟨es, [], ⟨hr, (hnone rfl).1⟩, .of_inner hinner, rfl⟩
      obtain ⟨ht, hact, -, -⟩ := hsome a rfl
      cases a with
      | take | leave | reject => exact ⟨es, [], ⟨hr, ht.normal⟩, .of_inner hinner, rfl⟩
      | descend r =>
        have hnext : t.nextKind = .function := Table.standard_orderly.moreFunctions _ r hact
        obtain ⟨fs, hr', hspares⟩ := spares_functionDecl ht hnext
        have hlt : (functionDecl .standard t).state.remaining < s.remaining :=
          Nat.lt_of_lt_of_le ((accounts_functionDecl Table.standard_orderly).2 t ht hnext) hle
        dsimp only
        split
        · rename_i hv
          rw [if_pos hlt]
          obtain ⟨gs, ks, hr'', hspares', hkeywords⟩ := ih _ (hn ▸ hlt) _ (hr'.ready ht hv) rfl
          refine ⟨es ++ (fs ++ gs), t.lookahead :: ks, ⟨hr.trans (hr'.run.trans hr''.run), hr''.fits⟩,
            (Spares.of_inner hinner).append (hspares.append hspares'), ?_⟩
          rw [List.map_cons, List.map_cons, hkeywords, keyword_functionDecl hnext]
        · refine ⟨es ++ fs, [t.lookahead], ⟨hr.trans hr'.run, hr'.fits⟩, (Spares.of_inner hinner).append hspares, ?_⟩
          rw [List.map_singleton, List.map_singleton, keyword_functionDecl hnext]
  obtain ⟨es, ks, hr, hspares, hkeywords⟩ := hmany _ (hs.attempt (.rule .functions))
  unfold functions phrase
  rw [recover_of_no_policy rfl]
  exact ⟨_, ks, .trans (.ofMove (.attempt (.rule .functions) hs.normal)) ⟨hr.run, hr.fits⟩,
    .append (.of_inner (by simp)) hspares, hkeywords⟩

/-- Where the keyword of the main block is not next, it is not taken and no other is passed. -/
theorem mainBlock_of_ne (hs : s.Ready) (hnext : s.nextKind ≠ .main) :
    Stays Inner s (mainBlock .standard s) ∧ (mainBlock .standard s).node.keyword.token? = none := by
  have hs' := hs.attempt (.rule .main)
  have hsteps (n : MainBlock) : StaysIn Inner (sequence [child (block .standard) fun n b => { n with block := b }] n) :=
    .cons (staysIn_block.child _ _) fun _ => .nil
  obtain ⟨es, hr, hinner⟩ := Stays.cons hs' (stays_terminal_of_ne .main (show TokenKind.main ≠ _ by decide) Rule.block.first
    (fun (n : MainBlock) t => { n with keyword := t }) {} hs' hnext) hsteps
  have hkeeps : Keeps MainBlock.keyword (sequence [child (block .standard) fun n b => { n with block := b }]) :=
    .cons (.child fun _ _ => rfl) .nil
  unfold mainBlock phrase
  rw [recover_of_no_policy rfl]
  refine ⟨⟨_, .trans (.ofMove (.attempt (.rule .main) hs.normal)) ⟨hr.run, hr.fits⟩, by simpa using hinner⟩, ?_⟩
  change (MainBlock.keyword (sequence _ _ _).node).token? = none
  rw [hkeeps.after]
  obtain ⟨-, -, ⟨hkind, -⟩ | ⟨-, -, x, hnode, -⟩ | ⟨-, -, -, -, hnode, -⟩⟩ := terminal_reaches .main
    (show TokenKind.main ≠ .endOfInput by decide) Rule.block.first (fun (n : MainBlock) t => { n with keyword := t }) {} hs'
  · exact absurd hkind hnext
  · rw [hnode]
    rfl
  · rw [hnode]
    rfl

theorem spares_mainBlock (hs : s.Ready) :
    ∃ es, Reaches s es (mainBlock .standard s) ∧ Spares es [] (mainBlock .standard s).node.keyword.token?.toList := by
  by_cases hnext : s.nextKind = .main
  · have hspares : ∃ es, Reaches s es (mainBlock .standard s) ∧
        Spares es (tokensOf .function [s.lookahead]) (tokensOf .main [s.lookahead]) :=
      spares_phrase hs (by decide) hnext (fun n => .cons (staysIn_block.child _ _) fun _ => .nil) nofun
    have hkind : s.lookahead.kind = .main := hnext
    rw [keyword_mainBlock hnext]
    simpa [tokensOf, hkind] using hspares
  · obtain ⟨⟨es, hr, hinner⟩, hnone⟩ := mainBlock_of_ne hs hnext
    rw [hnone]
    exact ⟨es, hr, .of_inner hinner⟩

/-! ## Programs -/

/-- The keywords of a program are those among some tokens: each function starts with one, in order, and the main block with the one
that there is, if there is one. -/
structure Marks (n : Program) (ts : List Token) : Prop where
  functions : n.functions.decls.map FunctionDecl.keyword = (tokensOf .function ts).map .ofToken
  main : n.main.keyword.token?.toList = tokensOf .main ts

theorem Marks.append {n m : Program} {ts : List Token} (h : Marks n ts) (hes : Spares es ks ms)
    (hfunctions : m.functions.decls.map FunctionDecl.keyword = n.functions.decls.map FunctionDecl.keyword ++ ks.map .ofToken)
    (hmain : m.main.keyword.token?.toList = n.main.keyword.token?.toList ++ ms) : Marks m (ts ++ passes es) where
  functions := by rw [hfunctions, h.functions, tokensOf_append, hes.functions, List.map_append]
  main := by rw [hmain, h.main, tokensOf_append, hes.mains]

/-- A step of a program that drops no keyword and puts those that it takes in their places. It is made on nodes and in states that
pass `pre`, and leaves those that pass `post` if it succeeds. -/
def SparesPart (pre post : Program → State → Prop) (step : Step Program) : Prop :=
  ∀ (n : Program) (s : State) (ts : List Token), pre n s → Marks n ts → s.Ready →
    ∃ es, Reaches s es (step n s) ∧ (∀ t ∈ drops es, Inner t.kind) ∧ Marks (step n s).node (ts ++ passes es) ∧
      ((step n s).verdict = .matched → post (step n s).node (step n s).state)

variable {pre mid post : Program → State → Prop}

theorem SparesPart.cons {step : Step Program} {steps : List (Step Program)} (h : SparesPart pre mid step)
    (h' : SparesPart mid post (sequence steps)) : SparesPart pre post (sequence (step :: steps)) := by
  intro n s ts hn hmarks hs
  obtain ⟨es, hr, hdrops, hmarks', hmid⟩ := h n s ts hn hmarks hs
  by_cases hv : (step n s).verdict = .matched
  · obtain ⟨fs, hr', hdrops', hmarks'', hpost⟩ := h' _ _ _ (hmid hv) hmarks' (hr.ready hs hv)
    rw [sequence_cons_of_matched steps hv]
    refine ⟨es ++ fs, .trans hr.run hr', ?_, ?_, hpost⟩
    · rw [drops_append]
      exact List.forall_mem_append.2 ⟨hdrops, hdrops'⟩
    · rwa [passes_append, ← List.append_assoc]
  · rw [sequence_cons_of_ne_matched steps hv]
    exact ⟨es, hr, hdrops, hmarks', fun h => absurd h hv⟩

theorem SparesPart.last {step : Step Program} (h : SparesPart pre post step) : SparesPart pre post (sequence [step]) := by
  intro n
  rw [sequence_singleton]
  exact h n

/-- A step that passes no keyword and leaves the functions and the main block as they are. -/
theorem SparesPart.of_staysIn {step : Step Program} (h : ∀ n, StaysIn Inner (step n))
    (hkeeps : Keeps (fun n => (n.functions, n.main)) step) :
    SparesPart (fun n _ => n.functions = {} ∧ n.main = {}) (fun n _ => n.functions = {} ∧ n.main = {}) step := by
  intro n s ts hn hmarks hs
  obtain ⟨es, hr, hinner⟩ := h n s hs
  have hspares := Spares.of_inner hinner
  obtain ⟨hfunctions, hmain⟩ := Prod.mk.inj (hkeeps n s)
  refine ⟨es, hr, hspares.drops, hmarks.append hspares ?_ ?_, fun _ => ⟨hfunctions.trans hn.1, hmain.trans hn.2⟩⟩
  · rw [hfunctions, List.map_nil, List.append_nil]
  · rw [hmain, List.append_nil]

theorem stays_restart (n : Program) (hm : s.mode = .recovering) : Stays Inner s (restart n s) := by
  obtain ⟨es, hr, -⟩ := restart_reaches n hm
  obtain ⟨fs, hr', hp, -⟩ := run_dropWhile_passes (fun k => !headerRestarts.contains k) hm
  refine ⟨es, hr, ?_⟩
  have hcursor : (restart n s).state.cursor = (s.dropWhile fun k => !headerRestarts.contains k).cursor := by
    unfold restart
    dsimp only
    split <;> rfl
  have hrest := hr.run.effect.rest.symm.trans hr'.effect.rest
  rw [hcursor] at hrest
  rw [List.append_cancel_right hrest, hp]
  intro t ht
  have htest := List.mem_takeWhile_imp (p := fun t : Token => !headerRestarts.contains t.kind) ht
  have hstop : t.kind ∉ headerRestarts := by
    rw [KindSet.mem_iff]
    simpa using htest
  exact inner_of_notMem (by decide) (by decide) hstop

theorem sparesPart_header :
    SparesPart (fun n _ => n.functions = {} ∧ n.main = {}) (fun n _ => n.functions = {} ∧ n.main = {}) header := by
  refine .of_staysIn (fun n s hs => ?_) fun n s => ?_
  · have hsteps : StaysIn Inner (sequence headerSteps n) :=
      .cons (.terminal _ (by decide) (by decide) _ _ _) fun _ => .cons (.terminal _ (by decide) (by decide) _ _ _) fun _ =>
        .cons (.terminal _ (by decide) (by decide) _ _ _) fun _ => .nil
    obtain ⟨es, hr, hinner⟩ := hsteps s hs
    unfold header
    dsimp only
    split
    · rename_i hv
      obtain ⟨fs, hr', hinner'⟩ := stays_restart (sequence headerSteps n s).node (hr.recovering hv)
      exact ⟨es ++ fs, .trans hr.run hr', forall_passes_append hinner hinner'⟩
    · exact ⟨es, hr, hinner⟩
  · have hkeeps : Keeps (fun n : Program => (n.functions, n.main)) (sequence headerSteps) :=
      .cons (.terminal fun _ _ => rfl) <| .cons (.terminal fun _ _ => rfl) <| .cons (.terminal fun _ _ => rfl) .nil
    unfold header restart
    dsimp only
    split
    · split <;> exact hkeeps n s
    · exact hkeeps n s

theorem sparesPart_functions :
    SparesPart (fun n _ => n.functions = {} ∧ n.main = {})
      (fun n s => s.nextKind ∈ [TokenKind.main, .leftBrace, .endOfInput] ∧ n.main = {})
      (child (functions .standard) fun n fs => { n with functions := fs }) := by
  rintro n s ts ⟨hfunctions, hmain⟩ hmarks hs
  obtain ⟨es, ks, hr, hspares, hkeywords⟩ := spares_functions hs
  refine ⟨es, ⟨hr.run, hr.fits⟩, hspares.drops, hmarks.append hspares ?_ (List.append_nil _).symm,
    fun hv => ⟨nextKind_of_functions Table.standard_orderly hv, hmain⟩⟩
  rw [hfunctions]
  exact hkeywords

theorem sparesPart_mainStep :
    SparesPart (fun n s => s.nextKind ∈ [TokenKind.main, .leftBrace, .endOfInput] ∧ n.main = {}) (fun _ _ => True)
      (mainStep .standard) := by
  rintro n s ts ⟨hk, hmain⟩ hmarks hs
  obtain ⟨es, hr, hspares⟩ := spares_mainBlock hs
  have hmarks' : Marks { n with main := (mainBlock .standard s).node } (ts ++ passes es) := by
    refine hmarks.append hspares (List.append_nil _).symm ?_
    rw [hmain]
    rfl
  unfold mainStep child
  dsimp only
  split
  · rename_i hv
    have hend := mainBlock_ended hs hk hv
    refine ⟨_, ⟨hr.run.trans (.ofMove (.abandon .main hend)), hend⟩, ?_, ?_, nofun⟩
    · simpa using hspares.drops
    · simpa using hmarks'
  · exact ⟨es, ⟨hr.run, hr.fits⟩, hspares.drops, hmarks', fun _ => trivial⟩

/-- After the main block everything is dropped, with a report at the first token. -/
theorem nothingLeft_cases (n : Program) (hs : s.Ready) :
    ∃ es, Reaches s es (nothingLeft n s) ∧ (nothingLeft n s).node = n ∧
      (passes es = [] ∨ ∃ xs, passes es = s.lookahead :: xs ∧ trailingInput s.lookahead ∈ reports es) := by
  obtain ⟨es, hr, hnode, -, hend, -⟩ := nothingLeft_reaches n hs
  refine ⟨es, hr, hnode, ?_⟩
  have hrest := hr.run.effect.rest
  rw [hend, List.append_nil] at hrest
  by_cases hlast : s.cursor.rest = []
  · exact .inl (hrest.symm.trans hlast)
  · refine .inr ⟨_, hrest.symm.trans (State.rest_eq_lookahead_cons hlast), ?_⟩
    have hne : ¬s.lookahead.isEnd = true := fun h => hlast (hs.isEnd_lookahead_iff.1 h)
    have hb : (trailingInput s.lookahead).Blames s.lookahead := Diagnostic.blames_of_code (by decide) _ _ _ _
    obtain ⟨fs, hr', -⟩ := run_dropWhile (fun _ => true) (s.mode_mismatch (trailingInput s.lookahead))
    have hrun := Run.head (.mismatch _ hs.normal hb) (hr'.trans (.ofMove (.resume _)))
    have hrun' := hr.run
    unfold nothingLeft at hrun'
    rw [if_neg hne] at hrun'
    rw [hrun'.events_eq hrun]
    simp

end Parser

open QuillFrontEnd.Parser

/-! ## Whole parses -/

/-- The parts of a program up to its main block. -/
def stepsToMain (table : Table) : List (Step Program) := [
  header,
  child (globalVars table) fun n vs => { n with globals := vs },
  child (functions table) fun n fs => { n with functions := fs },
  mainStep table]

theorem sparesPart_stepsToMain :
    SparesPart (fun n _ => n.functions = {} ∧ n.main = {}) (fun _ _ => True) (sequence (stepsToMain .standard)) :=
  .cons sparesPart_header <| .cons (.of_staysIn (fun n => staysIn_globalVars.child _ n) (.child fun _ _ => rfl)) <|
    .cons sparesPart_functions <| .last sparesPart_mainStep

/-- A parse spares the keywords until it has read the main block; what it passes after that it reports, at the first token. -/
theorem exists_spared (ts : TokenList) :
    ∃ es fs, (parse ts).trace.reverse = es ++ fs ++ [.shift ts.sentinel] ∧ (∀ t ∈ drops es, Inner t.kind) ∧
      Marks (parse ts).tree (passes es) ∧
      (passes fs = [] ∨ ∃ x xs, passes fs = x :: xs ∧ trailingInput x ∈ reports fs) := by
  have hs := (State.ready_initial ts).attempt (.rule .start)
  obtain ⟨es, hr, hdrops, hmarks, -⟩ := sparesPart_stepsToMain {} _ [] ⟨rfl, rfl⟩ ⟨rfl, rfl⟩ hs
  have hsteps : programSteps .standard = stepsToMain .standard ++ [nothingLeft] := rfl
  -- The events of the whole parse, and its tree, from those of its parts.
  have hwhole (fs : List Event)
      (hr' : Run ((State.initial ts).attempt (.rule .start)) (es ++ fs)
        (sequence (programSteps .standard) {} ((State.initial ts).attempt (.rule .start))).state)
      (hnode : (sequence (programSteps .standard) {} ((State.initial ts).attempt (.rule .start))).node =
        (sequence (stepsToMain .standard) {} ((State.initial ts).attempt (.rule .start))).node) :
      (parse ts).trace.reverse = (.attempt (.rule .start) .normal :: es) ++ fs ++ [.shift ts.sentinel] ∧
        Marks (parse ts).tree (passes (.attempt (.rule .start) .normal :: es)) := by
    obtain ⟨htrace, span, htree⟩ := parseWith_of_run Table.standard_orderly hr'
    rw [parse, htrace, htree, hnode]
    exact ⟨by simp, hmarks.functions, hmarks.main⟩
  by_cases hv : (sequence (stepsToMain .standard) {} ((State.initial ts).attempt (.rule .start))).verdict = .matched
  · obtain ⟨fs, hr', hnode, hcases⟩ := nothingLeft_cases
      (sequence (stepsToMain .standard) {} ((State.initial ts).attempt (.rule .start))).node (hr.ready hs hv)
    have hlast : sequence (stepsToMain .standard ++ [nothingLeft]) {} ((State.initial ts).attempt (.rule .start)) = _ :=
      sequence_append_of_matched hv
    rw [sequence_singleton, ← hsteps] at hlast
    obtain ⟨htrace, hmarks'⟩ := hwhole fs (by rw [hlast]; exact hr.run.trans hr'.run) (by rw [hlast, hnode])
    refine ⟨_, fs, htrace, hdrops, hmarks', hcases.imp_right ?_⟩
    rintro ⟨xs, hpasses, hreported⟩
    exact ⟨_, xs, hpasses, hreported⟩
  · have hlast : sequence (stepsToMain .standard ++ [nothingLeft]) {} ((State.initial ts).attempt (.rule .start)) = _ :=
      sequence_append_of_ne_matched hv
    rw [← hsteps] at hlast
    obtain ⟨htrace, hmarks'⟩ := hwhole [] (by rw [hlast, List.append_nil]; exact hr.run) (by rw [hlast])
    exact ⟨_, [], htrace, hdrops, hmarks', .inl rfl⟩

/-- Let the tokens of a list be in the order of their offsets. Then every keyword of a function or of the main block that a parse
skips is at or after a token that the parse blames for coming after the main block. If it blames none, each function of the tree
starts with one of the keywords of functions in the list, in order, and there is no other; and there is no keyword of the main block
but the one with which the main block of the tree starts. -/
theorem keywords_not_lost {ts : TokenList} (hts : ts.StartsIncrease) :
    (∀ t ∈ (parse ts).skipped, t.kind = .function ∨ t.kind = .main →
      ∃ d ∈ (parse ts).diagnostics, d.code = .trailingInput ∧ ∃ x ∈ ts.toList, d.found = some x ∧ x.span.start ≤ t.span.start) ∧
    ((∀ d ∈ (parse ts).diagnostics, d.code ≠ .trailingInput) →
      (parse ts).tree.functions.decls.map FunctionDecl.keyword = (ts.toList.filter fun t => t.kind == .function).map .ofToken ∧
      (ts.toList.filter fun t => t.kind == .main).length ≤ 1 ∧
      ∀ t ∈ ts.toList, t.kind = .main → (parse ts).tree.main.keyword = .ofToken t) := by
  obtain ⟨es, fs, htrace, hdrops, hmarks, hcases⟩ := exists_spared ts
  have hpasses : passes es ++ (passes fs ++ [ts.sentinel]) = ts.toList := by
    have hall : passes (parse ts).trace.reverse = ts.toList := passes_trace Table.standard_orderly ts
    rw [htrace, passes_append, passes_append, List.append_assoc] at hall
    exact hall
  have hskipped : (parse ts).skipped = drops es ++ drops fs := by
    change drops (parse ts).trace.reverse = _
    rw [htrace, drops_append, drops_append]
    exact List.append_nil _
  have hreports : ∀ d ∈ reports fs, d ∈ (parse ts).diagnostics := by
    intro d hd
    change d ∈ reports (parse ts).trace.reverse
    rw [htrace]
    simp [hd]
  refine ⟨fun t ht hkind => ?_, fun hnone => ?_⟩
  · rw [hskipped, List.mem_append] at ht
    rcases ht with ht | ht
    · obtain ⟨hfunction, hmain⟩ := hdrops t ht
      exact (hkind.elim hfunction hmain).elim
    · have hpassed := mem_passes_of_mem_drops ht
      rcases hcases with hnil | ⟨x, xs, hx, hd⟩
      · rw [hnil] at hpassed
        cases hpassed
      · rw [hx] at hpassed hpasses
        have hordered : (x :: xs).Pairwise fun a b => a.span.start < b.span.start :=
          hts.sublist (hpasses ▸ (List.sublist_append_left _ _).trans (List.sublist_append_right _ _))
        refine ⟨_, hreports _ hd, rfl, x, by simp [← hpasses], rfl, ?_⟩
        rcases List.mem_cons.1 hpassed with rfl | hlater
        · exact Nat.le_refl _
        · exact Nat.le_of_lt (List.rel_of_pairwise_cons hordered hlater)
  · have hnil : passes fs = [] := hcases.resolve_right fun ⟨x, xs, _, hd⟩ => hnone _ (hreports _ hd) rfl
    have hall {kind : TokenKind} (hkind : kind ≠ .endOfInput) :
        (ts.toList.filter fun t => t.kind == kind) = tokensOf kind (passes es) := by
      have hend : ts.sentinel.kind = .endOfInput := beq_iff_eq.1 ts.sentinel_isEnd
      rw [← hpasses, hnil, List.nil_append, List.filter_append, tokensOf]
      simp [hend, hkind.symm]
    refine ⟨by rw [hall (by decide), hmarks.functions], ?_, fun t ht hkind => ?_⟩
    · rw [hall (by decide), ← hmarks.main]
      cases (parse ts).tree.main.keyword.token? <;> simp
    · have hmem : t ∈ (ts.toList.filter fun t => t.kind == .main) := List.mem_filter.2 ⟨ht, beq_iff_eq.2 hkind⟩
      rw [hall (by decide), ← hmarks.main, Option.mem_toList] at hmem
      exact Terminal.eq_ofToken_of_token? hmem

/-- In `program x : function function main { }` both functions keep their keywords; in `program x : main { } function main` the two
keywords at the end are skipped, and the first of them is blamed. -/
theorem keywords_not_lost_twice :
    let ts := TokenList.ofKinds [.program, .identifier, .colon, .function, .function, .main, .leftBrace, .rightBrace]
    let us := TokenList.ofKinds [.program, .identifier, .colon, .main, .leftBrace, .rightBrace, .function, .main]
    ts.StartsIncrease ∧ us.StartsIncrease ∧
      (parse ts).tree.functions.decls.map FunctionDecl.keyword = (ts.toList.filter fun t => t.kind == .function).map .ofToken ∧
      (parse us).skipped.map Token.kind = [.function, .main] ∧
      ∀ t ∈ (parse us).skipped, t.kind = .function ∨ t.kind = .main →
        ∃ d ∈ (parse us).diagnostics, d.code = .trailingInput ∧ ∃ x ∈ us.toList, d.found = some x ∧ x.span.start ≤ t.span.start := by
  intro ts us
  have hts : ts.StartsIncrease := TokenList.startsIncrease_ofKinds (by decide)
  have hus : us.StartsIncrease := TokenList.startsIncrease_ofKinds (by decide)
  have hnone : ∀ d ∈ (parse ts).diagnostics, d.code ≠ .trailingInput := by decide +kernel
  exact ⟨hts, hus, ((keywords_not_lost hts).2 hnone).1, by decide +kernel, (keywords_not_lost hus).1⟩

end QuillFrontEnd
