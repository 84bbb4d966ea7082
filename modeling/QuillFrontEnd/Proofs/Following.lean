import QuillFrontEnd.Proofs.Accounting
import QuillFrontEnd.Proofs.Derivation

/-!
# Reading follows the grammar

For each rule, what its reader takes before the first event that does not go by the grammar is the beginning of a phrase of the
rule, and if there is no such event it is a whole phrase. So a parse never takes a token that no program has there without having
complained before, and a parse that complains of nothing has read a program.
-/

namespace QuillFrontEnd

namespace Parser

variable {ν μ : Type} {d : Decision} {p q : Pattern} {es fs : List Event} {v : Verdict}

/-- The kinds of the tokens that are taken into the tree. -/
def shiftedKinds (es : List Event) : List TokenKind := (shifts es).map Token.kind

@[simp] theorem shiftedKinds_append (es fs : List Event) : shiftedKinds (es ++ fs) = shiftedKinds es ++ shiftedKinds fs := by
  simp [shiftedKinds]

/-! ## Events that follow a pattern -/

/-- Events that follow a pattern: they read a phrase of it if they are quiet, and the beginning of one in their quiet part if they
are not. Quiet events end in the verdict `matched`. -/
structure Viable (p : Pattern) (es : List Event) (v : Verdict) : Prop where
  matched : Quiet es → v = .matched
  derives : Quiet es → Derives p (shiftedKinds es)
  begins : ¬Quiet es → ∃ w, Derives p w ∧ shiftedKinds (quietPart es) <+: w

namespace Viable

theorem not_quiet (h : Viable p es v) (hv : v ≠ .matched) : ¬Quiet es := fun hq => hv (h.matched hq)

theorem mono (h : Viable p es v) (hpq : ∀ w, Derives p w → Derives q w) : Viable q es v := by
  refine ⟨h.matched, fun hq => hpq _ (h.derives hq), fun hq => ?_⟩
  obtain ⟨w, hw, hpre⟩ := h.begins hq
  exact ⟨w, hpq w hw, hpre⟩

/-- After an event that is not quiet it does not matter what else is done. -/
theorem extend (h : Viable p es v) (hq : ¬Quiet es) (fs : List Event) (v' : Verdict) : Viable p (es ++ fs) v' := by
  have hq' : ¬Quiet (es ++ fs) := fun hall => hq ((quiet_append es fs).1 hall).1
  refine ⟨fun hall => absurd hall hq', fun hall => absurd hall hq', fun _ => ?_⟩
  rw [quietPart_append_of_not_quiet hq]
  exact h.begins hq

/-- Events that take nothing and are not quiet are the beginning of any phrase. -/
theorem of_shifts_eq_nil (p : Pattern) (hsh : shifts es = []) (hq : ¬Quiet es) (v : Verdict) : Viable p es v := by
  refine ⟨fun hall => absurd hall hq, fun hall => absurd hall hq, fun _ => ?_⟩
  obtain ⟨w, hw⟩ := Derives.exists_word p
  refine ⟨w, hw, ?_⟩
  rw [shiftedKinds, shifts_quietPart_of_shifts_eq_nil hsh]
  exact List.nil_prefix

/-- Events that take nothing may come before any others. -/
theorem after (h : Viable p fs v) (hsh : shifts es = []) : Viable p (es ++ fs) v := by
  by_cases hes : Quiet es
  · refine ⟨fun hq => h.matched ((quiet_append es fs).1 hq).2, fun hq => ?_, fun hq => ?_⟩
    · rw [shiftedKinds, shifts_append, hsh, List.nil_append]
      exact h.derives ((quiet_append es fs).1 hq).2
    · rw [quietPart_append_of_quiet hes, shiftedKinds, shifts_append, hsh, List.nil_append]
      exact h.begins fun hfs => hq ((quiet_append es fs).2 ⟨hes, hfs⟩)
  · exact (of_shifts_eq_nil p hsh hes v).extend hes fs v

/-- If the events of two parts follow two patterns, those of both together follow the one pattern and then the other. -/
theorem append {v' : Verdict} (h : Viable p es v') (h' : Viable q fs v) : Viable (.append p q) (es ++ fs) v := by
  by_cases hes : Quiet es
  · refine ⟨fun hq => h'.matched ((quiet_append es fs).1 hq).2, fun hq => ?_, fun hq => ?_⟩
    · rw [shiftedKinds_append]
      exact .append (h.derives hes) (h'.derives ((quiet_append es fs).1 hq).2)
    · obtain ⟨w, hw, hpre⟩ := h'.begins fun hfs => hq ((quiet_append es fs).2 ⟨hes, hfs⟩)
      refine ⟨_, .append (h.derives hes) hw, ?_⟩
      rw [quietPart_append_of_quiet hes, shiftedKinds_append]
      exact (List.prefix_append_right_inj _).2 hpre
  · have hq' : ¬Quiet (es ++ fs) := fun hall => hes ((quiet_append es fs).1 hall).1
    refine ⟨fun hall => absurd hall hq', fun hall => absurd hall hq', fun _ => ?_⟩
    obtain ⟨w, hw, hpre⟩ := h.begins hes
    obtain ⟨u, hu⟩ := Derives.exists_word q
    refine ⟨_, .append hw hu, ?_⟩
    rw [quietPart_append_of_not_quiet hes]
    exact hpre.trans (List.prefix_append w u)

/-- A phrase that is broken off follows what would have come after it, too. -/
theorem append_of_ne_matched (h : Viable p es v) (hv : v ≠ .matched) (q : Pattern) : Viable (.append p q) es v := by
  have hq := h.not_quiet hv
  refine ⟨fun hall => absurd hall hq, fun hall => absurd hall hq, fun _ => ?_⟩
  obtain ⟨w, hw, hpre⟩ := h.begins hq
  obtain ⟨u, hu⟩ := Derives.exists_word q
  exact ⟨_, .append hw hu, hpre.trans (List.prefix_append w u)⟩

theorem nil : Viable .empty [] .matched := ⟨fun _ => rfl, fun _ => .empty, fun hq => absurd quiet_nil hq⟩

theorem shift {t : Token} {k : TokenKind} (h : t.kind = k) : Viable (.token k) [.shift t] .matched := by
  refine ⟨fun _ => rfl, fun _ => ?_, fun hq => absurd (by simp) hq⟩
  have hk : shiftedKinds [.shift t] = [k] := by simp [shiftedKinds, h]
  rw [hk]
  exact .token k

end Viable

/-! ## Readers that follow a pattern -/

/-- An outcome that is reached by events that follow a pattern. -/
def Along (p : Pattern) (s : State) (o : Outcome ν) : Prop := ∃ es, Reaches s es o ∧ Viable p es o.verdict

/-- A reader that follows a pattern wherever the parse is on track. -/
def Follows (p : Pattern) (reader : Reader ν) : Prop := ∀ s : State, s.Ready → Along p s (reader s)

theorem Follows.mono (p : Pattern) {reader : Reader ν} (h : Follows p reader) (hpq : ∀ w, Derives p w → Derives q w) :
    Follows q reader := by
  intro s hs
  obtain ⟨es, hr, hv⟩ := h s hs
  exact ⟨es, hr, hv.mono hpq⟩

theorem Follows.terminal (rule : Rule) {kind : TokenKind} (hk : kind ≠ .endOfInput) (follow : KindSet)
    (put : ν → Terminal → ν) (n : ν) : Follows (.token kind) (terminal rule kind follow put n) := by
  intro s hs
  obtain ⟨es, hr, h⟩ := terminal_reaches rule hk follow put n hs
  refine ⟨es, hr, ?_⟩
  rcases h with ⟨hnext, hq, hsh, -, hv⟩ | ⟨hq, hsh, -⟩ | ⟨-, -, hq, hsh, -⟩
  · refine ⟨fun _ => hv, fun _ => ?_, fun hq' => absurd hq hq'⟩
    have hkinds : shiftedKinds es = [kind] := by rw [shiftedKinds, hsh, ← hnext]; rfl
    rw [hkinds]
    exact .token kind
  · exact .of_shifts_eq_nil _ hsh hq _
  · exact .of_shifts_eq_nil _ hsh hq _

theorem Follows.child {reader : Reader μ} (h : Follows p reader) (put : ν → μ → ν) (n : ν) :
    Follows p (child reader put n) := by
  intro s hs
  obtain ⟨es, hr, hv⟩ := h s hs
  exact ⟨es, ⟨hr.run, hr.fits⟩, hv⟩

/-- The steps after the first are made only where the first one ends in `matched`. -/
theorem Along.cons {step : Step ν} {steps : List (Step ν)} {n : ν} {s : State} (hs : s.Ready) (h : Along p s (step n s))
    (h' : (step n s).verdict = .matched → (step n s).state.Ready →
      Along q (step n s).state (sequence steps (step n s).node (step n s).state)) :
    Along (.append p q) s (sequence (step :: steps) n s) := by
  obtain ⟨es, hr, hv⟩ := h
  by_cases hm : (step n s).verdict = .matched
  · rw [sequence_cons_of_matched steps hm]
    obtain ⟨fs, hr', hv'⟩ := h' hm (hr.ready hs hm)
    exact ⟨es ++ fs, .trans hr.run hr', hv.append hv'⟩
  · rw [sequence_cons_of_ne_matched steps hm]
    exact ⟨es, hr, hv.append_of_ne_matched hm q⟩

theorem Follows.cons {step : Step ν} {steps : List (Step ν)} (h : ∀ n, Follows p (step n))
    (h' : ∀ n, Follows q (sequence steps n)) (n : ν) : Follows (.append p q) (sequence (step :: steps) n) :=
  fun s hs => .cons hs (h n s hs) fun _ hs' => h' _ _ hs'

theorem Follows.last {step : Step ν} (h : ∀ n, Follows p (step n)) (n : ν) : Follows p (sequence [step] n) := by
  rw [sequence_singleton]
  exact h n

theorem Follows.optional {table : Table} {step : Step ν} (h : ∀ n, Follows p (step n)) (n : ν) :
    Follows (.optional p) (optional table d step n) := by
  intro s hs
  obtain ⟨es, hr, hsh, hnone, hsome⟩ := run_choose table d hs
  unfold Parser.optional
  generalize choose table d s = c at hr hnone hsome
  obtain ⟨_ | a, t⟩ := c
  · exact ⟨es, ⟨hr, (hnone rfl).1⟩, .of_shifts_eq_nil _ hsh (hnone rfl).2 _⟩
  · obtain ⟨ht, -⟩ := hsome a rfl
    cases a with
    | descend r =>
      obtain ⟨fs, hr', hv⟩ := h n t ht
      exact ⟨es ++ fs, .trans hr hr', (hv.mono fun _ hw => .left hw).after hsh⟩
    | take | leave | reject =>
      have hv : Viable (.optional p) (es ++ []) .matched := (Viable.nil.mono fun _ hw => .right hw).after hsh
      rw [List.append_nil] at hv
      exact ⟨es, ⟨hr, ht.normal⟩, hv⟩

theorem Follows.whenDescends {table : Table} {steps : List (Step ν)} (h : ∀ n, Follows p (sequence steps n)) (n : ν) :
    Follows (.optional p) (whenDescends table d steps n) := by
  intro s hs
  unfold Parser.whenDescends
  split
  · obtain ⟨es, hr, hv⟩ := h n s hs
    exact ⟨es, hr, hv.mono fun _ hw => .left hw⟩
  · exact ⟨[], ⟨.refl s, hs.normal⟩, Viable.nil.mono fun _ hw => .right hw⟩

/-- Going on after an error adds nothing to the quiet part of the events. -/
theorem Follows.phrase [Node ν] {rule : Rule} {blank : ν} {step : Step ν} (h : Follows rule.production (step blank)) :
    Follows (.phrase rule) (phrase rule blank step) := by
  intro s hs
  have ha : Run s [.attempt (.rule rule) .normal] (s.attempt (.rule rule)) := .ofMove (.attempt _ hs.normal)
  obtain ⟨es, hr, hv⟩ := h _ (hs.attempt (.rule rule))
  have hv' : Viable (.phrase rule) ([.attempt (.rule rule) .normal] ++ es) (step blank (s.attempt (.rule rule))).verdict :=
    (hv.mono fun _ => .phrase).after rfl
  obtain ⟨fs, hr', hend⟩ := recover_reaches rule (.trans ha hr) hs.toSealed
  refine ⟨_, ⟨hr'.run, hr'.fits⟩, ?_⟩
  unfold Parser.phrase
  dsimp only
  rcases hend with ⟨he, rfl⟩ | ⟨hm, -⟩
  · rw [he, List.append_nil]
    exact hv'
  · exact hv'.extend (hv'.not_quiet (by simp [hm])) _ _

/-! ## Repetitions -/

theorem Follows.many {table : Table} {reader : Reader ν} {kind : TokenKind} (h : Follows p reader)
    (hp : PassesAt kind reader) (hd : ∀ k r, table.action d k = .descend r → k = kind) :
    Follows (.repeated p) (many table d reader) := by
  intro s hs
  induction hn : s.remaining using Nat.strong_induction_on generalizing s with
  | _ n ih =>
    obtain ⟨es, hr, hsh, hnone, hsome⟩ := run_choose table d hs
    rw [Parser.many]
    have hle := hr.remaining_le
    generalize choose table d s = c at hr hnone hsome hle
    obtain ⟨_ | a, t⟩ := c
    · exact ⟨es, ⟨hr, (hnone rfl).1⟩, .of_shifts_eq_nil _ hsh (hnone rfl).2 _⟩
    obtain ⟨ht, hact, -, -⟩ := hsome a rfl
    have hnil : Viable (.repeated p) [] .matched := Viable.nil.mono fun w hw => by
      rw [Derives.empty_iff.1 hw]
      exact .none
    cases a with
    | take | leave | reject =>
      have hv := hnil.after hsh
      rw [List.append_nil] at hv
      exact ⟨es, ⟨hr, ht.normal⟩, hv⟩
    | descend r =>
      obtain ⟨fs, hr', hv⟩ := h t ht
      have hlt : (reader t).state.remaining < s.remaining := Nat.lt_of_lt_of_le (hp t ht (hd _ r hact)) hle
      have more : ∀ w, Derives (.append p (.repeated p)) w → Derives (.repeated p) w := by
        intro w hw
        obtain ⟨u, v, rfl, hu, hv⟩ := Derives.append_iff.1 hw
        exact .more hu hv
      dsimp only
      split
      · rename_i hm
        rw [if_pos hlt]
        obtain ⟨gs, hr'', hv'⟩ := ih _ (hn ▸ hlt) _ (hr'.ready ht hm) rfl
        exact ⟨es ++ (fs ++ gs), ⟨hr.trans (hr'.run.trans hr''.run), hr''.fits⟩, ((hv.append hv').mono more).after hsh⟩
      · rename_i hm
        exact ⟨es ++ fs, ⟨hr.trans hr'.run, hr'.fits⟩, ((hv.append_of_ne_matched hm _).mono more).after hsh⟩

theorem Follows.separated {table : Table} {item : Reader (List ν)} {kind : TokenKind} (h : Follows p item)
    (hkind : kind ≠ .endOfInput) (hd : ∀ k j, table.action d k = .take j → k = kind) :
    Follows (.append p (.repeated (.append (.token kind) p))) (separated table d item) := by
  intro s hs
  induction hn : s.remaining using Nat.strong_induction_on generalizing s with
  | _ n ih =>
    obtain ⟨es, hr, hv⟩ := h s hs
    have stop : ∀ w, Derives (.append p .empty) w → Derives (.append p (.repeated (.append (.token kind) p))) w := by
      intro w hw
      obtain ⟨u, v, rfl, hu, hv⟩ := Derives.append_iff.1 hw
      rw [Derives.empty_iff.1 hv]
      exact .append hu .none
    rw [Parser.separated]
    dsimp only
    split
    · rename_i hm
      rw [hm] at hv
      have hready := hr.ready hs hm
      split
      · rename_i j hact
        have hk : (item s).state.nextKind = kind := hd _ j hact
        have hne : (item s).state.cursor.rest ≠ [] := hready.rest_ne_nil (hk ▸ hkind)
        have hrs : Run s (es ++ [.shift (item s).state.lookahead]) (item s).state.shift := hr.run.trans (.ofMove (.shift hready.normal hne))
        have hlt : (item s).state.shift.remaining < s.remaining :=
          Nat.lt_of_lt_of_le (State.remaining_shift_lt hne) hr.run.remaining_le
        rw [if_pos hlt]
        obtain ⟨fs, hr', hv'⟩ := ih _ (hn ▸ hlt) _ ⟨hrs.sealed hs.toSealed, hready.normal⟩ rfl
        refine ⟨_, .trans hrs ⟨hr'.run, hr'.fits⟩, ?_⟩
        rw [List.append_assoc]
        refine (hv.append ((Viable.shift hk).append hv')).mono fun w hw => ?_
        obtain ⟨u, _, rfl, hu, hw⟩ := Derives.append_iff.1 hw
        obtain ⟨c, _, rfl, hc, hw⟩ := Derives.append_iff.1 hw
        obtain ⟨x, y, rfl, hx, hy⟩ := Derives.append_iff.1 hw
        rw [← List.append_assoc c]
        exact .append hu (.more (.append hc hx) hy)
      · have hv' := (hv.append Viable.nil).mono stop
        rw [List.append_nil] at hv'
        exact ⟨es, ⟨hr.run, hready.normal⟩, hv'⟩
    · rename_i hm
      exact ⟨es, ⟨hr.run, hr.fits⟩, hv.append_of_ne_matched hm _⟩

/-! ## Rules -/

theorem follows_basicType : Follows (.phrase .basicType) (basicType .standard) := by
  refine .phrase fun s hs => ?_
  dsimp only
  split
  · rename_i k hk
    have hnext : s.nextKind = .numberType ∨ s.nextKind = .booleanType := Table.basicType_of_standard hk
    have hne : s.cursor.rest ≠ [] := hs.rest_ne_nil (by rcases hnext with h | h <;> simp [h])
    refine ⟨_, ⟨.ofMove (.shift hs.normal hne), hs.normal⟩, ?_⟩
    rcases hnext with h | h
    · exact (Viable.shift h).mono fun _ hw => .left hw
    · exact (Viable.shift h).mono fun _ hw => .right hw
  · exact ⟨_, .mismatch _ hs (Diagnostic.blames_of_code (by decide) _ _ _ _), .of_shifts_eq_nil _ rfl (by simp) _⟩

theorem follows_extent : Follows (.phrase .dimDecl) extent :=
  .phrase (.cons (.terminal _ (by decide) _ _) (.cons (.terminal _ (by decide) _ _) (.last (.terminal _ (by decide) _ _))) _)

/-- The two rules for dimensions have the same production. -/
theorem follows_dimension {rule : Rule} (hr : rule.production = .phrase .dimDecl) :
    Follows (.phrase rule) (dimension rule) := by
  refine .phrase ?_
  rw [hr]
  exact follows_extent.child _ _

/-- Where there is no third dimension, nothing is done. -/
theorem follows_noExtraDimension {table : Table} (n : TypeSpec) : Follows .empty (noExtraDimension table n) := by
  intro s hs
  unfold noExtraDimension
  split
  · have hb : (extraDimension s.lookahead).Blames s.lookahead := Diagnostic.blames_of_code (by decide) _ _ _ _
    exact ⟨_, .mismatch n hs hb, .of_shifts_eq_nil _ rfl (by simp) _⟩
  · exact ⟨[], ⟨.refl s, hs.normal⟩, .nil⟩

/-- A second dimension is only read after a first one; the production allows it by itself, but the two rules for dimensions derive
the same phrases. -/
theorem follows_typeSpec : Follows (.phrase .type) (typeSpec .standard) := by
  refine .phrase (.mono (.append (.phrase .basicType) (.optional (.append (.phrase .typeDim1) (.optional (.append
    (.phrase .typeDim2) .empty))))) (.cons (.child follows_basicType _) (.last (.whenDescends (.cons
    (.child (follows_dimension rfl) _) (.last (.whenDescends (.cons (.child (follows_dimension rfl) _)
    (.last follows_noExtraDimension))))))) _) ?_)
  intro w hw
  obtain ⟨b, ds, rfl, hb, hds⟩ := Derives.append_iff.1 hw
  refine .append hb ?_
  rcases Derives.either_iff.1 hds with hds | hds
  · obtain ⟨x, ys, rfl, hx, hys⟩ := Derives.append_iff.1 hds
    refine .append (.left hx) ?_
    rcases Derives.either_iff.1 hys with hys | hys
    · obtain ⟨y, z, rfl, hy, hz⟩ := Derives.append_iff.1 hys
      rw [Derives.empty_iff.1 hz, List.append_nil]
      exact .left hy
    · exact .right hys
  · rw [Derives.empty_iff.1 hds]
    exact .append (.right .empty) (.right .empty)

/-- The standard table takes commas between names and between parameters, and nothing else. -/
theorem take_comma_of_standard (hd : d = .moreNames ∨ d = .moreParams) (k j : TokenKind)
    (h : Table.standard.action d k = .take j) : k = .comma := by
  rcases hd with rfl | rfl <;> cases k <;> first | rfl | cases h

theorem follows_declaredName : Follows (.token .identifier) declaredName := .terminal _ (by decide) _ _ _

theorem follows_varDecl : Follows (.phrase .varDecl) (varDecl .standard) := by
  refine .phrase (.mono (.append (.token .var) (.append (.phrase .type) (.append (.append (.token .identifier)
    (.repeated (.append (.token .comma) (.token .identifier)))) (.token .semicolon)))) (.cons (.terminal _ (by decide) _ _)
    (.cons (.child follows_typeSpec _) (.cons (.child (.separated follows_declaredName (by decide)
    (take_comma_of_standard (.inl rfl))) _) (.last (.terminal _ (by decide) _ _)))) _) ?_)
  intro w hw
  obtain ⟨k, _, rfl, hk, hw⟩ := Derives.append_iff.1 hw
  obtain ⟨t, _, rfl, ht, hw⟩ := Derives.append_iff.1 hw
  exact .append hk (.append ht (Derives.append_assoc_iff.1 hw))

theorem follows_globalVars : Follows (.phrase .globalVars) (globalVars .standard) :=
  .phrase (.child (.many follows_varDecl (accounts_varDecl Table.standard_orderly).2 Table.standard_orderly.moreGlobals) _ _)

theorem follows_localVars : Follows (.phrase .localVars) (localVars .standard) :=
  .phrase (.child (.many follows_varDecl (accounts_varDecl Table.standard_orderly).2 Table.standard_orderly.moreLocals) _ _)

theorem follows_expression : Follows (.phrase .expression) expression :=
  .phrase fun s hs => ⟨[], ⟨.refl s, hs.normal⟩, .nil⟩

theorem follows_statement : Follows (.phrase .statement) statement :=
  .phrase (.cons (.child follows_expression _) (.last (.terminal _ (by decide) _ _)) _)

theorem follows_block : Follows (.phrase .block) (block .standard) :=
  .phrase (.cons (.terminal _ (by decide) _ _) (.cons (.child (.many follows_statement statement_passesAt
    Table.standard_orderly.moreStatements) _) (.last (.terminal _ (by decide) _ _))) _)

theorem follows_paramList : Follows (.phrase .paramList) (paramList .standard) := by
  have item : Follows (.append (.phrase .basicType) (.token .identifier)) (paramItem .standard) :=
    .child (.cons (.child follows_basicType _) (.last (.terminal _ (by decide) _ _)) _) _ _
  exact .phrase (.mono _ (.child (.separated item (by decide) (take_comma_of_standard (.inr rfl))) _ _) fun _ =>
    Derives.append_assoc_iff.1)

theorem follows_functionDecl : Follows (.phrase .functionDecls) (functionDecl .standard) :=
  .phrase (.cons (.terminal _ (by decide) _ _) (.cons (.terminal _ (by decide) _ _) (.cons (.terminal _ (by decide) _ _)
    (.cons (.optional (.child follows_paramList _)) (.cons (.terminal _ (by decide) _ _)
    (.cons (.child follows_localVars _) (.last (.child follows_block _))))))) _)

theorem follows_functions : Follows (.phrase .functions) (functions .standard) :=
  .phrase (.child (.many follows_functionDecl (accounts_functionDecl Table.standard_orderly).2
    Table.standard_orderly.moreFunctions) _ _)

theorem follows_mainBlock : Follows (.phrase .main) (mainBlock .standard) :=
  .phrase (.cons (.terminal _ (by decide) _ _) (.last (.child follows_block _)) _)

/-! ## Programs -/

theorem follows_header (n : Program) :
    Follows (.append (.token .program) (.append (.token .identifier) (.token .colon))) (header n) := by
  intro s hs
  have h : Follows (.append (.token .program) (.append (.token .identifier) (.token .colon))) (sequence headerSteps n) :=
    .cons (.terminal _ (by decide) _ _) (.cons (.terminal _ (by decide) _ _) (.last (.terminal _ (by decide) _ _))) n
  obtain ⟨es, hr, hv⟩ := h s hs
  unfold header
  dsimp only
  split
  · rename_i hm
    obtain ⟨fs, hr', -⟩ := restart_reaches (sequence headerSteps n s).node (hr.recovering hm)
    exact ⟨es ++ fs, .trans hr.run hr', hv.extend (hv.not_quiet (by simp [hm])) _ _⟩
  · exact ⟨es, hr, hv⟩

/-- The main block is read where functions can end. -/
theorem along_mainStep (n : Program) {s : State} (hs : s.Ready)
    (hk : s.nextKind ∈ [TokenKind.main, .leftBrace, .endOfInput]) : Along (.phrase .main) s (mainStep .standard n s) := by
  obtain ⟨es, hr, hv⟩ := follows_mainBlock s hs
  unfold mainStep child
  dsimp only
  split
  · rename_i hm
    have hend := mainBlock_ended hs hk hm
    exact ⟨_, ⟨hr.run.trans (.ofMove (.abandon .main hend)), hend⟩, hv.extend (hv.not_quiet (by simp [hm])) _ _⟩
  · exact ⟨es, ⟨hr.run, hr.fits⟩, hv⟩

theorem follows_nothingLeft (n : Program) : Follows .empty (nothingLeft n) := by
  intro s hs
  obtain ⟨es, hr, -, hm, -, hsh, -⟩ := nothingLeft_reaches n hs
  have hv := Viable.nil.after hsh
  rw [List.append_nil] at hv
  exact ⟨es, hr, by rw [hm]; exact hv⟩

/-- The parts of a program, up to the end of the input. -/
theorem follows_programSteps (n : Program) :
    Follows (.append (.append (.token .program) (.append (.token .identifier) (.token .colon)))
      (.append (.phrase .globalVars) (.append (.phrase .functions) (.append (.phrase .main) .empty))))
      (sequence (programSteps .standard) n) := by
  refine .cons follows_header (.cons (.child follows_globalVars _) fun n s hs => ?_) n
  refine .cons hs (follows_functions.child _ n s hs) fun hm hs' => ?_
  refine .cons hs' (along_mainStep _ hs' (nextKind_of_functions Table.standard_orderly hm)) fun _ hs'' => ?_
  exact Follows.last follows_nothingLeft _ _ hs''

/-- The parts of a program with the end of the input after them are a program. -/
theorem isProgram_of_parts {w : List TokenKind}
    (h : Derives (.append (.append (.append (.token .program) (.append (.token .identifier) (.token .colon)))
      (.append (.phrase .globalVars) (.append (.phrase .functions) (.append (.phrase .main) .empty)))) (.token .endOfInput)) w) :
    IsProgram w := by
  obtain ⟨_, e, rfl, h, he⟩ := Derives.append_iff.1 h
  obtain ⟨_, _, rfl, hhead, hparts⟩ := Derives.append_iff.1 h
  obtain ⟨k, _, rfl, hk, hic⟩ := Derives.append_iff.1 hhead
  obtain ⟨i, c, rfl, hi, hc⟩ := Derives.append_iff.1 hic
  obtain ⟨vs, _, rfl, hvs, hfm⟩ := Derives.append_iff.1 hparts
  obtain ⟨fs, _, rfl, hfs, hmz⟩ := Derives.append_iff.1 hfm
  obtain ⟨m, z, rfl, hm, hz⟩ := Derives.append_iff.1 hmz
  rw [Derives.empty_iff.1 hz, List.append_nil]
  simp only [List.append_assoc]
  exact .phrase (.append hk (.append hi (.append hc (.append hvs (.append hfs (.append hm he))))))

end Parser

open QuillFrontEnd.Parser

/-- The events of a whole parse, with the sentinel taken at the end, follow the grammar. -/
theorem parse_viable (ts : TokenList) : Viable (.phrase .start) (parse ts).trace.reverse .matched := by
  have hs := (State.ready_initial ts).attempt (.rule .start)
  have ha : Run (.initial ts) [.attempt (.rule .start) .normal] ((State.initial ts).attempt (.rule .start)) :=
    .ofMove (.attempt _ rfl)
  obtain ⟨es, hr, hv⟩ := follows_programSteps {} _ hs
  obtain ⟨-, -, -, -, hend⟩ := concludes_programSteps Table.standard_orderly {} _ rfl hs
  obtain ⟨hstate, -⟩ := program_eq .standard (.initial ts)
  have htrace : (parse ts).trace = (program .standard (.initial ts)).state.trace := rfl
  rw [hstate] at htrace
  have hrun := ha.trans hr.run
  generalize sequence (programSteps .standard) {} ((State.initial ts).attempt (.rule .start)) = o at *
  have hkind : o.state.lookahead.kind = .endOfInput :=
    (hr.run.sealed hs.toSealed).nextKind_eq_endOfInput_iff.2 hend
  have hevents : (parse ts).trace.reverse = [.attempt (.rule .start) .normal] ++ (es ++ [.shift o.state.lookahead]) := by
    rw [htrace, State.shift, State.pass_eq, hrun.effect.trace]
    simp [State.initial]
  rw [hevents]
  refine .after (.mono (hv.append (.shift hkind)) fun w hw => ?_) rfl
  exact isProgram_of_parts hw

end QuillFrontEnd
