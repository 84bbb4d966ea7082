import QuillFrontEnd.Proofs.Accounting
import QuillFrontEnd.Proofs.Locality

/-!
# Parses with edited tables come to their end

The repetitions of the parser have a test in them that a turn has consumed something, and a parse gives up where one has not.
`Turns` and `Items` are the same repetitions without that test: they say what a repetition comes to after finitely many turns, and
nothing at all of one that goes on for ever. With a table that is `Table.Orderly` every repetition comes to what they say, so the
test makes no difference; and a parse gives up at the end of the input and nowhere else, with all tokens behind it.
-/

namespace QuillFrontEnd

namespace Parser

variable {ν μ : Type} {table : Table} {d : Decision} {s : State}

/-! ## Repetitions without a test for progress -/

/-- What a repetition of phrases comes to after finitely many turns. It ends where the decision is not to go in, where no decision is
made, or with a phrase that is not read to its end; after any other phrase there is another turn. -/
inductive Turns (table : Table) (d : Decision) (reader : Reader μ) : State → Outcome (List μ) → Prop where
  | leave {s t : State} {a : Action} :
      choose table d s = (some a, t) → (∀ r, a ≠ .descend r) → Turns table d reader s ⟨[], .matched, t⟩
  | giveUp {s t : State} : choose table d s = (none, t) → Turns table d reader s ⟨[], .outOfInput, t⟩
  | cut {s t : State} {r : Rule} :
      choose table d s = (some (.descend r), t) → (reader t).verdict ≠ .matched →
      Turns table d reader s ⟨[(reader t).node], (reader t).verdict, (reader t).state⟩
  | again {s t : State} {r : Rule} {o : Outcome (List μ)} :
      choose table d s = (some (.descend r), t) → (reader t).verdict = .matched →
      Turns table d reader (reader t).state o →
      Turns table d reader s ⟨(reader t).node :: o.node, o.verdict, o.state⟩

/-- What reading items and separators by turns comes to after finitely many items. It ends with an item that is not read to its end,
and after any other item unless the table says to take a separator. -/
inductive Items (table : Table) (d : Decision) (item : Reader (List μ)) : State → Outcome (Separated μ) → Prop where
  | cut {s : State} :
      (item s).verdict ≠ .matched →
      Items table d item s ⟨⟨(item s).node, []⟩, (item s).verdict, (item s).state⟩
  | last {s : State} :
      (item s).verdict = .matched → (∀ k, table.action d (item s).state.nextKind ≠ .take k) →
      Items table d item s ⟨⟨(item s).node, []⟩, .matched, (item s).state⟩
  | next {s : State} {k : TokenKind} {o : Outcome (Separated μ)} :
      (item s).verdict = .matched → table.action d (item s).state.nextKind = .take k →
      Items table d item (item s).state.shift o →
      Items table d item s
        ⟨⟨(item s).node ++ o.node.items, .ofToken (item s).state.lookahead :: o.node.separators⟩, o.verdict, o.state⟩

/-- A repetition that is only gone into at a token which its phrases pass over has finitely many turns. -/
theorem turns_many {leaves : μ → List Terminal} {reader : Reader μ} {kind : TokenKind} (h : Accounts leaves reader)
    (hp : PassesAt kind reader) (hd : ∀ k r, table.action d k = .descend r → k = kind) (hs : s.Ready) :
    Turns table d reader s (many table d reader s) := by
  fun_induction many table d reader s with
  | case1 s t hc => exact .giveUp hc
  | case2 s r t hc o hv _ others ih =>
    obtain ⟨es, -, -, -, hsome⟩ := run_choose table d hs
    rw [hc] at hsome
    have ht : t.Ready := (hsome _ rfl).1
    obtain ⟨fs, hr, -⟩ := h t ht
    exact .again hc hv (ih (hr.ready ht hv))
  | case3 s r t hc o _ hlt =>
    -- The token at which the repetition was gone into is passed over, so the test for progress succeeds.
    obtain ⟨es, hr, -, -, hsome⟩ := run_choose table d hs
    rw [hc] at hr hsome
    obtain ⟨ht, hact, -⟩ := hsome _ rfl
    have hpass := hp t ht (hd _ r hact)
    exact absurd (Nat.lt_of_lt_of_le hpass hr.remaining_le) hlt
  | case4 s r t hc o hv => exact .cut hc hv
  | case5 s a t hleave hc => exact .leave hc fun r hr => hleave r (by rw [hr])

/-- Reading items and separators has an end if the sentinel is not taken for a separator. -/
theorem items_separated {leaves : List μ → List Terminal} {item : Reader (List μ)} (h : Accounts leaves item)
    (hend : ∀ k, table.action d .endOfInput ≠ .take k) (hs : s.Ready) : Items table d item s (separated table d item s) := by
  fun_induction separated table d item s with
  | case1 s o hv k hk separator _ others ih =>
    obtain ⟨es, hr, -⟩ := h s hs
    have hready := hr.ready hs hv
    have hne : (item s).state.cursor.rest ≠ [] := hready.rest_ne_nil fun he => hend k (he ▸ hk)
    have hshift : Run _ _ (item s).state.shift := .ofMove (.shift hready.normal hne)
    exact .next hv hk (ih ⟨hshift.sealed hready.toSealed, hready.normal⟩)
  | case2 s o hv k hk separator hlt =>
    obtain ⟨es, hr, -⟩ := h s hs
    have hready := hr.ready hs hv
    have hne : (item s).state.cursor.rest ≠ [] := hready.rest_ne_nil fun he => hend k (he ▸ hk)
    exact absurd (Nat.lt_of_lt_of_le (State.remaining_shift_lt hne) hr.run.remaining_le) hlt
  | case3 s o hv hk => exact .last hv hk
  | case4 s o hv => exact .cut hv

/-! ## Where a parse gives up -/

/-- A run gives up in front of the sentinel only. -/
theorem Run.eq_sentinel_of_abandon {t : State} {es : List Event} (h : Run s es t) {rule : Rule} {x : Token}
    (hx : .abandon rule x ∈ es) : x = s.cursor.sentinel := by
  induction h with
  | refl => cases hx
  | head m _ ih =>
    rcases List.mem_append.1 hx with hx | hx
    · cases m with
      | abandon rule' ended =>
        obtain ⟨-, rfl⟩ : rule = rule' ∧ x = _ := by simpa using hx
        rw [State.lookahead, Cursor.peek, ended, List.headD_nil]
      | attempt | shift | close | drop | insert | mismatch | resume => simp at hx
    · rw [ih hx, m.effect.sentinel]

end Parser

open QuillFrontEnd.Parser

/-- With the table, each of the six repetitions of the grammar ends by itself wherever it is begun on track. -/
structure Table.Ends (table : Table) : Prop where
  globals : ∀ s : State, s.Ready → Turns table .moreGlobals (varDecl table) s (many table .moreGlobals (varDecl table) s)
  locals : ∀ s : State, s.Ready → Turns table .moreLocals (varDecl table) s (many table .moreLocals (varDecl table) s)
  functions : ∀ s : State, s.Ready →
    Turns table .moreFunctions (functionDecl table) s (many table .moreFunctions (functionDecl table) s)
  statements : ∀ s : State, s.Ready → Turns table .moreStatements statement s (many table .moreStatements statement s)
  names : ∀ s : State, s.Ready → Items table .moreNames declaredName s (separated table .moreNames declaredName s)
  params : ∀ s : State, s.Ready → Items table .moreParams (paramItem table) s (separated table .moreParams (paramItem table) s)

theorem Table.Orderly.ends {table : Table} (hT : table.Orderly) : table.Ends where
  globals _ hs := turns_many (accounts_varDecl hT).1 (accounts_varDecl hT).2 hT.moreGlobals hs
  locals _ hs := turns_many (accounts_varDecl hT).1 (accounts_varDecl hT).2 hT.moreLocals hs
  functions _ hs := turns_many (accounts_functionDecl hT).1 (accounts_functionDecl hT).2 hT.moreFunctions hs
  statements _ hs := turns_many accounts_statement statement_passesAt hT.moreStatements hs
  names _ hs := items_separated accounts_declaredName hT.moreNames hs
  params _ hs := items_separated (accounts_paramItem hT) hT.moreParams hs

/-- A table stays orderly when it comes to refuse more at its decisions. -/
theorem Table.Orderly.of_refusing {table table' : Table} (hT : table.Orderly)
    (h : ∀ d k, table'.action d k = .reject ∨ table'.action d k = table.action d k) : table'.Orderly := by
  have hsame : ∀ {d k a}, table'.action d k = a → a ≠ .reject → table.action d k = a := by
    intro d k a ha hne
    rcases h d k with hk | hk
    · exact absurd (ha.symm.trans hk) hne
    · rw [← hk, ha]
  exact {
    moreGlobals := fun k r hk => hT.moreGlobals k r (hsame hk nofun)
    moreLocals := fun k r hk => hT.moreLocals k r (hsame hk nofun)
    moreFunctions := fun k r hk => hT.moreFunctions k r (hsame hk nofun)
    afterFunctions := fun k hk hk' => by
      have hk'' := hsame rfl hk
      rw [← hk''] at hk hk'
      exact hT.afterFunctions k hk hk'
    moreStatements := fun k r hk => hT.moreStatements k r (hsame hk nofun)
    moreNames := fun k hk => hT.moreNames k (hsame hk nofun)
    moreParams := fun k hk => hT.moreParams k (hsame hk nofun)
    basicType := fun k hk => hT.basicType k (hsame hk nofun) }

theorem Table.Orderly.set_reject {table : Table} (hT : table.Orderly) (d : Decision) (k : TokenKind) :
    (table.set d k .reject).Orderly := by
  refine hT.of_refusing fun d' k' => ?_
  unfold Table.set
  dsimp only
  split
  · exact .inl rfl
  · exact .inr rfl

/-- The number of tokens that were consumed is the number of tokens. -/
theorem consumed_eq_size {table : Table} (hT : table.Orderly) (ts : TokenList) : (parseWith table ts).consumed = ts.size := by
  obtain ⟨es, t, hr, hend, htrace, hconsumed, -⟩ := parseWith_run hT ts
  have hpasses := passes_trace hT ts
  rw [htrace, passes_append] at hpasses
  rw [hconsumed, hr.effect.consumed, TokenList.size, ← hpasses]
  simp [State.initial]

/-- The standard table is orderly. With any orderly table the repetitions of the grammar end by themselves, so that no parse stalls;
a parse gives up with the end of the input before it; and it consumes as many tokens as there are. -/
theorem orderly_parse_ends :
    Table.standard.Orderly ∧ ∀ (table : Table) (ts : TokenList), table.Orderly →
      table.Ends ∧ (parseWith table ts).verdict ≠ .stalled ∧
      (∀ rule x, .abandon rule x ∈ (parseWith table ts).trace → x = ts.sentinel ∧ x.isEnd = true) ∧
      (parseWith table ts).consumed = ts.size := by
  refine ⟨Table.standard_orderly, fun table ts hT => ?_⟩
  obtain ⟨es, t, hr, -, htrace, -, hv, -⟩ := parseWith_run hT ts
  refine ⟨hT.ends, hv, fun rule x hx => ?_, consumed_eq_size hT ts⟩
  have hmem : .abandon rule x ∈ es := by
    rw [← List.mem_reverse, htrace] at hx
    simpa using hx
  obtain rfl : x = ts.sentinel := hr.eq_sentinel_of_abandon hmem
  exact ⟨rfl, ts.sentinel_isEnd⟩

/-- A table that refuses the end of the input where global declarations may come: a header alone makes the parse give up. -/
theorem orderly_parse_ends_after_header :
    let table := Table.standard.set .moreGlobals .endOfInput .reject
    let ts := TokenList.ofKinds [.program, .identifier, .colon]
    table.Orderly ∧ (parseWith table ts).isFatal = true ∧ .abandon .globalVars ts.sentinel ∈ (parseWith table ts).trace ∧
      (parseWith table ts).verdict ≠ .stalled ∧ ts.sentinel.isEnd = true ∧ (parseWith table ts).consumed = ts.size := by
  intro table ts
  have hT : table.Orderly := Table.standard_orderly.set_reject _ _
  have hgaveUp : .abandon .globalVars ts.sentinel ∈ (parseWith table ts).trace := by decide +kernel
  obtain ⟨-, hv, hat, hconsumed⟩ := orderly_parse_ends.2 table ts hT
  exact ⟨hT, by decide +kernel, hgaveUp, hv, (hat _ _ hgaveUp).2, hconsumed⟩

end QuillFrontEnd
