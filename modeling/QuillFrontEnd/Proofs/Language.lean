import QuillFrontEnd.Proofs.Following
import QuillFrontEnd.Proofs.RoundTrip

/-!
# The language that is read

A parse is clean exactly on the programs of the grammar. It undoes the flattening of complete trees: parsing the terminals of a
complete tree is clean and gives the tree back, and a clean parse gives the only complete tree with the tokens that were parsed.
-/

namespace QuillFrontEnd

open QuillFrontEnd.Parser

theorem TokenList.kind_sentinel (ts : TokenList) : ts.sentinel.kind = .endOfInput := by
  simpa [Token.isEnd] using ts.sentinel_isEnd

/-! ## Clean parses -/

/-- Nothing is reported exactly if all goes by the grammar. -/
theorem diagnostics_eq_nil_iff_quiet (ts : TokenList) : (parse ts).diagnostics = [] ↔ Quiet (parse ts).trace.reverse := by
  obtain ⟨es, t, hr, -, htrace, -⟩ := parseWith_run Table.standard_orderly ts
  have hdiag : (parse ts).diagnostics = reports es := diagnostics_of_trace htrace
  rw [hdiag, parse, htrace]
  constructor
  · intro hnil
    by_contra hq
    have hes : ¬Quiet es := fun hes => hq (by simpa using hes)
    obtain ⟨d, ds, -, -, hd, -⟩ := hr.reportsFirst hes rfl
    rw [hnil] at hd
    cases hd
  · intro hq
    exact reports_eq_nil_of_quiet (by simpa using hq)

/-- A parse is clean exactly if all goes by the grammar. -/
theorem isClean_iff_quiet (ts : TokenList) : (parse ts).isClean = true ↔ Quiet (parse ts).trace.reverse := by
  have hskip : (parse ts).skipped = drops (parse ts).trace.reverse := rfl
  rw [ParseOutput.isClean, Bool.and_eq_true, List.isEmpty_iff, List.isEmpty_iff, diagnostics_eq_nil_iff_quiet]
  constructor
  · exact fun h => h.1
  · intro hq
    refine ⟨hq, ?_⟩
    rw [hskip]
    exact drops_eq_nil_of_quiet hq

/-- A parse that goes by the grammar takes every token into the tree. -/
theorem shifts_of_quiet {ts : TokenList} (hq : Quiet (parse ts).trace.reverse) :
    shifts (parse ts).trace.reverse = ts.toList := by
  rw [← passes_eq_shifts_of_quiet hq]
  exact passes_trace Table.standard_orderly ts

/-- The tokens of a program are those of a complete tree, and a parse of them is clean and gives that tree. -/
theorem exists_tree_of_isProgram {ts : TokenList} (h : IsProgram ts.kinds) :
    ∃ t : Program, t.Complete ∧ takenTokens t.element.leaves = ts.toList ∧ Quiet (parse ts).trace.reverse ∧
      (parse ts).tree.bare = t.bare := by
  obtain ⟨t, ht, hts⟩ := (realized_program ts.toList).1 h
  obtain ⟨hq, hbare⟩ := parse_of_complete ht hts
  exact ⟨t, ht, hts, hq, hbare⟩

/-- The tree of a program is complete, and its tokens are those that were parsed. -/
theorem complete_tree_of_isProgram {ts : TokenList} (h : IsProgram ts.kinds) :
    (parse ts).tree.Complete ∧ takenTokens (parse ts).tree.element.leaves = ts.toList := by
  obtain ⟨t, ht, -, hq, hbare⟩ := exists_tree_of_isProgram h
  constructor
  · rw [← Program.complete_bare, hbare, Program.complete_bare]
    exact ht
  · rw [← Program.map_toToken_terminals, parse, terminals_eq_shifts Table.standard_orderly ts, ← parse, shifts_of_quiet hq]

/-- What a parse reads without complaint is a program. -/
theorem isProgram_of_quiet {ts : TokenList} (hq : Quiet (parse ts).trace.reverse) : IsProgram ts.kinds := by
  have h := (parse_viable ts).derives hq
  rw [shiftedKinds, shifts_of_quiet hq] at h
  exact h

/-- A parse is clean if and only if the kinds of its tokens are derived from the start rule of the grammar, and if and only if
nothing is reported. -/
theorem clean_iff_isProgram (ts : TokenList) :
    ((parse ts).isClean = true ↔ IsProgram ts.kinds) ∧ ((parse ts).isClean = true ↔ (parse ts).diagnostics = []) := by
  rw [isClean_iff_quiet, diagnostics_eq_nil_iff_quiet]
  refine ⟨⟨isProgram_of_quiet, fun h => ?_⟩, Iff.rfl⟩
  obtain ⟨-, -, -, hq, -⟩ := exists_tree_of_isProgram h
  exact hq

/-! ## Flattening -/

/-- The token list of the terminals of a tree that were taken, from left to right. -/
def Program.flatten (t : Program) : TokenList := .ofTokens (t.terminals.map Terminal.toToken)

/-- The tokens of a program are a token list: the end of the input is the last of them, and no other. -/
theorem IsProgram.exists_tokenList {ts : List Token} (h : IsProgram (ts.map Token.kind)) :
    ∃ tl : TokenList, tl.toList = ts := by
  obtain ⟨u, hu, hend⟩ := h.exists_body
  obtain ⟨body, sentinel, rfl, rfl, hs⟩ := List.map_eq_append_iff.1 hu
  obtain ⟨e, rfl, he⟩ := List.map_eq_singleton_iff.1 hs
  refine ⟨⟨body, e, ?_, by rw [Token.isEnd, he]; rfl⟩, rfl⟩
  intro t ht
  have hk : t.kind ≠ .endOfInput := fun hk => hend (List.mem_map.2 ⟨t, ht, hk⟩)
  simpa [Token.isEnd] using hk

/-- A complete tree is determined by its tokens, but for spans. -/
theorem Program.Complete.bare_eq_of_takenTokens_eq {n m : Program} (hn : n.Complete) (hm : m.Complete)
    (h : takenTokens n.element.leaves = takenTokens m.element.leaves) : n.bare = m.bare := by
  obtain ⟨tl, htl⟩ := IsProgram.exists_tokenList ((realized_program _).2 ⟨n, hn, rfl⟩)
  rw [← (parse_of_complete hn htl.symm).2, (parse_of_complete hm (h.symm.trans htl.symm)).2]

/-- The tokens of a flattened complete tree are its terminals. -/
theorem Program.Complete.toList_flatten {t : Program} (ht : t.Complete) :
    t.flatten.toList = takenTokens t.element.leaves := by
  obtain ⟨tl, htl⟩ := IsProgram.exists_tokenList ((realized_program _).2 ⟨t, ht, rfl⟩)
  rw [Program.flatten, Program.map_toToken_terminals, ← htl, TokenList.ofTokens_toList]

/-- Parsing the terminals of a complete tree is clean, and gives the tree back in every field but the spans of its nodes. So
complete trees with the same terminals are the same but for spans, and a clean parse gives a complete tree which is the only one
with the tokens that were parsed. -/
theorem parse_undoes_flatten :
    (∀ t : Program, t.Complete → (parse t.flatten).isClean = true ∧ (parse t.flatten).tree.bare = t.bare) ∧
      (∀ t u : Program, t.Complete → u.Complete → t.flatten = u.flatten → t.bare = u.bare) ∧
      ∀ ts : TokenList, (parse ts).isClean = true →
        (parse ts).tree.Complete ∧ (parse ts).tree.flatten = ts ∧
          ∀ t : Program, t.Complete → t.flatten = ts → t.bare = (parse ts).tree.bare := by
  have back : ∀ t : Program, t.Complete → Quiet (parse t.flatten).trace.reverse ∧ (parse t.flatten).tree.bare = t.bare :=
    fun t ht => parse_of_complete ht ht.toList_flatten.symm
  refine ⟨?_, ?_, ?_⟩
  · intro t ht
    rw [isClean_iff_quiet]
    exact back t ht
  · intro t u ht hu htu
    rw [← (back t ht).2, htu, (back u hu).2]
  · intro ts hclean
    have hq := (isClean_iff_quiet ts).1 hclean
    obtain ⟨t, ht, -, -, hbare⟩ := exists_tree_of_isProgram (isProgram_of_quiet hq)
    refine ⟨?_, ?_, ?_⟩
    · rw [← Program.complete_bare, hbare, Program.complete_bare]
      exact ht
    · have hterm := terminals_eq_shifts Table.standard_orderly ts
      rw [Program.flatten, parse, hterm, ← parse, shifts_of_quiet hq, TokenList.ofTokens_toList]
    · intro u hu hts
      rw [← hts, (back u hu).2]

/-- The tree of the program `program x: var number[0] x, x; function x(number x) {} main {;}`, with placeholders for its tokens. -/
def Program.sample : Program :=
  let terminal := fun k => Terminal.ofToken (.placeholder k)
  let extent : Extent := { left := terminal .leftBracket, size := terminal .integer, right := terminal .rightBracket }
  let type : TypeSpec := { basic := { keyword := terminal .numberType }, first := some { extent := extent } }
  let decl : VarDecl :=
    { keyword := terminal .var, type := type, names := ⟨[terminal .identifier, terminal .identifier], [terminal .comma]⟩,
      semicolon := terminal .semicolon }
  let param : Param := { type := { keyword := terminal .numberType }, name := terminal .identifier }
  let function : FunctionDecl :=
    { keyword := terminal .function, name := terminal .identifier, left := terminal .leftParen,
      params := some { params := ⟨[param], []⟩ }, right := terminal .rightParen,
      body := { left := terminal .leftBrace, right := terminal .rightBrace } }
  let statement : Statement := { semicolon := terminal .semicolon }
  let block : Block := { left := terminal .leftBrace, statements := [statement], right := terminal .rightBrace }
  { keyword := terminal .program, name := terminal .identifier, colon := terminal .colon, globals := { decls := [decl] },
    functions := { decls := [function] }, main := { keyword := terminal .main, block := block }, eof := terminal .endOfInput }

theorem parse_undoes_flatten_sample :
    Program.sample.Complete ∧ (parse Program.sample.flatten).isClean = true ∧
      (parse Program.sample.flatten).tree.bare = Program.sample.bare := by
  have hsample : Program.sample.Complete := by decide
  exact ⟨hsample, parse_undoes_flatten.1 _ hsample⟩

end QuillFrontEnd
