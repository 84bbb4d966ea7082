import QuillFrontEnd.Proofs.Language
import QuillFrontEnd.Proofs.Locality
import Mathlib.Order.Bounds.Defs

/-!
# The first report is at the first token that no program has

Where the input is not a program there is a first token up to which it is not the beginning of a program either. The parser takes
all tokens before it into the tree and reports something at that very token: not later, since what it takes quietly is the
beginning of a program, and not earlier, since it cannot have seen any difference from a program that begins in that way.
-/

namespace QuillFrontEnd

open QuillFrontEnd.Parser

/-- A sequence of kinds that is the beginning of a program. -/
def IsProgramPrefix (u : List TokenKind) : Prop := ∃ w, IsProgram w ∧ u <+: w

theorem IsProgramPrefix.of_prefix {u v : List TokenKind} (h : IsProgramPrefix v) (huv : u <+: v) : IsProgramPrefix u := by
  obtain ⟨w, hw, hv⟩ := h
  exact ⟨w, hw, huv.trans hv⟩

/-- What a parse takes before its first complaint is the beginning of a program. -/
theorem isProgramPrefix_quietPart (ts : TokenList) : IsProgramPrefix (shiftedKinds (quietPart (parse ts).trace.reverse)) := by
  have h := parse_viable ts
  by_cases hq : Quiet (parse ts).trace.reverse
  · rw [quietPart_of_quiet hq]
    exact ⟨_, h.derives hq, List.prefix_rfl⟩
  · obtain ⟨w, hw, hpre⟩ := h.begins hq
    exact ⟨w, hw, hpre⟩

/-- A parse takes all that is in its quiet part into the tree: what it skips comes after that. -/
theorem split_at_quietPart (ts : TokenList) :
    (parse ts).tree.terminals.map Terminal.toToken =
        shifts (quietPart (parse ts).trace.reverse) ++ shifts (noisyPart (parse ts).trace.reverse) ∧
      (parse ts).skipped = drops (noisyPart (parse ts).trace.reverse) ∧
      ts.toList = shifts (quietPart (parse ts).trace.reverse) ++ passes (noisyPart (parse ts).trace.reverse) := by
  have hterminals : (parse ts).tree.terminals.map Terminal.toToken = shifts (parse ts).trace.reverse :=
    terminals_eq_shifts Table.standard_orderly ts
  have hskipped : (parse ts).skipped = drops (parse ts).trace.reverse := rfl
  have hpasses : passes (parse ts).trace.reverse = ts.toList := passes_trace Table.standard_orderly ts
  have hparts := quietPart_append_noisyPart (parse ts).trace.reverse
  have hquiet := quiet_quietPart (parse ts).trace.reverse
  refine ⟨?_, ?_, ?_⟩
  · rw [hterminals, ← shifts_append, hparts]
  · rw [hskipped, ← hparts, drops_append, drops_eq_nil_of_quiet hquiet, List.nil_append, hparts]
  · rw [← hpasses, ← passes_eq_shifts_of_quiet hquiet, ← passes_append, hparts]

/-- A parse that is not quiet has a first report, at the first token that its quiet part does not take. -/
theorem exists_first_report {ts : TokenList} (hq : ¬Quiet (parse ts).trace.reverse) :
    ∃ d ds x xs, (parse ts).diagnostics = d :: ds ∧ d.AnchoredAt x ∧
      ts.toList = shifts (quietPart (parse ts).trace.reverse) ++ x :: xs := by
  obtain ⟨es, t, hr, -, htrace, -⟩ := parseWith_run Table.standard_orderly ts
  have hdiag : (parse ts).diagnostics = reports (parse ts).trace.reverse := rfl
  rw [hdiag]
  rw [parse, htrace] at hq ⊢
  have hes : ¬Quiet es := fun hes => hq (by simpa using hes)
  obtain ⟨d, ds, x, xs, hd, hahead, hanchor⟩ := hr.reportsFirst hes rfl
  refine ⟨d, ds, x, xs, ?_, hanchor, ?_⟩
  · rw [reports_append, hd]
    simp
  · rw [quietPart_append_of_not_quiet hes, ← hahead]
    rfl

/-- A beginning of a program, with given tokens for it, is the beginning of a token list whose parse is quiet. -/
theorem IsProgramPrefix.exists_quiet_parse {p : List Token} (h : IsProgramPrefix (p.map Token.kind))
    (hp : ∀ t ∈ p, t.isEnd = false) : ∃ ts : TokenList, p <+: ts.body ∧ Quiet (parse ts).trace.reverse := by
  obtain ⟨_, hw, v, rfl⟩ := h
  have hkinds : (p ++ v.map Token.placeholder).map Token.kind = p.map Token.kind ++ v := by
    rw [List.map_append, List.map_map]
    exact congrArg _ (List.map_id v)
  rw [← hkinds] at hw
  obtain ⟨ts, hts⟩ := hw.exists_tokenList
  rw [← hts] at hw
  obtain ⟨-, -, -, hq, -⟩ := exists_tree_of_isProgram hw
  refine ⟨ts, ?_, hq⟩
  have hpre : p <+: ts.body ++ [ts.sentinel] := ⟨v.map Token.placeholder, hts.symm⟩
  rcases List.prefix_concat_iff.1 hpre with heq | hpre
  · -- The sentinel is not among the tokens of `p`.
    have hend := hp ts.sentinel (by rw [heq]; simp)
    rw [ts.sentinel_isEnd] at hend
    cases hend
  · exact hpre

/-- No program begins with what a parse takes before its first complaint and the token after it. -/
theorem not_isProgramPrefix_of_not_quiet {ts : TokenList} (hq : ¬Quiet (parse ts).trace.reverse) {x : Token} {xs : List Token}
    (hts : ts.toList = shifts (quietPart (parse ts).trace.reverse) ++ x :: xs) :
    ¬IsProgramPrefix ((shifts (quietPart (parse ts).trace.reverse) ++ [x]).map Token.kind) := by
  intro hprog
  have hpre : shifts (quietPart (parse ts).trace.reverse) ++ [x] <+: ts.body ++ [ts.sentinel] := by
    refine ⟨xs, ?_⟩
    rw [List.append_assoc, List.singleton_append, ← hts]
    rfl
  rcases List.prefix_concat_iff.1 hpre with heq | hbody
  · -- All tokens were taken but the sentinel, and a program cannot go on after it.
    obtain ⟨w, hw, hbegins⟩ := hprog
    rw [heq, List.map_append, List.map_singleton, ts.kind_sentinel] at hbegins
    have hkinds : ts.kinds = ts.body.map Token.kind ++ [.endOfInput] := by
      rw [TokenList.kinds, TokenList.toList, List.map_append, List.map_singleton, ts.kind_sentinel]
    rw [hw.eq_of_prefix hbegins, ← hkinds] at hw
    obtain ⟨-, -, -, hquiet, -⟩ := exists_tree_of_isProgram hw
    exact hq hquiet
  · have hnone : ∀ t ∈ shifts (quietPart (parse ts).trace.reverse) ++ [x], t.isEnd = false :=
      fun t ht => ts.body_isEnd t (hbody.subset ht)
    obtain ⟨ts', hbody', hq'⟩ := hprog.exists_quiet_parse hnone
    rcases parse_prefix_local .standard hbody hbody' with ⟨es, y, y', hes, hes'⟩ | ⟨es, hp, hes, hes'⟩
    · rw [parse, hes'] at hq'
      apply hq
      rw [parse, hes]
      simpa using hq'
    · -- Both parses take the token `x`, which is after all that is taken quietly here.
      have hquiet : Quiet es := fun e he => hq' e (hes'.subset he)
      obtain ⟨gs, hgs⟩ := prefix_quietPart hes hquiet
      have hlen := congrArg (fun l => (shifts l).length) hgs
      have hplen := congrArg List.length hp
      rw [passes_eq_shifts_of_quiet hquiet] at hplen
      simp only [shifts_append, List.length_append, List.length_singleton] at hlen hplen
      have hsame : (shifts (quietPart (parse ts).trace.reverse)).length =
          (shifts (quietPart (parseWith .standard ts).trace.reverse)).length := rfl
      omega

/-- Where a list is not a program there is a least place such that no program begins with the kinds up to it. The first report of
the parse is at the token in that place; the tokens before it are in the tree, and what is skipped comes at it or later. -/
theorem first_report_at_first_impossible_token (ts : TokenList) (h : ¬IsProgram ts.kinds) :
    ∃ i t d ds later, IsLeast {j | ¬IsProgramPrefix (ts.kinds.take (j + 1))} i ∧ ts.get? i = some t ∧
      (parse ts).diagnostics = d :: ds ∧ d.AnchoredAt t ∧
      (parse ts).tree.terminals.map Terminal.toToken = ts.toList.take i ++ later ∧
      Merge later (parse ts).skipped (ts.toList.drop i) := by
  have hq : ¬Quiet (parse ts).trace.reverse := fun hq => h (isProgram_of_quiet hq)
  obtain ⟨d, ds, x, xs, hdiag, hanchor, hts⟩ := exists_first_report hq
  have hviable := isProgramPrefix_quietPart ts
  have himpossible := not_isProgramPrefix_of_not_quiet hq hts
  obtain ⟨hterminals, hskipped, hpasses⟩ := split_at_quietPart ts
  rw [shiftedKinds] at hviable
  generalize shifts (quietPart (parse ts).trace.reverse) = before at *
  refine ⟨before.length, x, d, ds, shifts (noisyPart (parse ts).trace.reverse), ⟨?_, ?_⟩, ?_, hdiag, hanchor, ?_, ?_⟩
  · have htake : ts.kinds.take (before.length + 1) = (before ++ [x]).map Token.kind := by
      rw [TokenList.kinds, ← List.map_take, hts, List.take_length_add_append]
      rfl
    change ¬IsProgramPrefix _
    rw [htake]
    exact himpossible
  · -- The kinds up to an earlier place are among those that were taken.
    intro j hj
    by_contra hlt
    apply hj
    refine hviable.of_prefix ?_
    rw [TokenList.kinds, ← List.map_take, hts, List.take_append_of_le_length (by omega)]
    exact (List.take_prefix _ _).map _
  · rw [TokenList.get?, hts]
    simp
  · rw [hts, List.take_left]
    exact hterminals
  · rw [hpasses, List.drop_left, hskipped]
    exact merge_passes _

theorem first_report_at_first_impossible_token_of_comma :
    let ts := TokenList.ofKinds [.program, .identifier, .colon, .var, .numberType, .comma, .semicolon]
    ¬IsProgram ts.kinds ∧
      ∃ i t d ds later, IsLeast {j | ¬IsProgramPrefix (ts.kinds.take (j + 1))} i ∧ ts.get? i = some t ∧
        (parse ts).diagnostics = d :: ds ∧ d.AnchoredAt t ∧
        (parse ts).tree.terminals.map Terminal.toToken = ts.toList.take i ++ later ∧
        Merge later (parse ts).skipped (ts.toList.drop i) := by
  intro ts
  have hnot : ¬IsProgram ts.kinds := by
    intro hprog
    obtain ⟨-, -, -, hq, -⟩ := exists_tree_of_isProgram hprog
    have hclean := (isClean_iff_quiet ts).2 hq
    revert hclean
    decide +kernel
  exact ⟨hnot, first_report_at_first_impossible_token ts hnot⟩

end QuillFrontEnd
