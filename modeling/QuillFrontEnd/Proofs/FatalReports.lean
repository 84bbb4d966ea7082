import QuillFrontEnd.Proofs.Keywords
import QuillFrontEnd.Proofs.Repair
import QuillFrontEnd.Proofs.Truncation

/-!
# Fatal reports

A parse gives up with a fatal report at the end of the input, and only after an error of which it could not recover. If it does not
give up it has come to the main block: in front of the keyword or the brace of the main block it takes that token, and in front of
any other it fails.
-/

namespace QuillFrontEnd

namespace Parser

variable {s : State}

/-! ## Coming to the main block -/

/-- A block in front of its brace takes it. -/
theorem left_block (hnext : s.nextKind = .leftBrace) : (block .standard s).node.left = .ofToken s.lookahead := by
  unfold block
  refine Opens.eq_ofToken ⟨fun _ => rfl, ?_, fun _ _ => rfl, fun _ _ => rfl⟩ hnext
  exact .cons (.child fun _ _ => rfl) <| .cons (.terminal fun _ _ => rfl) .nil

/-- A main block that is read starts with its keyword, or with the brace of its block if the keyword is missing. -/
theorem mainBlock_of_matched (h : (mainBlock .standard s).verdict = .matched) :
    (mainBlock .standard s).node.keyword.Holds .main ∨ (mainBlock .standard s).node.block.left.Holds .leftBrace := by
  by_cases hmain : s.nextKind = .main
  · rw [keyword_mainBlock hmain]
    exact .inl (Terminal.holds_ofToken.2 hmain)
  · have hnext : ¬((s.attempt (.rule .main)).attempt (.terminal .main)).nextKind = .main := hmain
    unfold mainBlock phrase at h ⊢
    rw [recover_of_no_policy rfl] at h ⊢
    by_cases hbrace : s.nextKind = .leftBrace
    · have hfollow : ((s.attempt (.rule .main)).attempt (.terminal .main)).nextKind ∈ Rule.block.first := by
        rw [State.nextKind_attempt, State.nextKind_attempt, hbrace]
        decide
      have hinserted := terminal_eq .main .main Rule.block.first (fun (n : MainBlock) t => { n with keyword := t }) {}
        (s.attempt (.rule .main))
      rw [if_neg hnext, if_pos hfollow] at hinserted
      rw [sequence_cons_of_matched _ (by rw [hinserted]), sequence_singleton, hinserted]
      have hleft : (block .standard (((s.attempt (.rule .main)).attempt (.terminal .main)).insert .main .main)).node.left =
          .ofToken s.lookahead := left_block hbrace
      exact .inr (hleft.symm ▸ Terminal.holds_ofToken.2 hbrace)
    · have hfollow : ((s.attempt (.rule .main)).attempt (.terminal .main)).nextKind ∉ Rule.block.first := by
        rw [State.nextKind_attempt, State.nextKind_attempt]
        revert hbrace
        cases s.nextKind <;> decide
      rw [sequence, terminal_eq, if_neg hnext, if_neg hfollow] at h
      cases h

/-- The main block of a program that is read is one that was read. -/
theorem exists_main_of_matched {n : Program} (h : (sequence (programSteps .standard) n s).verdict = .matched) :
    ∃ t, (mainBlock .standard t).verdict = .matched ∧
      (sequence (programSteps .standard) n s).node.main = (mainBlock .standard t).node := by
  have hkeeps : Keeps Program.main (sequence [nothingLeft]) := by
    intro n s
    rw [sequence_singleton]
    unfold nothingLeft
    split <;> rfl
  unfold programSteps at h ⊢
  have hheader := sequence_cons_matched h
  rw [sequence_cons_of_matched _ hheader] at h ⊢
  have hglobals := sequence_cons_matched h
  rw [sequence_cons_of_matched _ hglobals] at h ⊢
  have hfunctions := sequence_cons_matched h
  rw [sequence_cons_of_matched _ hfunctions] at h ⊢
  refine ⟨_, (mainStep_of_matched (sequence_cons_matched h)).1, ?_⟩
  rw [hkeeps.after]
  unfold mainStep
  dsimp only
  split <;> rfl

end Parser

open QuillFrontEnd.Parser

/-! ## Whole parses -/

/-- A parse that does not give up has come to the main block. -/
theorem main_of_matched {ts : TokenList} (h : (parse ts).verdict = .matched) :
    (parse ts).tree.main.keyword.Holds .main ∨ (parse ts).tree.main.block.left.Holds .leftBrace := by
  obtain ⟨-, hverdict, span, hnode⟩ := program_eq .standard (.initial ts)
  have hv : (program .standard (.initial ts)).verdict = .matched := h
  have htree : (parse ts).tree = (program .standard (.initial ts)).node := rfl
  rw [hverdict] at hv
  obtain ⟨t, ht, hmain⟩ := exists_main_of_matched hv
  rw [htree, hnode]
  dsimp only
  rw [hmain]
  exact mainBlock_of_matched ht

/-- A report that is not fatal is an error, and does not say that the input has ended. -/
theorem error_of_not_fatal {ts : TokenList} {d : Diagnostic} (hd : d ∈ (parse ts).diagnostics) (h : d.isFatal = false) :
    d.severity = .error ∧ d.code ≠ .endOfInput := by
  obtain ⟨c, t, -, hvoices⟩ := voices_parse ts d hd
  have hc : c ≠ .ended := fun hc => absurd (hvoices.isFatal_iff.2 hc) (by simp [h])
  rw [hvoices.severity, hvoices.code]
  cases c with
  | ended => exact absurd rfl hc
  | missing | unexpected | skipped | thirdDimension | trailing => exact ⟨rfl, nofun⟩

/-- Of the reports of a parse that gives up the last one, and no other, is fatal. It says that the input has ended, is at the point
before the sentinel, and comes after an error; and all others are errors that say something else. In a parse that does not give up
all reports are such errors, and the parse has taken the keyword of the main block or the brace of its block. -/
theorem fatal_report_last (ts : TokenList) :
    ((parse ts).isFatal = true ∧ ∃ front d, (parse ts).diagnostics = front ++ [d] ∧ d.severity = .fatal ∧ d.code = .endOfInput ∧
      d.span = .point ts.sentinel.span.start ∧ d.position = ts.sentinel.position ∧ (∃ e ∈ front, e.severity = .error) ∧
      ∀ e ∈ front, e.severity = .error ∧ e.code ≠ .endOfInput) ∨
    ((parse ts).isFatal = false ∧ (∀ d ∈ (parse ts).diagnostics, d.severity = .error ∧ d.code ≠ .endOfInput) ∧
      ((parse ts).tree.main.keyword.Holds .main ∨ (parse ts).tree.main.block.left.Holds .leftBrace)) := by
  have hfatal : (parse ts).isFatal = (parse ts).diagnostics.any Diagnostic.isFatal := rfl
  rcases fatal_parse ts with ⟨hv, hcalm⟩ | ⟨hv, front, d, hdiag, hcalm, hd⟩
  · refine .inr ⟨?_, fun d hd => error_of_not_fatal hd (hcalm d hd), main_of_matched hv⟩
    rw [hfatal, List.any_eq_false]
    exact fun d hd => Bool.eq_false_iff.1 (hcalm d hd)
  · have hmem : ∀ e ∈ front, e ∈ (parse ts).diagnostics := fun e he => hdiag ▸ List.mem_append_left _ he
    have herrors : ∀ e ∈ front, e.severity = .error ∧ e.code ≠ .endOfInput := fun e he =>
      error_of_not_fatal (hmem e he) (hcalm e he)
    have hbefore : ∃ e ∈ front, e.severity = .error := by
      by_contra hnone
      have hempty : ∀ e ∈ (parse ts).diagnostics, e.code ∉ Diagnostic.lostCodes := by
        intro e he
        rw [hdiag, List.mem_append, List.mem_singleton] at he
        rcases he with he | rfl
        · exact absurd ⟨e, he, (herrors e he).1⟩ hnone
        · rw [hd.code]
          decide
      rw [(matched_of_mended hempty).1] at hv
      cases hv
    refine .inl ⟨?_, front, d, hdiag, hd.severity, hd.code, ?_, hd.standsAt.position, hbefore, herrors⟩
    · rw [hfatal, hdiag]
      simp [hd.isFatal_iff.2 rfl]
    · rw [hd.standsAt.span, hd.code]
      rfl

end QuillFrontEnd
