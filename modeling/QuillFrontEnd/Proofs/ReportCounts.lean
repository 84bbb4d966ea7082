import QuillFrontEnd.Proofs.Cascades
import QuillFrontEnd.Proofs.TokenOrder

/-!
# How many reports there are

The complaints at one token are a cascade, and cascades are short: there are at most two reports at a token, and at most three at
the end of the input. So the number of reports is bounded by the number of tokens, whatever the input is.
-/

namespace QuillFrontEnd

/-- The most complaints that may stand at a token of a kind. -/
def Complaint.most (k : TokenKind) : Nat := if k = .endOfInput then 3 else 2

theorem Complaint.most_of_ne {k : TokenKind} (h : k ≠ .endOfInput) : most k = 2 := if_neg h

theorem Complaint.most_le (k : TokenKind) : most k ≤ 3 := by
  unfold most
  split <;> omega

theorem Complaint.Allowed.length_le {cs : List Complaint} {k : TokenKind} (h : Allowed cs k) : cs.length ≤ most k := by
  cases cs with
  | nil => exact Nat.zero_le _
  | cons c cs =>
    by_cases hcs : cs = []
    · subst hcs
      rw [List.length_singleton, most]
      split <;> omega
    · exact h.of_cascades (P := fun cs k => cs.length ≤ most k) hcs (by decide)

namespace Parser

variable {xs : List Token} {trace : List Event} {t : Token} {cs : List Complaint}

theorem Standing.allowed (h : Standing xs trace t cs) : Complaint.Allowed cs t.kind := by
  induction h with
  | start | pass => trivial
  | silent _ _ _ ih => exact ih
  | report _ _ _ hallowed _ => exact hallowed

/-- The number of reports at a place. -/
def reportsAt (i : Nat) (es : List Event) : Nat := (placesOf Event.reported? 0 es).countP fun p => p.1 == i

/-- An event adds to the reports at the place of the next token exactly if it is one. -/
theorem reportsAt_reverse_cons (i : Nat) (e : Event) (es : List Event) :
    reportsAt i (e :: es).reverse =
      reportsAt i es.reverse + if e.reported?.isSome ∧ (passes es.reverse).length = i then 1 else 0 := by
  rw [reportsAt, placesOf_reverse_cons, List.countP_append, reportsAt]
  cases e.reported? with
  | none => simp
  | some d => by_cases h : (passes es.reverse).length = i <;> simp [h]

theorem passes_reverse_cons (e : Event) (es : List Event) :
    (passes (e :: es).reverse).length = (passes es.reverse).length + if e.passed?.isSome then 1 else 0 := by
  rw [List.reverse_cons, passes_append, List.length_append, passes_cons]
  cases e.passed? <;> rfl

theorem reported?_of_passed? {e : Event} {x : Token} (h : e.passed? = some x) : e.reported? = none := by
  cases e <;> first | rfl | cases h

/-- At the next token there are as many reports as complaints stand there, at every token before it there are at most two, and
there is none at any token behind it. -/
theorem Standing.reportsAt_le (h : Standing xs trace t cs) :
    reportsAt (passes trace.reverse).length trace.reverse = cs.length ∧
      (∀ i < (passes trace.reverse).length, reportsAt i trace.reverse ≤ 2) ∧
      ∀ i, (passes trace.reverse).length < i → reportsAt i trace.reverse = 0 := by
  induction h with
  | start => exact ⟨rfl, nofun, fun _ _ => rfl⟩
  | @pass es t cs e t' hcs hend he ih =>
    obtain ⟨hnext, hbefore, hbehind⟩ := ih
    -- No event moves over a token and reports something.
    simp only [reportsAt_reverse_cons, reported?_of_passed? he, Option.isSome_none, Bool.false_eq_true, false_and, if_false,
      Nat.add_zero, passes_reverse_cons, he, Option.isSome_some, if_true]
    refine ⟨hbehind _ (Nat.lt_succ_self _), fun i hi => ?_, fun i hi => hbehind i (by omega)⟩
    rcases Nat.lt_succ_iff_lt_or_eq.1 hi with hi | rfl
    · exact hbefore i hi
    · have hle := hcs.allowed.length_le
      rw [Complaint.most_of_ne hend] at hle
      omega
  | @silent es t cs e _ hpass hreport ih =>
    simp only [reportsAt_reverse_cons, hreport, Option.isSome_none, Bool.false_eq_true, false_and, if_false, Nat.add_zero,
      passes_reverse_cons, hpass]
    exact ih
  | @report es t cs d c _ _ _ _ ih =>
    obtain ⟨hnext, hbefore, hbehind⟩ := ih
    simp only [reportsAt_reverse_cons, passes_reverse_cons, Event.reported?, Event.passed?, Option.isSome_some, Option.isSome_none,
      true_and, Bool.false_eq_true, if_false, Nat.add_zero]
    refine ⟨by rw [if_pos trivial, hnext, List.length_cons], fun i hi => ?_, fun i hi => ?_⟩
    · rw [if_neg (Nat.ne_of_gt hi)]
      exact hbefore i hi
    · rw [if_neg (Nat.ne_of_lt hi)]
      exact hbehind i hi

/-- There are at most two reports for each token that was moved over, and those that stand at the next one. -/
theorem Standing.length_reports_le (h : Standing xs trace t cs) :
    (reports trace.reverse).length ≤ 2 * (passes trace.reverse).length + cs.length := by
  induction h with
  | start => exact Nat.le_refl _
  | @pass es t cs e t' hcs hend he ih =>
    have hle := hcs.allowed.length_le
    rw [Complaint.most_of_ne hend] at hle
    rw [reports_reverse_cons, reported?_of_passed? he, passes_reverse_cons, he]
    simp only [Option.toList_none, List.append_nil, Option.isSome_some, if_true, List.length_nil]
    omega
  | @silent es t cs e _ hpass hreport ih =>
    rw [reports_reverse_cons, hreport, passes_reverse_cons, hpass]
    simpa using ih
  | @report es t cs d c _ _ _ _ ih =>
    rw [reports_reverse_cons, passes_reverse_cons, List.length_append, List.length_cons]
    simp only [Event.reported?, Event.passed?, Option.toList_some, List.length_singleton, Option.isSome_none, Bool.false_eq_true,
      if_false]
    omega

end Parser

open QuillFrontEnd.Parser

/-! ## Whole parses -/

/-- The reports of a whole parse, by the places of their tokens: at most two before the sentinel, and at most three there. -/
theorem reportsAt_parse (ts : TokenList) :
    (∀ i < ts.body.length, reportsAt i (parse ts).trace.reverse ≤ 2) ∧ reportsAt ts.body.length (parse ts).trace.reverse ≤ 3 ∧
      (parse ts).diagnostics.length ≤ 2 * ts.body.length + 3 := by
  obtain ⟨trace, last, t, cs, htrace, hcs, -⟩ := standing_parse ts
  have hpasses : (passes trace.reverse).length = ts.body.length := by
    have hall := congrArg List.length (passes_trace Table.standard_orderly ts)
    change (passes (parse ts).trace.reverse).length = _ at hall
    rw [htrace, passes_reverse_cons, TokenList.toList, List.length_append, List.length_singleton] at hall
    exact Nat.add_right_cancel hall
  have hle : cs.length ≤ 3 := Nat.le_trans hcs.allowed.length_le (Complaint.most_le _)
  obtain ⟨hnext, hbefore, -⟩ := hcs.reportsAt_le
  have hsame : ∀ i, reportsAt i (parse ts).trace.reverse = reportsAt i trace.reverse := fun i => by
    rw [htrace, reportsAt_reverse_cons]
    exact Nat.add_zero _
  rw [hpasses] at hnext hbefore
  refine ⟨fun i hi => hsame i ▸ hbefore i hi, by rw [hsame, hnext]; exact hle, ?_⟩
  have htotal := hcs.length_reports_le
  rw [diagnostics_eq_reports htrace]
  omega

/-- Where tokens are in the order of their offsets, a report starts where a token starts exactly if it is at the place of that
token. -/
theorem countP_start_eq {ts : TokenList} (hts : ts.StartsIncrease) {i : Nat} {t : Token} (ht : ts.get? i = some t) :
    (parse ts).diagnostics.countP (fun d => d.span.start == t.span.start) = reportsAt i (parse ts).trace.reverse := by
  have hlocated : (parse ts).Located ts := located_parseWith Table.standard_orderly ts
  rw [← hlocated.diagnostics, List.countP_map]
  refine List.countP_congr fun p hp => ?_
  obtain ⟨x, hx, hstands⟩ := hlocated.standsIn p hp
  rw [Function.comp, beq_iff_eq, beq_iff_eq, hstands.anchoredAt.start]
  constructor
  · intro hstart
    rcases Nat.lt_trichotomy p.1 i with hlt | heq | hlt
    · exact absurd hstart (Nat.ne_of_lt (hts.start_lt hx ht hlt))
    · exact heq
    · exact absurd hstart (Nat.ne_of_gt (hts.start_lt ht hx hlt))
  · intro heq
    rw [heq, ht] at hx
    rw [Option.some.inj hx]

/-- Let the tokens of a list be in the order of their offsets. Then at most two diagnostics start at any token before the end of the
input, at most three at the end, and there are at most twice as many diagnostics as tokens and one more. -/
theorem cascades_bounded {ts : TokenList} (hts : ts.StartsIncrease) :
    (∀ t ∈ ts.body, (parse ts).diagnostics.countP (fun d => d.span.start == t.span.start) ≤ 2) ∧
      (parse ts).diagnostics.countP (fun d => d.span.start == ts.sentinel.span.start) ≤ 3 ∧
      (parse ts).diagnostics.length ≤ 2 * ts.size + 1 := by
  obtain ⟨hbefore, hend, htotal⟩ := reportsAt_parse ts
  refine ⟨fun t ht => ?_, ?_, ?_⟩
  · obtain ⟨i, hi, rfl⟩ := List.mem_iff_getElem.1 ht
    have hget : ts.get? i = some ts.body[i] := by
      rw [TokenList.get?, TokenList.toList, List.getElem?_append_left hi, List.getElem?_eq_getElem hi]
    rw [countP_start_eq hts hget]
    exact hbefore i hi
  · have hget : ts.get? ts.body.length = some ts.sentinel := by
      rw [TokenList.get?, TokenList.toList, List.getElem?_append_right (Nat.le_refl _), Nat.sub_self, List.getElem?_cons_zero]
    rw [countP_start_eq hts hget]
    exact hend
  · rw [TokenList.size, TokenList.toList, List.length_append, List.length_singleton]
    omega

/-- A function that breaks off in its body: three diagnostics stand at the end of the input, and no more can. -/
theorem cascades_bounded_open_function :
    let ts := TokenList.ofKinds [.program, .identifier, .colon, .function, .identifier, .leftParen, .rightParen, .leftBrace]
    ts.StartsIncrease ∧ (parse ts).diagnostics.countP (fun d => d.span.start == ts.sentinel.span.start) = 3 ∧
      (parse ts).diagnostics.length ≤ 2 * ts.size + 1 := by
  intro ts
  have hts : ts.StartsIncrease := TokenList.startsIncrease_ofKinds (by decide)
  obtain ⟨-, hend, htotal⟩ := cascades_bounded hts
  have hthree : 3 ≤ (parse ts).diagnostics.countP (fun d => d.span.start == ts.sentinel.span.start) := by decide +kernel
  exact ⟨hts, Nat.le_antisymm hend hthree, htotal⟩

end QuillFrontEnd
