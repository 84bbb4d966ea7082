import QuillFrontEnd.Proofs.Cascades

/-!
# The order of diagnostics

Whatever the parser reports is about the next token, and it never goes back. So each diagnostic belongs to a token of the input,
either to blame it or because something is missing before it, and along the list of diagnostics these tokens come in the order of
the input. After the report that a token was refused comes no other about the same token.
-/

namespace QuillFrontEnd

/-- A diagnostic that points at a token: it blames the token and covers all of it, or it misses something at the point where the
token starts and blames nothing. -/
structure Diagnostic.PointsAt (d : Diagnostic) (t : Token) : Prop where
  position : d.position = t.position
  anchor : d.code ∈ blamingCodes ∧ d.span = t.span ∧ d.found = some t ∨
    d.code ∈ [.missingToken, .endOfInput] ∧ d.span = .point t.span.start ∧ d.found = none

theorem Diagnostic.Blames.pointsAt {d : Diagnostic} {t : Token} (h : d.Blames t) : d.PointsAt t :=
  ⟨h.position, .inl ⟨h.code, h.span, h.found⟩⟩

/-- What one move reports points at the next token. -/
theorem Parser.Move.pointsAt {s t : State} {es : List Event} (h : Move s es t) :
    ∀ e ∈ es, ∀ d ∈ e.reported?, d.PointsAt s.lookahead := by
  intro e he d hd
  cases h with
  | attempt | shift | close | drop =>
    obtain rfl : e = _ := by simpa using he
    cases hd
  | resume => cases he
  | mismatch d' _ blames =>
    obtain rfl : e = .report d' := by simpa using he
    obtain rfl : d' = d := Option.some.inj hd
    exact blames.pointsAt
  | insert kind rule =>
    obtain rfl | rfl : e = .report _ ∨ e = .insert _ _ := by simpa using he
    · obtain rfl := Option.some.inj hd
      exact ⟨rfl, .inr ⟨List.mem_cons_self, rfl, rfl⟩⟩
    · cases hd
  | abandon rule =>
    obtain rfl | rfl : e = .abandon _ _ ∨ e = .report _ := by simpa using he
    · cases hd
    · obtain rfl := Option.some.inj hd
      exact ⟨rfl, .inr ⟨List.mem_cons_of_mem _ List.mem_cons_self, rfl, rfl⟩⟩

open QuillFrontEnd.Parser

/-- Each diagnostic of a parse points at the token at its place. -/
theorem pointsAt_parse (ts : TokenList) :
    ∀ p ∈ (parse ts).reportedAt, ∃ t, ts.get? p.1 = some t ∧ p.2.PointsAt t := by
  intro p hp
  obtain ⟨e, he, hd⟩ := mem_placesOf.1 hp
  obtain ⟨t, ht, hpoints⟩ := forall_placed_trace (P := fun e x => ∀ d ∈ e.reported?, d.PointsAt x) Move.pointsAt
    (fun _ _ hd => by cases hd) Table.standard_orderly ts _ he
  exact ⟨t, ht, hpoints p.2 hd⟩

/-- In a cascade nothing comes after the report of a token that was refused. -/
theorem Parser.Cascading.code_ne_skipped {xs : List Token} {d d' : Diagnostic} (h : Cascading xs d d') :
    d.code ≠ .skippedToken := by
  obtain ⟨t, -, c, c', cs, hvoices, -, hc, hallowed⟩ := h
  rw [hvoices.code]
  intro hcode
  cases c with
  | skipped => exact hallowed.skipped_not_mem hc
  | _ => cases hcode

/-- Each diagnostic of a parse has a token of the input that it points at, and these tokens come in the order of the input; after
the diagnostic of a token that was refused they come strictly later. -/
theorem diagnostics_in_order (ts : TokenList) :
    ∃ placed : List (Nat × Diagnostic), placed.map Prod.snd = (parse ts).diagnostics ∧
      placed.Pairwise (fun p q => p.1 ≤ q.1) ∧
      placed.Pairwise (fun p q => p.2.code = .skippedToken → p.1 < q.1) ∧
      ∀ p ∈ placed, ∃ t, ts.get? p.1 = some t ∧ p.2.PointsAt t := by
  have hlocated : (parse ts).Located ts := located_parseWith Table.standard_orderly ts
  refine ⟨(parse ts).reportedAt, hlocated.diagnostics, ?_, ?_, pointsAt_parse ts⟩
  · refine (cascading_parse ts).imp fun {p q} h => ?_
    rcases h with hlt | ⟨heq, -⟩
    · exact Nat.le_of_lt hlt
    · exact Nat.le_of_eq heq
  · refine (cascading_parse ts).imp fun {p q} h hcode => ?_
    rcases h with hlt | ⟨-, hcascade⟩
    · exact hlt
    · exact absurd hcode hcascade.code_ne_skipped

end QuillFrontEnd
