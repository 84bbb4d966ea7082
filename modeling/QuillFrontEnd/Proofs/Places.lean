import QuillFrontEnd.Proofs.Accounting

/-!
# Where in the input things are done

Each event of a parse is done in front of some token: the one that comes after all tokens that were moved over before. Counting
these tokens gives the place of the event. It is where a token that is taken or dropped comes from and where a report stands,
also in a list in which several tokens look the same.
-/

namespace QuillFrontEnd

/-- The part of a text at a token that a diagnostic of a code is about: the token, or the point before it if something is missing
there. -/
def Code.spanAt : Code → Token → Span
  | .missingToken, t | .endOfInput, t => .point t.span.start
  | _, t => t.span

@[simp] theorem Code.start_spanAt (c : Code) (t : Token) : (c.spanAt t).start = t.span.start := by cases c <;> rfl

theorem Code.spanAt_of_blaming {c : Code} (h : c ∈ Diagnostic.blamingCodes) (t : Token) : c.spanAt t = t.span := by
  cases c with
  | missingToken | endOfInput => exact absurd h (by decide)
  | _ => rfl

/-- A diagnostic that stands at a token: at its position, and at the part of the text that its code is about. -/
structure Diagnostic.StandsAt (d : Diagnostic) (t : Token) : Prop where
  position : d.position = t.position
  span : d.span = d.code.spanAt t

/-- A diagnostic that stands at the token at a place of a list. -/
def Diagnostic.StandsIn (ts : TokenList) (i : Nat) (d : Diagnostic) : Prop := ∃ t, ts.get? i = some t ∧ d.StandsAt t

theorem Diagnostic.StandsAt.anchoredAt {d : Diagnostic} {t : Token} (h : d.StandsAt t) : d.AnchoredAt t :=
  ⟨h.position, by rw [h.span, Code.start_spanAt]⟩

namespace Parser

variable {α : Type} {s t : State} {es fs : List Event}

/-! ## Places -/

/-- The events of a list, each with its place: the number of tokens that are moved over before it, counted on from `n`. -/
def placed : Nat → List Event → List (Nat × Event)
  | _, [] => []
  | n, e :: es => (n, e) :: placed (n + (passes [e]).length) es

/-- What is picked out of a list of events, each with the place of its event. -/
def placesOf (pick : Event → Option α) (n : Nat) (es : List Event) : List (Nat × α) :=
  (placed n es).filterMap fun p => (pick p.2).map (Prod.mk p.1)

theorem placed_append (n : Nat) (es fs : List Event) :
    placed n (es ++ fs) = placed n es ++ placed (n + (passes es).length) fs := by
  induction es generalizing n with
  | nil => rfl
  | cons e es ih =>
    rw [List.cons_append, placed, placed, ih, List.cons_append, Nat.add_assoc, ← List.length_append, ← passes_append]
    rfl

theorem map_snd_placed (n : Nat) (es : List Event) : (placed n es).map Prod.snd = es := by
  induction es generalizing n with
  | nil => rfl
  | cons e es ih => rw [placed, List.map_cons, ih]

theorem le_of_mem_placed {n : Nat} {p : Nat × Event} (h : p ∈ placed n es) : n ≤ p.1 := by
  induction es generalizing n with
  | nil => cases h
  | cons e es ih =>
    rcases List.mem_cons.1 h with rfl | h
    · exact Nat.le_refl n
    · exact Nat.le_trans (Nat.le_add_right _ _) (ih h)

/-- Every event has a place. -/
theorem exists_mem_placed (n : Nat) {e : Event} (h : e ∈ es) : ∃ i, (i, e) ∈ placed n es := by
  rw [← map_snd_placed n es, List.mem_map] at h
  obtain ⟨⟨i, e⟩, he, rfl⟩ := h
  exact ⟨i, he⟩

/-- Without their places, the things that are picked out are those of the events. -/
theorem map_snd_placesOf (pick : Event → Option α) (n : Nat) (es : List Event) :
    (placesOf pick n es).map Prod.snd = es.filterMap pick := by
  rw [placesOf, List.map_filterMap]
  calc (placed n es).filterMap (fun p => ((pick p.2).map (Prod.mk p.1)).map Prod.snd)
    _ = (placed n es).filterMap (pick ∘ Prod.snd) := by
      congr 1
      funext p
      cases h : pick p.2 <;> simp [h]
    _ = es.filterMap pick := by rw [← List.filterMap_map, map_snd_placed]

theorem mem_placesOf {pick : Event → Option α} {n : Nat} {p : Nat × α} :
    p ∈ placesOf pick n es ↔ ∃ e, (p.1, e) ∈ placed n es ∧ pick e = some p.2 := by
  rw [placesOf, List.mem_filterMap]
  constructor
  · rintro ⟨⟨i, e⟩, he, hp⟩
    obtain ⟨a, ha, rfl⟩ := Option.map_eq_some_iff.1 hp
    exact ⟨e, he, ha⟩
  · rintro ⟨e, he, ha⟩
    exact ⟨(p.1, e), he, by rw [ha]; rfl⟩

/-! ## The tokens at the places -/

/-- An event that is done in front of a token. -/
def Event.InFrontOf : Event → Token → Prop
  | shift t, x | drop t, x | insert _ t, x | abandon _ t, x => t = x
  | report d, x => d.StandsAt x
  | attempt _ _, _ | mute _, _ => True

/-- A move is made in front of the next token. -/
theorem Move.inFrontOf (h : Move s es t) : ∀ e ∈ es, e.InFrontOf s.lookahead := by
  intro e he
  cases h with
  | attempt | shift | close | drop =>
    obtain rfl : e = _ := by simpa using he
    simp [Event.InFrontOf]
  | resume => cases he
  | mismatch d _ blames =>
    obtain rfl : e = _ := by simpa using he
    exact ⟨blames.position, by rw [blames.span, Code.spanAt_of_blaming blames.code]⟩
  | insert kind rule =>
    obtain rfl | rfl : e = _ ∨ e = _ := by simpa using he
    · exact ⟨rfl, rfl⟩
    · rfl
  | abandon rule =>
    obtain rfl | rfl : e = _ ∨ e = _ := by simpa using he
    · rfl
    · exact ⟨rfl, rfl⟩

/-- All events of a move have one place. -/
theorem Move.place_eq {n : Nat} (h : Move s es t) : ∀ p ∈ placed n es, p.1 = n := by
  cases h <;> simp [placed]

/-- What is so of the events of each move and the next token is so of the events of a run and the tokens at their places. -/
theorem Run.forall_placed {P : Event → Token → Prop}
    (hP : ∀ {s es t}, Move s es t → ∀ e ∈ es, P e s.lookahead) {xs : List Token} {n : Nat} (h : Run s es t)
    (hxs : xs.drop n = s.ahead) : ∀ p ∈ placed n es, ∃ x, xs[p.1]? = some x ∧ P p.2 x := by
  induction h generalizing n with
  | refl => simp [placed]
  | @head s t u es fs m _ ih =>
    intro p hp
    rw [placed_append, List.mem_append] at hp
    rcases hp with hp | hp
    · have he : p.2 ∈ es := by
        rw [← map_snd_placed n es]
        exact List.mem_map_of_mem hp
      obtain ⟨ys, hys⟩ := s.ahead_eq_lookahead_cons
      have hx : (xs.drop n)[0]? = some s.lookahead := by rw [hxs, hys, List.getElem?_cons_zero]
      rw [List.getElem?_drop, Nat.add_zero, ← m.place_eq p hp] at hx
      exact ⟨s.lookahead, hx, hP m p.2 he⟩
    · refine ih ?_ p hp
      rw [← List.drop_drop, hxs, (ofMove m).ahead, List.drop_left]

end Parser

open QuillFrontEnd.Parser

/-! ## Whole parses -/

/-- What is so of the events of each move and the next token is so of the events of a parse and the tokens at their places. -/
theorem forall_placed_trace {P : Event → Token → Prop} (hP : ∀ {s es t}, Move s es t → ∀ e ∈ es, P e s.lookahead)
    (hend : ∀ x, P (.shift x) x) {table : Table} (hT : table.Orderly) (ts : TokenList) :
    ∀ p ∈ placed 0 (parseWith table ts).trace.reverse, ∃ x, ts.get? p.1 = some x ∧ P p.2 x := by
  obtain ⟨es, t, hr, hlast, htrace, -⟩ := parseWith_run hT ts
  have hahead : ts.toList = passes es ++ t.ahead := hr.ahead
  intro p hp
  rw [htrace, placed_append, List.mem_append] at hp
  rcases hp with hp | hp
  · exact hr.forall_placed hP rfl p hp
  · -- The sentinel is taken last, and it is no token of the body.
    obtain rfl : p = _ := by simpa [placed] using hp
    have hsentinel : t.ahead = [ts.sentinel] := by
      rw [State.ahead, hlast, hr.effect.sentinel]
      rfl
    rw [hsentinel] at hahead
    exact ⟨ts.sentinel, by simp [TokenList.get?, hahead], hend _⟩

/-- Each event of a parse is done in front of the token at its place. -/
theorem inFrontOf_of_mem_trace {table : Table} (hT : table.Orderly) (ts : TokenList) :
    ∀ p ∈ placed 0 (parseWith table ts).trace.reverse, ∃ x, ts.get? p.1 = some x ∧ p.2.InFrontOf x :=
  forall_placed_trace Move.inFrontOf (fun _ => rfl) hT ts

/-- What is picked out of a trace comes from an event in front of the token at its place. -/
theorem inFrontOf_of_mem_placesOf {table : Table} (hT : table.Orderly) {ts : TokenList} {α : Type} {pick : Event → Option α}
    {p : Nat × α} (hp : p ∈ placesOf pick 0 (parseWith table ts).trace.reverse) :
    ∃ e x, pick e = some p.2 ∧ ts.get? p.1 = some x ∧ e.InFrontOf x := by
  obtain ⟨e, he, hpick⟩ := mem_placesOf.1 hp
  obtain ⟨x, hx, hfront⟩ := inFrontOf_of_mem_trace hT ts _ he
  exact ⟨e, x, hpick, hx, hfront⟩

/-- What is done after some of the events of a parse is done in front of a token that these have not moved over. -/
theorem inFrontOf_of_later {table : Table} (hT : table.Orderly) {ts : TokenList} {es fs : List Event}
    (htrace : (parseWith table ts).trace.reverse = es ++ fs) {e : Event} (he : e ∈ fs) :
    ∃ i x, (passes es).length ≤ i ∧ ts.get? i = some x ∧ e.InFrontOf x := by
  obtain ⟨i, hi⟩ := exists_mem_placed (0 + (passes es).length) he
  have hmem : (i, e) ∈ placed 0 (parseWith table ts).trace.reverse := by
    rw [htrace, placed_append]
    exact List.mem_append_right _ hi
  obtain ⟨x, hx, hfront⟩ := inFrontOf_of_mem_trace hT ts _ hmem
  have hle := le_of_mem_placed hi
  exact ⟨i, x, by rwa [Nat.zero_add] at hle, hx, hfront⟩

namespace ParseOutput

/-- The tokens that were taken into the tree, each with its place in the input. -/
def takenAt (o : ParseOutput) : List (Nat × Token) := placesOf Event.shifted? 0 o.trace.reverse

/-- The tokens that were skipped, each with its place in the input. -/
def skippedAt (o : ParseOutput) : List (Nat × Token) := placesOf Event.dropped? 0 o.trace.reverse

/-- The diagnostics, each with the place of the token at which it was reported. -/
def reportedAt (o : ParseOutput) : List (Nat × Diagnostic) := placesOf Event.reported? 0 o.trace.reverse

/-- The places of a parse are right: they belong to the tokens in the tree from left to right, to the skipped tokens and to the
diagnostics, and at each place of the list is the token that it says, or the one at which the diagnostic stands. -/
structure Located (ts : TokenList) (o : ParseOutput) : Prop where
  taken : o.takenAt.map Prod.snd = o.tree.terminals.map Terminal.toToken
  get?_taken : ∀ p ∈ o.takenAt, ts.get? p.1 = some p.2
  skipped : o.skippedAt.map Prod.snd = o.skipped
  get?_skipped : ∀ p ∈ o.skippedAt, ts.get? p.1 = some p.2
  diagnostics : o.reportedAt.map Prod.snd = o.diagnostics
  standsIn : ∀ p ∈ o.reportedAt, p.2.StandsIn ts p.1

end ParseOutput

theorem located_parseWith {table : Table} (hT : table.Orderly) (ts : TokenList) : (parseWith table ts).Located ts where
  taken := (map_snd_placesOf _ _ _).trans (terminals_eq_shifts hT ts).symm
  get?_taken p hp := by
    obtain ⟨e, x, hpick, hx, hfront⟩ := inFrontOf_of_mem_placesOf hT hp
    cases e <;> simp_all [Event.InFrontOf]
  skipped := map_snd_placesOf _ _ _
  get?_skipped p hp := by
    obtain ⟨e, x, hpick, hx, hfront⟩ := inFrontOf_of_mem_placesOf hT hp
    cases e <;> simp_all [Event.InFrontOf]
  diagnostics := map_snd_placesOf _ _ _
  standsIn p hp := by
    obtain ⟨e, x, hpick, hx, hfront⟩ := inFrontOf_of_mem_placesOf hT hp
    refine ⟨x, hx, ?_⟩
    cases e <;> simp_all [Event.InFrontOf]

/-- Every diagnostic of a parse stands at a token. -/
theorem standsIn_parse (ts : TokenList) : ∀ d ∈ (parse ts).diagnostics, ∃ i, d.StandsIn ts i := by
  have hlocated : (parse ts).Located ts := located_parseWith Table.standard_orderly ts
  intro d hd
  rw [← hlocated.diagnostics] at hd
  obtain ⟨p, hp, rfl⟩ := List.mem_map.1 hd
  exact ⟨p.1, hlocated.standsIn p hp⟩

end QuillFrontEnd
