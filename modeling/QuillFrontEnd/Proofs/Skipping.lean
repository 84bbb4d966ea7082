import QuillFrontEnd.Proofs.Accounting
import QuillFrontEnd.Proofs.TokenOrder
import Mathlib.Data.List.Basic

/-!
# No token is skipped in silence

Where the parser begins to skip tokens, it has blamed the first of them. The tokens are dropped long after that report, by a rule
that may be far above the one that failed; but from the report on nothing is taken and the parse stays off its track, so the token
that was blamed is still the next one. `Announced` says that of a trace, each move keeps it, and so does a whole run.
-/

namespace QuillFrontEnd

namespace Parser

variable {s t : State} {es fs : List Event} {x : Token}

/-! ## What a trace says of the next token -/

/-- A trace, its last event first, after which the token `x` may be dropped: the token before it was dropped, or `x` was blamed
since the last token was moved over. -/
def Announced : List Event → Token → Prop
  | [], _ | .shift _ :: _, _ => False
  | .drop _ :: _, _ => True
  | .report d :: es, x => d.Blames x ∨ Announced es x
  | .attempt _ _ :: es, x | .insert _ _ :: es, x | .mute _ :: es, x | .abandon _ _ :: es, x => Announced es x

/-- A trace in which every token was announced before it was dropped. -/
def DropsAnnounced : List Event → Prop
  | [] => True
  | .drop x :: es => Announced es x ∧ DropsAnnounced es
  | .shift _ :: es | .report _ :: es | .attempt _ _ :: es | .insert _ _ :: es | .mute _ :: es | .abandon _ _ :: es =>
    DropsAnnounced es

theorem DropsAnnounced.of_append (h : DropsAnnounced (fs ++ es)) : DropsAnnounced es := by
  induction fs with
  | nil => exact h
  | cons e fs ih =>
    cases e with
    | drop x => exact ih h.2
    | shift | report | attempt | insert | mute | abandon => exact ih h

/-- A token that is announced was blamed, or the last token that was moved over was dropped. -/
theorem Announced.cases (h : Announced es x) :
    (∃ d ∈ reports es.reverse, d.Blames x) ∨ ∃ y front, passes es.reverse = front ++ [y] ∧ y ∈ drops es.reverse := by
  induction es with
  | nil => exact h.elim
  | cons e es ih =>
    rw [List.reverse_cons, reports_append, passes_append, drops_append]
    cases e with
    | shift => exact h.elim
    | drop y => exact .inr ⟨y, _, rfl, List.mem_append_right _ (List.mem_singleton_self y)⟩
    | report d =>
      rcases h with h | h
      · exact .inl ⟨d, List.mem_append_right _ (List.mem_singleton_self d), h⟩
      · refine (ih h).imp ?_ (by simp)
        rintro ⟨d', hd', hblames⟩
        exact ⟨d', List.mem_append_left _ hd', hblames⟩
    | attempt | insert | mute | abandon => simpa using ih h

/-! ## Moves and runs -/

/-- A state of a parse that announces what it drops: every token that was dropped was announced, and off its track the parse has
announced the next one. -/
structure Announcing (s : State) : Prop where
  dropped : DropsAnnounced s.trace
  next : s.mode = .recovering → Announced s.trace s.lookahead

/-- A state on track has nothing to announce. -/
theorem Announcing.of_normal (h : DropsAnnounced s.trace) (hs : s.mode = .normal) : Announcing s :=
  ⟨h, fun hm => by rw [hs] at hm; cases hm⟩

theorem Move.announcing (m : Move s es t) (h : Announcing s) : Announcing t := by
  cases m with
  | attempt goal normal => exact .of_normal h.dropped normal
  | shift normal _ => exact .of_normal h.dropped normal
  | close _ _ => exact .of_normal h.dropped rfl
  | drop recovering _ => exact ⟨⟨h.next recovering, h.dropped⟩, fun _ => trivial⟩
  | insert kind rule normal => exact .of_normal h.dropped normal
  | mismatch d normal blames =>
    unfold State.mismatch
    rw [normal]
    exact ⟨h.dropped, fun _ => .inl blames⟩
  | resume => exact .of_normal h.dropped rfl
  | abandon rule _ => exact ⟨h.dropped, fun hm => .inr (h.next hm)⟩

theorem Run.announcing (h : Run s es t) (hs : Announcing s) : Announcing t := by
  induction h with
  | refl => exact hs
  | head m _ ih => exact ih (m.announcing hs)

end Parser

open QuillFrontEnd.Parser

/-! ## Whole parses -/

/-- In a whole parse every token was announced before it was dropped. -/
theorem dropsAnnounced_parseWith {table : Table} (hT : table.Orderly) (ts : TokenList) :
    DropsAnnounced (parseWith table ts).trace := by
  obtain ⟨es, t, hr, -, htrace, -⟩ := parseWith_run hT ts
  have hinitial : Announcing (.initial ts) := .of_normal trivial rfl
  have hdropped := (hr.announcing hinitial).dropped
  rw [hr.effect.trace, State.initial, List.append_nil] at hdropped
  rw [← List.reverse_reverse (parseWith table ts).trace, htrace, List.reverse_concat]
  exact hdropped

/-- A token is at one place of a list only. -/
theorem TokenList.StartsIncrease.front_eq {ts : TokenList} (hts : ts.StartsIncrease) {x : Token} {front back front' back' : List Token}
    (h : ts.toList = front ++ x :: back) (h' : ts.toList = front' ++ x :: back') : front' = front := by
  have hdistinct : ts.toList.Nodup := by
    refine List.Pairwise.imp (fun {a b} hlt heq => ?_) hts
    rw [heq] at hlt
    exact Nat.lt_irrefl _ hlt
  rw [h, List.nodup_append, List.nodup_cons] at hdistinct
  obtain ⟨-, ⟨hback, -⟩, hfront⟩ := hdistinct
  rw [h, List.append_cons_inj_of_notMem (fun hmem => hfront x hmem x List.mem_cons_self rfl) hback] at h'
  exact h'.1.symm

/-- A token that is skipped was blamed, or the token before it is skipped, too. -/
theorem blamed_of_skipped {table : Table} (hT : table.Orderly) {ts : TokenList} (hts : ts.StartsIncrease) {x : Token}
    {front back : List Token} (hsplit : ts.toList = front ++ x :: back) (hx : x ∈ (parseWith table ts).skipped) :
    (∃ d ∈ (parseWith table ts).diagnostics, d.Blames x) ∨ ∃ y ∈ front.getLast?, y ∈ (parseWith table ts).skipped := by
  obtain ⟨e, he, hpick⟩ := List.mem_filterMap.1 hx
  obtain rfl : e = .drop x := by
    cases e with
    | drop y => rw [Option.some.inj hpick]
    | _ => cases hpick
  obtain ⟨es, fs, hes⟩ := List.append_of_mem he
  have hfront : passes es = front := by
    have hpasses := passes_trace hT ts
    rw [hes, passes_append] at hpasses
    exact hts.front_eq hsplit hpasses.symm
  have hannounced : Announced es.reverse x := by
    have hall := dropsAnnounced_parseWith hT ts
    rw [← List.reverse_reverse (parseWith table ts).trace, hes, List.reverse_append, List.reverse_cons, List.append_assoc] at hall
    exact hall.of_append.1
  have hdiagnostics : (parseWith table ts).diagnostics = reports es ++ reports (.drop x :: fs) := by
    rw [← reports_append, ← hes]
    rfl
  have hskipped : (parseWith table ts).skipped = drops es ++ drops (.drop x :: fs) := by
    rw [← drops_append, ← hes]
    rfl
  rcases hannounced.cases with ⟨d, hd, hblames⟩ | ⟨y, _, hlast, hy⟩
  · rw [List.reverse_reverse] at hd
    exact .inl ⟨d, by rw [hdiagnostics]; exact List.mem_append_left _ hd, hblames⟩
  · rw [List.reverse_reverse] at hlast hy
    refine .inr ⟨y, ?_, by rw [hskipped]; exact List.mem_append_left _ hy⟩
    rw [← hfront, hlast, List.getLast?_concat]
    rfl

/-- Consecutive tokens of a list that the parse skips all of, together with the tokens before and after them: the tokens next to
them on both sides, if there are any, are not skipped. -/
structure SkippedRun (ts : TokenList) (front run back : List Token) : Prop where
  split : ts.toList = front ++ run ++ back
  ne_nil : run ≠ []
  skipped : ∀ t ∈ run, t ∈ (parse ts).skipped
  before : ∀ t ∈ front.getLast?, t ∉ (parse ts).skipped
  after : ∀ t ∈ back.head?, t ∉ (parse ts).skipped

/-- Let the tokens of a list be in the order of their offsets. Then the first token of every run of skipped tokens is the one that a
diagnostic found, which says that it is unexpected, was skipped, starts a dimension too many, or comes after the main block. -/
theorem skipped_run_reported {ts : TokenList} (hts : ts.StartsIncrease) {front run back : List Token}
    (h : SkippedRun ts front run back) :
    ∃ d ∈ (parse ts).diagnostics, d.code ∈ [.unexpectedToken, .skippedToken, .tooManyDimensions, .trailingInput] ∧
      d.found = run.head? := by
  obtain ⟨hsplit, hne, hskipped, hbefore, -⟩ := h
  cases run with
  | nil => exact absurd rfl hne
  | cons x run =>
    rw [List.append_assoc, List.cons_append] at hsplit
    rcases blamed_of_skipped Table.standard_orderly hts hsplit (hskipped x List.mem_cons_self) with
      ⟨d, hd, hblames⟩ | ⟨y, hy, hyskipped⟩
    · exact ⟨d, hd, hblames.code, hblames.found⟩
    · exact absurd hyskipped (hbefore y hy)

/-- In `program x : var , , ; main { }` the declaration breaks off at the first comma, and both commas are skipped. -/
theorem skipped_run_reported_commas :
    let ts := TokenList.ofKinds [.program, .identifier, .colon, .var, .comma, .comma, .semicolon, .main, .leftBrace, .rightBrace]
    ts.StartsIncrease ∧ ∃ front run back, SkippedRun ts front run back ∧ run.map Token.kind = [.comma, .comma] ∧
      ∃ d ∈ (parse ts).diagnostics, d.code ∈ [.unexpectedToken, .skippedToken, .tooManyDimensions, .trailingInput] ∧
        d.found = run.head? := by
  intro ts
  have hts : ts.StartsIncrease := TokenList.startsIncrease_ofKinds (by decide)
  have hrun : SkippedRun ts (ts.toList.take 4) ((ts.toList.drop 4).take 2) (ts.toList.drop 6) :=
    ⟨by decide +kernel, by decide +kernel, by decide +kernel, by decide +kernel, by decide +kernel⟩
  exact ⟨hts, _, _, _, hrun, by decide +kernel, skipped_run_reported hts hrun⟩

end QuillFrontEnd
