import QuillFrontEnd.Parser
import Mathlib.Data.List.TakeWhile

/-!
# Runs of the parser

Whatever a reader does to the state is made of a few elementary moves. `Move` says once which they are, in which mode each is made
and which events it leaves; a `Run` is a sequence of moves, with the events of all of them in order. What is true of every run
(which tokens it passes, what its first report is) is proved here from the moves alone, without looking at the readers.
-/

namespace QuillFrontEnd

/-- A diagnostic at a token: at the position of the token, and from its start on. -/
structure Diagnostic.AnchoredAt (d : Diagnostic) (t : Token) : Prop where
  position : d.position = t.position
  start : d.span.start = t.span.start

/-- The codes of the errors that have a token to blame. -/
def Diagnostic.blamingCodes : List Code := [.unexpectedToken, .skippedToken, .tooManyDimensions, .trailingInput]

/-- A recoverable error that blames a token, and is reported at the place of that token. -/
structure Diagnostic.Blames (d : Diagnostic) (t : Token) : Prop where
  code : d.code ∈ blamingCodes
  severity : d.severity = .error
  found : d.found = some t
  span : d.span = t.span
  position : d.position = t.position

theorem Diagnostic.Blames.anchoredAt {d : Diagnostic} {t : Token} (h : d.Blames t) : d.AnchoredAt t :=
  ⟨h.position, by rw [h.span]⟩

/-- All diagnostics that blame a token are made in the same way from their codes. -/
theorem Diagnostic.blames_of_code {c : Code} (hc : c ∈ blamingCodes) (t : Token) (message expected note : String) :
    (((((ofCode c).saying message).blaming t).expecting expected).noting note).Blames t := by
  refine ⟨hc, ?_, rfl, rfl, rfl⟩
  change c.defaultSeverity = .error
  revert c
  decide

theorem headD_append {α : Type} (as bs : List α) (a : α) : (as ++ bs).headD a = as.headD (bs.headD a) := by
  cases as <;> rfl

namespace Parser

/-! ## What a list of events says of the tokens -/

namespace Event

/-- The token that a step takes into the tree. -/
@[simp]
def shifted? : Event → Option Token
  | shift t => some t
  | _ => none

/-- The token that a step moves over. -/
@[simp]
def passed? : Event → Option Token
  | shift t | drop t => some t
  | _ => none

/-- Whether a step goes by the grammar: it reports nothing, drops nothing and puts nothing in. -/
@[simp]
def isQuiet : Event → Bool
  | attempt _ _ | shift _ => true
  | _ => false

attribute [simp] reported? dropped?

end Event

/-- The tokens that are taken into the tree, in order. -/
def shifts (es : List Event) : List Token := es.filterMap Event.shifted?

/-- The tokens that are dropped, in order. -/
def drops (es : List Event) : List Token := es.filterMap Event.dropped?

/-- The tokens that are moved over, in order. -/
def passes (es : List Event) : List Token := es.filterMap Event.passed?

/-- The diagnostics that are reported, in order. -/
def reports (es : List Event) : List Diagnostic := es.filterMap Event.reported?

/-- All goes by the grammar. -/
def Quiet (es : List Event) : Prop := ∀ e ∈ es, e.isQuiet = true

instance (es : List Event) : Decidable (Quiet es) := inferInstanceAs (Decidable (∀ e ∈ es, e.isQuiet = true))

/-- The events up to the first that does not go by the grammar. -/
def quietPart (es : List Event) : List Event := es.takeWhile Event.isQuiet

/-- The events after the quiet part. -/
def noisyPart (es : List Event) : List Event := es.dropWhile Event.isQuiet

section

variable (e : Event) (es fs : List Event)

@[simp] theorem shifts_nil : shifts [] = [] := rfl
@[simp] theorem drops_nil : drops [] = [] := rfl
@[simp] theorem passes_nil : passes [] = [] := rfl
@[simp] theorem reports_nil : reports [] = [] := rfl

@[simp] theorem shifts_append : shifts (es ++ fs) = shifts es ++ shifts fs := List.filterMap_append
@[simp] theorem drops_append : drops (es ++ fs) = drops es ++ drops fs := List.filterMap_append
@[simp] theorem passes_append : passes (es ++ fs) = passes es ++ passes fs := List.filterMap_append
@[simp] theorem reports_append : reports (es ++ fs) = reports es ++ reports fs := List.filterMap_append

@[simp] theorem shifts_cons : shifts (e :: es) = e.shifted?.toList ++ shifts es := by cases e <;> rfl
@[simp] theorem drops_cons : drops (e :: es) = e.dropped?.toList ++ drops es := by cases e <;> rfl
@[simp] theorem passes_cons : passes (e :: es) = e.passed?.toList ++ passes es := by cases e <;> rfl
@[simp] theorem reports_cons : reports (e :: es) = e.reported?.toList ++ reports es := by cases e <;> rfl

@[simp] theorem quiet_nil : Quiet [] := by simp [Quiet]

@[simp] theorem quiet_cons : Quiet (e :: es) ↔ e.isQuiet = true ∧ Quiet es := by simp [Quiet]

@[simp] theorem quiet_append : Quiet (es ++ fs) ↔ Quiet es ∧ Quiet fs := by
  simp only [Quiet, List.mem_append, or_imp, forall_and]

end

variable {es fs : List Event}

/-- A quiet list of events is its own quiet part. -/
theorem quietPart_of_quiet (h : Quiet es) : quietPart es = es := by
  rw [quietPart, List.takeWhile_eq_self_iff]
  exact h

/-- After events that are all quiet, the quiet part goes on. -/
theorem quietPart_append_of_quiet (h : Quiet es) : quietPart (es ++ fs) = es ++ quietPart fs :=
  List.takeWhile_append_of_pos h

/-- Quiet events at the beginning belong to the quiet part. -/
theorem prefix_quietPart (h : es <+: fs) (hq : Quiet es) : es <+: quietPart fs := by
  obtain ⟨gs, rfl⟩ := h
  rw [quietPart_append_of_quiet hq]
  exact List.prefix_append _ _

/-- After the first event that is not quiet, nothing belongs to the quiet part any more. -/
theorem quietPart_append_of_not_quiet (h : ¬Quiet es) : quietPart (es ++ fs) = quietPart es := by
  have hlen : (es.takeWhile Event.isQuiet).length ≠ es.length := by
    intro hl
    apply h
    have he := (List.takeWhile_prefix Event.isQuiet (l := es)).eq_of_length hl
    exact List.takeWhile_eq_self_iff.1 he
  rw [quietPart, List.takeWhile_append, if_neg hlen, quietPart]

/-- In a quiet list of events, the tokens moved over are those taken into the tree. -/
theorem passes_eq_shifts_of_quiet (h : Quiet es) : passes es = shifts es := by
  induction es with
  | nil => rfl
  | cons e es ih =>
    rw [quiet_cons] at h
    rw [passes_cons, shifts_cons, ih h.2]
    cases e <;> simp at h ⊢

/-- Quiet events drop nothing and report nothing. -/
theorem drops_eq_nil_of_quiet (h : Quiet es) : drops es = [] := by
  rw [drops, List.filterMap_eq_nil_iff]
  intro e he
  have hquiet := h e he
  cases e <;> simp_all

theorem reports_eq_nil_of_quiet (h : Quiet es) : reports es = [] := by
  rw [reports, List.filterMap_eq_nil_iff]
  intro e he
  have hquiet := h e he
  cases e <;> simp_all

/-- The quiet part of a list of events is quiet. -/
theorem quiet_quietPart (es : List Event) : Quiet (quietPart es) := fun _ he => List.mem_takeWhile_imp he

theorem quietPart_append_noisyPart (es : List Event) : quietPart es ++ noisyPart es = es := List.takeWhile_append_dropWhile

/-- Where nothing was taken into the tree, nothing was in the quiet part. -/
theorem shifts_quietPart_of_shifts_eq_nil (h : shifts es = []) : shifts (quietPart es) = [] := by
  rw [← quietPart_append_noisyPart es, shifts_append, List.append_eq_nil_iff] at h
  exact h.1

/-- `Merge as bs cs` says that `cs` is made of `as` and `bs` and nothing else: each place of `cs` holds the next item of one of
them. -/
inductive Merge {α : Type} : List α → List α → List α → Prop where
  | nil : Merge [] [] []
  | left {as bs cs : List α} (a : α) : Merge as bs cs → Merge (a :: as) bs (a :: cs)
  | right {as bs cs : List α} (b : α) : Merge as bs cs → Merge as (b :: bs) (b :: cs)

theorem Merge.mem_iff {α : Type} {as bs cs : List α} (h : Merge as bs cs) {x : α} : x ∈ cs ↔ x ∈ as ∨ x ∈ bs := by
  induction h with
  | nil => simp
  | left a _ ih => rw [List.mem_cons, List.mem_cons, ih, or_assoc]
  | right b _ ih => rw [List.mem_cons, List.mem_cons, ih, or_left_comm]

theorem Merge.mem_of_mem_right {α : Type} {as bs cs : List α} (h : Merge as bs cs) {b : α} (hb : b ∈ bs) : b ∈ cs :=
  h.mem_iff.2 (.inr hb)

/-- The tokens moved over are those taken into the tree and those dropped, in the order in which they came. -/
theorem merge_passes (es : List Event) : Merge (shifts es) (drops es) (passes es) := by
  induction es with
  | nil => exact .nil
  | cons e es ih =>
    cases e with
    | shift t => exact .left t ih
    | drop t => exact .right t ih
    | attempt | insert | report | mute | abandon => exact ih

/-! ## States -/

namespace State

/-- The tokens ahead, with the sentinel at the end. -/
def ahead (s : State) : List Token := s.cursor.rest ++ [s.cursor.sentinel]

/-- What the cursor of a token list keeps: the sentinel marks the end of the input, and no other token ahead does. -/
structure Sealed (s : State) : Prop where
  sentinel_isEnd : s.cursor.sentinel.isEnd = true
  rest_isEnd : ∀ t ∈ s.cursor.rest, t.isEnd = false

/-- A state in which the parse is on track. -/
structure Ready (s : State) : Prop extends Sealed s where
  normal : s.mode = .normal

variable {s : State}

/-- The parse of a token list starts on track. -/
theorem ready_initial (ts : TokenList) : (initial ts).Ready := ⟨⟨ts.sentinel_isEnd, ts.body_isEnd⟩, rfl⟩

/-- The next token is the first of the tokens ahead. -/
theorem lookahead_of_ahead {t : Token} {ts : List Token} (h : s.ahead = t :: ts) : s.lookahead = t := by
  unfold ahead at h
  unfold lookahead Cursor.peek
  cases hr : s.cursor.rest <;> simp_all

theorem ahead_eq_lookahead_cons (s : State) : ∃ ts, s.ahead = s.lookahead :: ts := by
  cases h : s.ahead with
  | nil => simp [ahead] at h
  | cons t ts => exact ⟨ts, by rw [lookahead_of_ahead h]⟩

/-- In front of a token that is not the sentinel, that token is taken off the tokens ahead. -/
theorem rest_eq_lookahead_cons (h : s.cursor.rest ≠ []) :
    s.cursor.rest = s.lookahead :: s.cursor.advance.2.rest := by
  unfold lookahead Cursor.peek Cursor.advance
  cases hr : s.cursor.rest with
  | nil => exact absurd hr h
  | cons t ts => rfl

/-- The token that is moved over is the one that was next. -/
theorem pass_eq (s : State) (mark : Token → Event) :
    s.pass mark =
      { s with
        cursor := s.cursor.advance.2
        consumed := s.consumed + 1
        lastEnd := s.lookahead.span.stop
        trace := mark s.lookahead :: s.trace } := rfl

/-- Moving over a token that is not the sentinel leaves a token fewer ahead. -/
theorem remaining_shift_lt (h : s.cursor.rest ≠ []) : s.shift.remaining < s.remaining := by
  unfold remaining
  rw [rest_eq_lookahead_cons h]
  exact Nat.lt_succ_self _

@[simp] theorem sentinel_advance (c : Cursor) : c.advance.2.sentinel = c.sentinel := by
  unfold Cursor.advance
  dsimp only
  split <;> rfl

/-- Only the sentinel marks the end of the input. -/
theorem Sealed.isEnd_lookahead_iff (h : s.Sealed) : s.lookahead.isEnd = true ↔ s.cursor.rest = [] := by
  unfold lookahead Cursor.peek
  cases hr : s.cursor.rest with
  | nil => simpa using h.sentinel_isEnd
  | cons t ts => simpa using h.rest_isEnd t (by simp [hr])

theorem Sealed.nextKind_eq_endOfInput_iff (h : s.Sealed) : s.nextKind = .endOfInput ↔ s.cursor.rest = [] := by
  rw [← h.isEnd_lookahead_iff, Token.isEnd, beq_iff_eq, nextKind]

/-- A token of any other kind has tokens after it. -/
theorem Sealed.rest_ne_nil (h : s.Sealed) (hk : s.nextKind ≠ .endOfInput) : s.cursor.rest ≠ [] :=
  fun hr => hk (h.nextKind_eq_endOfInput_iff.2 hr)

@[simp] theorem cursor_attempt (s : State) (g : Goal) : (s.attempt g).cursor = s.cursor := rfl
@[simp] theorem mode_attempt (s : State) (g : Goal) : (s.attempt g).mode = s.mode := rfl
@[simp] theorem lookahead_attempt (s : State) (g : Goal) : (s.attempt g).lookahead = s.lookahead := rfl
@[simp] theorem nextKind_attempt (s : State) (g : Goal) : (s.attempt g).nextKind = s.nextKind := rfl
@[simp] theorem mode_shift (s : State) : s.shift.mode = s.mode := rfl
@[simp] theorem mode_drop (s : State) : s.drop.mode = s.mode := rfl
@[simp] theorem mode_resume (s : State) : s.resume.mode = .normal := rfl
@[simp] theorem cursor_resume (s : State) : s.resume.cursor = s.cursor := rfl
@[simp] theorem nextKind_resume (s : State) : s.resume.nextKind = s.nextKind := rfl
@[simp] theorem cursor_abandon (s : State) (r : Rule) : (s.abandon r).cursor = s.cursor := rfl

/-- After a problem a parse is off its track. -/
@[simp] theorem mode_mismatch (s : State) (d : Diagnostic) : (s.mismatch d).mode = .recovering := by
  unfold mismatch
  split
  · rfl
  · assumption

@[simp] theorem cursor_mismatch (s : State) (d : Diagnostic) : (s.mismatch d).cursor = s.cursor := by
  unfold mismatch
  split <;> rfl

theorem resume_of_normal (h : s.mode = .normal) : s.resume = s := by
  unfold resume
  rw [← h]

theorem Ready.attempt (h : s.Ready) (g : Goal) : (s.attempt g).Ready := ⟨⟨h.sentinel_isEnd, h.rest_isEnd⟩, h.normal⟩

end State

/-! ## Moves -/

/-- An elementary move of a parse, with the events that it leaves, the first one first. Only a parse that is on track sets out to
do something, puts in a terminal or reports a token; only a parse that is off its track drops tokens, and if it takes one, to close
a phrase, it is on track again; and a parse gives up only at the end of the input. -/
inductive Move : State → List Event → State → Prop where
  | attempt {s : State} (goal : Goal) (normal : s.mode = .normal) :
      Move s [.attempt goal .normal] (s.attempt goal)
  | shift {s : State} (normal : s.mode = .normal) (ahead : s.cursor.rest ≠ []) : Move s [.shift s.lookahead] s.shift
  | close {s : State} (recovering : s.mode = .recovering) (ahead : s.cursor.rest ≠ []) :
      Move s [.shift s.lookahead] s.shift.resume
  | drop {s : State} (recovering : s.mode = .recovering) (ahead : s.cursor.rest ≠ []) :
      Move s [.drop s.lookahead] s.drop
  | insert {s : State} (kind : TokenKind) (rule : Rule) (normal : s.mode = .normal) :
      Move s [.report (missingTerminal kind rule s.lookahead), .insert kind s.lookahead] (s.insert kind rule)
  | mismatch {s : State} (d : Diagnostic) (normal : s.mode = .normal) (blames : d.Blames s.lookahead) :
      Move s [.report d] (s.mismatch d)
  | resume (s : State) : Move s [] s.resume
  | abandon {s : State} (rule : Rule) (ended : s.cursor.rest = []) :
      Move s [.abandon rule s.lookahead, .report (State.prematureEnd rule s.lookahead)] (s.abandon rule)

/-- What the events between two states say of the second one. -/
structure Effect (s : State) (es : List Event) (t : State) : Prop where
  trace : t.trace = es.reverse ++ s.trace
  rest : s.cursor.rest = passes es ++ t.cursor.rest
  sentinel : t.cursor.sentinel = s.cursor.sentinel
  consumed : t.consumed = s.consumed + (passes es).length

variable {s t u : State}

theorem Effect.refl (s : State) : Effect s [] s := ⟨rfl, rfl, rfl, rfl⟩

theorem Effect.trans (h : Effect s es t) (h' : Effect t fs u) : Effect s (es ++ fs) u := by
  refine ⟨?_, ?_, h'.sentinel.trans h.sentinel, ?_⟩
  · rw [h'.trace, h.trace, List.reverse_append, List.append_assoc]
  · rw [h.rest, h'.rest, passes_append, List.append_assoc]
  · rw [h'.consumed, h.consumed, passes_append, List.length_append]
    omega

theorem Effect.remaining (h : Effect s es t) : s.remaining = (passes es).length + t.remaining := by
  unfold State.remaining
  rw [h.rest, List.length_append]

theorem Effect.attempt (s : State) (g : Goal) : Effect s [.attempt g s.mode] (s.attempt g) := ⟨rfl, rfl, rfl, rfl⟩

theorem Effect.shift (h : s.cursor.rest ≠ []) : Effect s [.shift s.lookahead] s.shift :=
  ⟨rfl, State.rest_eq_lookahead_cons h, State.sentinel_advance _, rfl⟩

theorem Effect.drop (h : s.cursor.rest ≠ []) : Effect s [.drop s.lookahead] s.drop :=
  ⟨rfl, State.rest_eq_lookahead_cons h, State.sentinel_advance _, rfl⟩

theorem Effect.insert (s : State) (kind : TokenKind) (rule : Rule) :
    Effect s [.report (missingTerminal kind rule s.lookahead), .insert kind s.lookahead] (s.insert kind rule) :=
  ⟨rfl, rfl, rfl, rfl⟩

theorem Effect.resume (s : State) : Effect s [] s.resume := ⟨rfl, rfl, rfl, rfl⟩

theorem Effect.abandon (s : State) (rule : Rule) :
    Effect s [.abandon rule s.lookahead, .report (State.prematureEnd rule s.lookahead)] (s.abandon rule) :=
  ⟨rfl, rfl, rfl, rfl⟩

/-- The event of a problem that is met in a mode: it is reported on track only. -/
def Event.complaint : Mode → Diagnostic → Event
  | .normal, d => report d
  | .recovering, d => mute d

theorem passes_complaint (m : Mode) (d : Diagnostic) : passes [.complaint m d] = [] := by cases m <;> rfl

theorem Effect.mismatch (s : State) (d : Diagnostic) : Effect s [.complaint s.mode d] (s.mismatch d) := by
  unfold State.mismatch
  cases s.mode with
  | normal => exact ⟨rfl, rfl, rfl, rfl⟩
  | recovering => exact ⟨rfl, rfl, rfl, rfl⟩

theorem Move.effect (h : Move s es t) : Effect s es t := by
  cases h with
  | attempt goal normal =>
    rw [← normal]
    exact .attempt s goal
  | shift _ ahead => exact .shift ahead
  | close _ ahead => exact (Effect.shift ahead).trans (.resume _)
  | drop _ ahead => exact .drop ahead
  | insert kind rule => exact .insert s kind rule
  | mismatch d normal _ =>
    have h := Effect.mismatch s d
    rw [normal] at h
    exact h
  | resume => exact .resume s
  | abandon rule => exact .abandon s rule

/-! ## Runs -/

/-- A sequence of moves, with the events of all of them in order. -/
inductive Run : State → List Event → State → Prop where
  | refl (s : State) : Run s [] s
  | head {s t u : State} {es fs : List Event} : Move s es t → Run t fs u → Run s (es ++ fs) u

namespace Run

theorem trans (h : Run s es t) (h' : Run t fs u) : Run s (es ++ fs) u := by
  induction h with
  | refl => exact h'
  | head m _ ih =>
    rw [List.append_assoc]
    exact .head m (ih h')

theorem ofMove (h : Move s es t) : Run s es t := by
  simpa using Run.head h (.refl t)

theorem effect (h : Run s es t) : Effect s es t := by
  induction h with
  | refl s => exact .refl s
  | head m _ ih => exact m.effect.trans ih

/-- The tokens ahead before a run are those that it passes and those ahead after it. -/
theorem ahead (h : Run s es t) : s.ahead = passes es ++ t.ahead := by
  unfold State.ahead
  rw [h.effect.rest, h.effect.sentinel, List.append_assoc]

/-- The tokens after those that a run passes are next. -/
theorem ahead_of_passes {rest : List Token} (h : Run s es t) (ha : s.ahead = passes es ++ rest) : t.ahead = rest := by
  rw [h.ahead] at ha
  exact List.append_cancel_left ha

theorem remaining_le (h : Run s es t) : t.remaining ≤ s.remaining := by
  rw [h.effect.remaining]
  omega

/-- At the end of the input a run stays there. -/
theorem rest_eq_nil (h : Run s es t) (hs : s.cursor.rest = []) : t.cursor.rest = [] := by
  have hrest := h.effect.rest
  rw [hs] at hrest
  exact (List.append_eq_nil_iff.1 hrest.symm).2

theorem sealed (h : Run s es t) (hs : s.Sealed) : t.Sealed := by
  refine ⟨by rw [h.effect.sentinel]; exact hs.sentinel_isEnd, fun x hx => hs.rest_isEnd x ?_⟩
  rw [h.effect.rest]
  exact List.mem_append_right _ hx

/-- A quiet run stays on track. -/
theorem normal_of_quiet (h : Run s es t) (hq : Quiet es) (hs : s.mode = .normal) : t.mode = .normal := by
  induction h with
  | refl => exact hs
  | head m _ ih =>
    rw [quiet_append] at hq
    refine ih hq.2 ?_
    cases m <;> simp_all

theorem ready_of_quiet (h : Run s es t) (hq : Quiet es) (hs : s.Ready) : t.Ready :=
  ⟨h.sealed hs.toSealed, h.normal_of_quiet hq hs.normal⟩

/-- The tokens ahead before a quiet run are those that it takes into the tree and those ahead after it. -/
theorem ahead_of_quiet (h : Run s es t) (hq : Quiet es) : s.ahead = shifts es ++ t.ahead := by
  rw [h.ahead, passes_eq_shifts_of_quiet hq]

/-- Events with a first report, which is at the first token ahead that their quiet part does not take. -/
def ReportsFirst (s : State) (es : List Event) : Prop :=
  ∃ (d : Diagnostic) (ds : List Diagnostic) (x : Token) (xs : List Token),
    reports es = d :: ds ∧ s.ahead = shifts (quietPart es) ++ x :: xs ∧ d.AnchoredAt x

/-- A first report is still the first one after a quiet move. -/
theorem ReportsFirst.of_quiet_move (m : Move s es t) (hq : Quiet es) (h : ReportsFirst t fs) :
    ReportsFirst s (es ++ fs) := by
  obtain ⟨d, ds, x, xs, hd, hx, ha⟩ := h
  refine ⟨d, ds, x, xs, by rw [reports_append, reports_eq_nil_of_quiet hq, hd, List.nil_append], ?_, ha⟩
  rw [(ofMove m).ahead_of_quiet hq, hx, quietPart_append_of_quiet hq, shifts_append, List.append_assoc]

/-- A run that starts on track and is not quiet has a first report, at the token where it stopped being quiet. -/
theorem reportsFirst (h : Run s es t) (hq : ¬Quiet es) (hs : s.mode = .normal) : ReportsFirst s es := by
  induction h with
  | refl => exact absurd quiet_nil hq
  | @head s t u es fs m _ ih =>
    have later : Quiet es → t.mode = .normal → ReportsFirst s (es ++ fs) := fun hes ht =>
      .of_quiet_move m hes (ih (fun hfs => hq ((quiet_append es fs).2 ⟨hes, hfs⟩)) ht)
    obtain ⟨xs, hx⟩ := s.ahead_eq_lookahead_cons
    cases m with
    | attempt goal _ => exact later (by simp) hs
    | shift _ _ => exact later (by simp) hs
    | close _ _ => exact later (by simp) rfl
    | resume => exact later (by simp) rfl
    | drop recovering _ =>
      rw [hs] at recovering
      cases recovering
    | insert kind rule _ => exact ⟨_, reports fs, _, xs, rfl, hx, ⟨rfl, rfl⟩⟩
    | mismatch d _ blames => exact ⟨d, reports fs, _, xs, rfl, hx, blames.anchoredAt⟩
    | abandon rule _ => exact ⟨_, reports fs, _, xs, rfl, hx, ⟨rfl, rfl⟩⟩

/-- The events between two states are those that the second trace has more than the first. -/
theorem events_eq (h : Run s es t) (h' : Run s fs t) : es = fs := by
  have htrace := h.effect.trace.symm.trans h'.effect.trace
  exact List.reverse_inj.1 (List.append_cancel_right htrace)

/-- The token that is next before a run is the first that it passes, or is still next. -/
theorem lookahead_eq (h : Run s es t) : s.lookahead = (passes es).headD t.lookahead := by
  obtain ⟨xs, hs⟩ := s.ahead_eq_lookahead_cons
  obtain ⟨ys, ht⟩ := t.ahead_eq_lookahead_cons
  have hahead := h.ahead
  rw [hs, ht] at hahead
  have hhead := congrArg (fun ts => ts.headD s.lookahead) hahead
  rwa [headD_append] at hhead

theorem lookahead_mem (h : Run s es t) : s.lookahead ∈ passes es ++ [t.lookahead] := by
  rw [h.lookahead_eq]
  cases passes es <;> simp

end Run

/-! ## Reports -/

/-- An error at the next token, which is fatal only at the end of the input. -/
structure RaisedIn (s : State) (d : Diagnostic) : Prop where
  isError : d.isError = true
  found : ∀ x ∈ d.found, x = s.lookahead
  anchoredAt : d.AnchoredAt s.lookahead
  fatal : d.isFatal = true → s.cursor.rest = []

/-- What one move reports is raised in the state in which it is made. -/
theorem Move.raisedIn (h : Move s es t) : ∀ d ∈ reports es, RaisedIn s d := by
  intro d hd
  cases h with
  | attempt | shift | close | drop | resume => simp at hd
  | insert kind rule =>
    obtain rfl : d = missingTerminal kind rule s.lookahead := by simpa using hd
    exact ⟨rfl, by simp [missingTerminal, Diagnostic.noting, Diagnostic.expecting, Diagnostic.before, Diagnostic.saying,
      Diagnostic.ofCode], ⟨rfl, rfl⟩, nofun⟩
  | mismatch d' _ blames =>
    obtain rfl : d = d' := by simpa using hd
    refine ⟨by rw [Diagnostic.isError, blames.severity]; rfl, fun x hx => ?_, blames.anchoredAt, fun hf => ?_⟩
    · rw [blames.found] at hx
      exact (Option.some.inj hx).symm
    · simp [Diagnostic.isFatal, blames.severity] at hf
  | abandon rule ended =>
    obtain rfl : d = State.prematureEnd rule s.lookahead := by simpa using hd
    exact ⟨rfl, by simp [State.prematureEnd, Diagnostic.noting, Diagnostic.before, Diagnostic.saying, Diagnostic.ofCode],
      ⟨rfl, rfl⟩, fun _ => ended⟩

/-- Whatever a run reports is raised in a state that it comes through. -/
theorem Run.exists_raisedIn (h : Run s es t) {d : Diagnostic} (hd : d ∈ reports es) :
    ∃ es₁ es₂ u, Run s es₁ u ∧ Run u es₂ t ∧ es = es₁ ++ es₂ ∧ RaisedIn u d := by
  induction h with
  | refl => simp at hd
  | @head s t u es fs m hr ih =>
    rw [reports_append, List.mem_append] at hd
    rcases hd with hd | hd
    · exact ⟨[], _, s, .refl s, .head m hr, rfl, m.raisedIn d hd⟩
    · obtain ⟨es₁, es₂, v, h₁, h₂, rfl, hraised⟩ := ih hd
      exact ⟨es ++ es₁, es₂, v, .head m h₁, h₂, by rw [List.append_assoc], hraised⟩

/-- What a run reports is at a token that it passes or at the next one after it, and is fatal only if it comes to the end of the
input. -/
theorem Run.reports_anchored (h : Run s es t) {d : Diagnostic} (hd : d ∈ reports es) :
    (∃ x ∈ passes es ++ [t.lookahead], d.AnchoredAt x) ∧ (d.isFatal = true → t.cursor.rest = []) := by
  obtain ⟨es₁, es₂, u, -, h₂, rfl, hraised⟩ := h.exists_raisedIn hd
  constructor
  · refine ⟨u.lookahead, ?_, hraised.anchoredAt⟩
    rw [passes_append, List.append_assoc]
    exact List.mem_append_right _ h₂.lookahead_mem
  · exact fun hf => h₂.rest_eq_nil (hraised.fatal hf)

end Parser

end QuillFrontEnd
