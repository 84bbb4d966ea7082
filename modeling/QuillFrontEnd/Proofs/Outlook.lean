import QuillFrontEnd.Proofs.Places

/-!
# What may stand at the next token

A parse that complains of a token without moving over it may complain of the same token again. `Complaint.cascades` lists every
case in which it does. To show that there are no others, each reader is given an `Outlook` before it and one for each way in which
it can end: which complaints may stand at the next token, and of which kinds that token is then. What a reader is made of leads
from outlook to outlook, whatever the table holds; the outlooks are finite, so that the side conditions can be decided.
-/

namespace QuillFrontEnd

/-- What the parser can complain of at a token. -/
inductive Complaint where
  /-- A terminal is missing before the token. -/
  | missing (kind : TokenKind)
  /-- The token does not fit. -/
  | unexpected
  /-- The token was refused at a decision. -/
  | skipped
  /-- The token starts a third dimension. -/
  | thirdDimension
  /-- The token comes after the main block. -/
  | trailing
  /-- The input ends here, and the parse gives up. -/
  | ended
deriving DecidableEq

namespace Complaint

/-- The code of a complaint. -/
def code : Complaint → Code
  | missing _ => .missingToken
  | unexpected => .unexpectedToken
  | skipped => .skippedToken
  | thirdDimension => .tooManyDimensions
  | trailing => .trailingInput
  | ended => .endOfInput

/-- The sentence of a complaint at a token. -/
def message : Complaint → Token → String
  | missing kind, _ => "missing " ++ kind.displayName
  | unexpected, t | skipped, t => "unexpected " ++ t.describe
  | thirdDimension, _ => "too many array dimensions"
  | trailing, _ => "unexpected input after the main block"
  | ended, _ => "unexpected end of input while recovering from a syntax error"

/-- The token that a complaint blames: nothing is wrong with the one before which something is missing. -/
def blamed : Complaint → Token → Option Token
  | missing _, _ | ended, _ => none
  | unexpected, t | skipped, t | thirdDimension, t | trailing, t => some t

/-- A code and a token leave nothing of the sentence open, except for the terminal that is missing. -/
theorem message_eq_of_code_eq {c c' : Complaint} (h : c.code = c'.code) (t : Token) :
    c.message t = c'.message t ∨ ∃ j k, c = missing j ∧ c' = missing k := by
  cases c <;> cases c' <;> first | exact .inl rfl | exact .inr ⟨_, _, rfl, rfl⟩ | cases h

end Complaint

/-- A diagnostic that voices a complaint at a token. -/
structure Diagnostic.Voices (d : Diagnostic) (c : Complaint) (t : Token) : Prop where
  code : d.code = c.code
  severity : d.severity = c.code.defaultSeverity
  message : d.message = c.message t
  found : d.found = c.blamed t
  standsAt : d.StandsAt t

theorem Diagnostic.Voices.isFatal_iff {d : Diagnostic} {c : Complaint} {t : Token} (h : d.Voices c t) :
    d.isFatal = true ↔ c = .ended := by
  rw [isFatal, h.severity, beq_iff_eq]
  cases c <;> simp [Complaint.code, Code.defaultSeverity]

/-! ## Outlooks -/

/-- What may stand at the next token: lists of complaints, the last one first, each with the kinds of token it may stand at. -/
abbrev Outlook := List (List Complaint × KindSet)

namespace Outlook

/-- Complaints that may stand at a token of a kind. -/
def Covers (D : Outlook) (cs : List Complaint) (k : TokenKind) : Prop := ∃ e ∈ D, e.1 = cs ∧ k ∈ e.2

instance (D : Outlook) (cs : List Complaint) (k : TokenKind) : Decidable (D.Covers cs k) :=
  inferInstanceAs (Decidable (∃ e ∈ D, e.1 = cs ∧ k ∈ e.2))

/-- Whatever may stand by the first outlook may stand by the second. -/
def Within (D D' : Outlook) : Prop := ∀ e ∈ D, ∀ k ∈ TokenKind.all, k ∈ e.2 → D'.Covers e.1 k

instance (D D' : Outlook) : Decidable (D.Within D') :=
  inferInstanceAs (Decidable (∀ e ∈ D, ∀ k ∈ TokenKind.all, k ∈ e.2 → D'.Covers e.1 k))

/-- The part of an outlook for kinds that pass a test. -/
def onlyAt (D : Outlook) (test : TokenKind → Bool) : Outlook := D.map fun e => (e.1, ⟨fun k => e.2.contains k && test k⟩)

/-- The outlook after one more complaint. -/
def after (c : Complaint) (D : Outlook) : Outlook := D.map fun e => (c :: e.1, e.2)

/-- Nothing stands at the next token, of whatever kind it is. -/
def fresh : Outlook := [([], ⟨fun _ => true⟩)]

/-- Nothing stands at the next token, or what may stand there by an outlook. -/
def freshOr (D : Outlook) : Outlook := fresh ++ D

/-- Where a parse may go on after an error: at a stop token where the error was, or at one where nothing stands. -/
def stopped (err : Outlook) (stop : KindSet) : Outlook := (freshOr err).onlyAt stop.contains

/-- What may stand at the end of the input if a parse comes to it after an error. -/
def atEnd (err : Outlook) : Outlook := (freshOr err).onlyAt (· == .endOfInput)

variable {D D' : Outlook} {cs : List Complaint} {k : TokenKind}

theorem Within.covers (h : D.Within D') (hc : D.Covers cs k) : D'.Covers cs k := by
  obtain ⟨e, he, rfl, hk⟩ := hc
  exact h e he k (TokenKind.mem_all k) hk

theorem Within.refl (D : Outlook) : D.Within D := fun e he _ _ hk => ⟨e, he, rfl, hk⟩

theorem Covers.onlyAt {test : TokenKind → Bool} (hc : D.Covers cs k) (hk : test k = true) : (D.onlyAt test).Covers cs k := by
  obtain ⟨e, he, rfl, hmem⟩ := hc
  exact ⟨_, List.mem_map_of_mem he, rfl, Bool.and_eq_true_iff.2 ⟨hmem, hk⟩⟩

theorem Covers.after (c : Complaint) (hc : D.Covers cs k) : (D.after c).Covers (c :: cs) k := by
  obtain ⟨e, he, rfl, hmem⟩ := hc
  exact ⟨_, List.mem_map_of_mem he, rfl, hmem⟩

theorem fresh_within_freshOr (D : Outlook) : fresh.Within D.freshOr := fun e he _ _ hk => ⟨e, List.mem_append_left _ he, rfl, hk⟩

theorem within_freshOr (D : Outlook) : D.Within D.freshOr := fun e he _ _ hk => ⟨e, List.mem_append_right _ he, rfl, hk⟩

theorem covers_fresh (k : TokenKind) : fresh.Covers [] k := ⟨_, List.mem_singleton_self _, rfl, rfl⟩

end Outlook

namespace Complaint

/-- The cases in which a parse complains more than once of a token, the last complaint first. -/
def cascades : Outlook := [
  -- Where the header or a declaration breaks off before a block, the keyword of the main block is missing too.
  ([missing .main, missing .colon], .single .leftBrace),
  ([missing .main, missing .semicolon], .single .leftBrace),
  ([missing .main, unexpected], .single .leftBrace),
  -- A parameter list that breaks off leaves its parenthesis open.
  ([missing .rightParen, unexpected], .ofList [.var, .leftBrace]),
  -- A function that breaks off before the next one has no block.
  ([unexpected, unexpected], .ofList [.function, .main]),
  ([unexpected, missing .semicolon], .ofList [.function, .main]),
  -- A main block that breaks off before a function is followed by that function.
  ([trailing, missing .rightBrace], .ofList [.function, .main]),
  ([trailing, unexpected], .ofList [.function, .main]),
  ([thirdDimension, missing .rightBracket], .single .leftBracket),
  -- At the end of the input the last block is closed, then the main block is missed, and then the parse gives up.
  ([unexpected, missing .rightBrace], .single .endOfInput),
  ([ended, unexpected], .single .endOfInput),
  ([ended, unexpected, missing .rightBrace], .single .endOfInput)]

/-- The complaints that a parse may voice at a token of a kind, the last one first: it gives up only at the end of the input, and
complains more than once only in a cascade. -/
def Allowed : List Complaint → TokenKind → Prop
  | [], _ => True
  | [c], k => c = ended → k = .endOfInput
  | cs, k => cascades.Covers cs k

instance : (cs : List Complaint) → (k : TokenKind) → Decidable (Allowed cs k)
  | [], _ => .isTrue trivial
  | [c], k => inferInstanceAs (Decidable (c = ended → k = .endOfInput))
  | c :: c' :: cs, k => inferInstanceAs (Decidable (cascades.Covers (c :: c' :: cs) k))

namespace Allowed

variable {c : Complaint} {cs : List Complaint} {k : TokenKind}

/-- What holds of all cascades holds of a complaint that comes after another one. -/
theorem of_cascades {P : List Complaint → TokenKind → Prop} (h : Allowed (c :: cs) k) (hcs : cs ≠ [])
    (hP : ∀ e ∈ cascades, ∀ k ∈ TokenKind.all, k ∈ e.2 → P e.1 k) : P (c :: cs) k := by
  cases cs with
  | nil => exact absurd rfl hcs
  | cons b cs =>
    obtain ⟨e, he, heq, hk⟩ : cascades.Covers (c :: b :: cs) k := h
    rw [← heq]
    exact hP e he k (TokenKind.mem_all k) hk

theorem endOfInput (h : Allowed (ended :: cs) k) : k = .endOfInput := by
  by_cases hcs : cs = []
  · subst hcs
    exact h rfl
  · exact h.of_cascades (P := fun cs k => cs.head? = some ended → k = .endOfInput) hcs (by decide) rfl

/-- A complaint that no cascade goes on after is the last one at its token. -/
theorem not_mem_of_last {b : Complaint} (hb : ∀ e ∈ cascades, b ∉ e.1.tail) (h : Allowed (c :: cs) k) : b ∉ cs := by
  by_cases hcs : cs = []
  · subst hcs
    exact List.not_mem_nil
  · exact h.of_cascades (P := fun cs _ => b ∉ cs.tail) hcs fun e he _ _ _ => hb e he

/-- No complaint comes after the one that the input has ended. -/
theorem ended_not_mem (h : Allowed (c :: cs) k) : ended ∉ cs := h.not_mem_of_last (by decide)

/-- No complaint comes after the one that a token was refused: the token is dropped then. -/
theorem skipped_not_mem (h : Allowed (c :: cs) k) : skipped ∉ cs := h.not_mem_of_last (by decide)

/-- Two terminals are missing at one token only where the second is the keyword of the main block before its brace, and the first
ends what comes before. -/
theorem of_missing {i j : TokenKind} (h : Allowed (missing j :: cs) k) (hi : missing i ∈ cs) :
    (i = .colon ∨ i = .semicolon) ∧ j = .main ∧ k = .leftBrace := by
  have hmain := h.of_cascades (P := fun cs k => ∀ b ∈ cs.tail, b.code = .missingToken → cs.head?.map code = some .missingToken →
    (b = missing .colon ∨ b = missing .semicolon) ∧ cs.head? = some (missing .main) ∧ k = .leftBrace)
    (List.ne_nil_of_mem hi) (by decide) _ hi rfl rfl
  simpa using hmain

end Allowed

end Complaint

/-- An outlook whose complaints may all be voiced, one more included, and lead to another outlook. -/
def Outlook.Voiced (c : Complaint) (D D' : Outlook) : Prop :=
  (∀ e ∈ D.after c, ∀ k ∈ TokenKind.all, k ∈ e.2 → Complaint.Allowed e.1 k) ∧ (D.after c).Within D'

instance (c : Complaint) (D D' : Outlook) : Decidable (D.Voiced c D') :=
  inferInstanceAs (Decidable ((∀ e ∈ D.after c, ∀ k ∈ TokenKind.all, k ∈ e.2 → Complaint.Allowed e.1 k) ∧ (D.after c).Within D'))

namespace Parser

variable {ν μ : Type} {table : Table} {xs : List Token} {s t : State} {D D' : Outlook}

/-! ## What stands at the next token -/

/-- What a trace says of the next token `t`: the complaints that stand there, the last one first. All complaints, those at earlier
tokens as well, were allowed where they were voiced, and the end of the input was never moved over. The tokens are some of `xs`. -/
inductive Standing (xs : List Token) : List Event → Token → List Complaint → Prop where
  | start (t : Token) : Standing xs [] t []
  | pass {es : List Event} {t : Token} {cs : List Complaint} {e : Event} (t' : Token) :
      Standing xs es t cs → t.kind ≠ .endOfInput → e.passed? = some t → Standing xs (e :: es) t' []
  | silent {es : List Event} {t : Token} {cs : List Complaint} {e : Event} :
      Standing xs es t cs → e.passed? = none → e.reported? = none → Standing xs (e :: es) t cs
  | report {es : List Event} {t : Token} {cs : List Complaint} {d : Diagnostic} {c : Complaint} :
      Standing xs es t cs → t ∈ xs → d.Voices c t → Complaint.Allowed (c :: cs) t.kind →
      Standing xs (.report d :: es) t (c :: cs)

theorem State.Sealed.drop (hs : s.Sealed) (hne : s.cursor.rest ≠ []) : s.drop.Sealed := by
  refine ⟨?_, fun x hx => hs.rest_isEnd x ?_⟩
  · rw [State.drop, State.pass_eq, State.sentinel_advance]
    exact hs.sentinel_isEnd
  · rw [State.rest_eq_lookahead_cons hne]
    exact List.mem_cons_of_mem _ hx

/-- A state in which the complaints at the next token are as an outlook says. -/
structure Stands (xs : List Token) (D : Outlook) (s : State) : Prop where
  ahead : s.ahead ⊆ xs
  covered : ∃ cs, Standing xs s.trace s.lookahead cs ∧ D.Covers cs s.nextKind

namespace Stands

theorem within (h : Stands xs D s) (hw : D.Within D') : Stands xs D' s := by
  obtain ⟨cs, hcs, hc⟩ := h.covered
  exact ⟨h.ahead, cs, hcs, hw.covers hc⟩

theorem onlyAt (h : Stands xs D s) {test : TokenKind → Bool} (ht : test s.nextKind = true) : Stands xs (D.onlyAt test) s := by
  obtain ⟨cs, hcs, hc⟩ := h.covered
  exact ⟨h.ahead, cs, hcs, hc.onlyAt ht⟩

theorem attempt (h : Stands xs D s) (g : Goal) : Stands xs D (s.attempt g) := by
  obtain ⟨cs, hcs, hc⟩ := h.covered
  exact ⟨h.ahead, cs, hcs.silent rfl rfl, hc⟩

theorem resume (h : Stands xs D s) : Stands xs D s.resume := by
  obtain ⟨cs, hcs, hc⟩ := h.covered
  exact ⟨h.ahead, cs, hcs, hc⟩

/-- Nothing stands at the token after one that is moved over. -/
theorem pass (h : Stands xs D s) {mark : Token → Event} (hmark : (mark s.lookahead).passed? = some s.lookahead) (hs : s.Sealed)
    (hne : s.cursor.rest ≠ []) : Stands xs .fresh (s.pass mark) := by
  obtain ⟨cs, hcs, -⟩ := h.covered
  have hkind : s.lookahead.kind ≠ .endOfInput := fun hk => hne (hs.nextKind_eq_endOfInput_iff.1 hk)
  have hahead : (s.pass mark).ahead ⊆ s.ahead := by
    have hsub : s.cursor.advance.2.rest ⊆ s.cursor.rest := by
      rw [State.rest_eq_lookahead_cons hne]
      exact List.subset_cons_self _ _
    rw [State.ahead, State.ahead, State.pass_eq, State.sentinel_advance]
    exact List.append_subset.2 ⟨fun x hx => List.mem_append_left _ (hsub hx), List.subset_append_right _ _⟩
  exact ⟨fun x hx => h.ahead (hahead hx), [], hcs.pass _ hkind hmark, Outlook.covers_fresh _⟩

theorem shift (h : Stands xs D s) (hs : s.Sealed) (hne : s.cursor.rest ≠ []) : Stands xs .fresh s.shift := h.pass rfl hs hne

theorem drop (h : Stands xs D s) (hs : s.Sealed) (hne : s.cursor.rest ≠ []) : Stands xs .fresh s.drop := h.pass rfl hs hne

/-- A complaint that is allowed stands at the next token after it was voiced. -/
theorem report (h : Stands xs D s) {c : Complaint} (hv : D.Voiced c D') {d : Diagnostic} (hd : d.Voices c s.lookahead) :
    Stands xs D' (s.report d) := by
  obtain ⟨cs, hcs, hc⟩ := h.covered
  have hmem : s.lookahead ∈ xs := by
    obtain ⟨ts, hts⟩ := s.ahead_eq_lookahead_cons
    exact h.ahead (by rw [hts]; exact List.mem_cons_self)
  obtain ⟨e, he, heq, hk⟩ := hc.after c
  refine ⟨h.ahead, c :: cs, hcs.report hmem hd ?_, hv.2.covers (hc.after c)⟩
  rw [← heq]
  exact hv.1 e he _ (TokenKind.mem_all _) hk

theorem mismatch (h : Stands xs D s) (hs : s.mode = .normal) {c : Complaint} (hv : D.Voiced c D') {d : Diagnostic}
    (hd : d.Voices c s.lookahead) : Stands xs D' (s.mismatch d) := by
  have hr := h.report hv hd
  unfold State.mismatch
  rw [hs]
  exact ⟨hr.ahead, hr.covered⟩

theorem insert (h : Stands xs D s) {kind : TokenKind} (hv : D.Voiced (.missing kind) D') (rule : Rule) :
    Stands xs D' (s.insert kind rule) := by
  have hr := h.report hv (d := missingTerminal kind rule s.lookahead) ⟨rfl, rfl, rfl, rfl, rfl, rfl⟩
  obtain ⟨cs, hcs, hc⟩ := hr.covered
  exact ⟨hr.ahead, cs, hcs.silent rfl rfl, hc⟩

theorem abandon (h : Stands xs D s) (hv : D.Voiced .ended D') (rule : Rule) : Stands xs D' (s.abandon rule) := by
  obtain ⟨cs, hcs, hc⟩ := h.covered
  have hlog : Stands xs D (s.log (.abandon rule s.lookahead)) := ⟨h.ahead, cs, hcs.silent rfl rfl, hc⟩
  exact hlog.report hv ⟨rfl, rfl, rfl, rfl, rfl, rfl⟩

/-- After tokens were dropped nothing stands at the next one; if none was dropped, all is as before. -/
theorem dropAhead (test : TokenKind → Bool) (ts : List Token) (hts : s.cursor.rest = ts) (hs : s.Sealed) (h : Stands xs D s)
    (hf : Outlook.fresh.Within D) : Stands xs D (State.dropAhead test ts s) := by
  induction ts generalizing s with
  | nil => exact h
  | cons t ts ih =>
    have hne : s.cursor.rest ≠ [] := by simp [hts]
    have hcons := State.rest_eq_lookahead_cons hne
    rw [hts, List.cons.injEq] at hcons
    rw [State.dropAhead]
    split
    · exact ih hcons.2.symm (hs.drop hne) ((h.drop hs hne).within hf)
    · exact h

theorem dropWhile (h : Stands xs D s) (hs : s.Sealed) (hf : Outlook.fresh.Within D) (test : TokenKind → Bool) :
    Stands xs D (s.dropWhile test) := dropAhead test _ rfl hs h hf

/-- Where the next token is dropped, nothing stands at the one after it. -/
theorem dropWhile_of_next (h : Stands xs D s) (hs : s.Sealed) (hne : s.cursor.rest ≠ []) {test : TokenKind → Bool}
    (ht : test s.nextKind = true) : Stands xs .fresh (s.dropWhile test) := by
  have hdrop : s.dropWhile test = State.dropAhead test s.cursor.advance.2.rest s.drop := by
    rw [State.dropWhile, State.rest_eq_lookahead_cons hne, State.dropAhead]
    exact if_pos ht
  rw [hdrop]
  exact dropAhead test _ rfl (hs.drop hne) (h.drop hs hne) (.refl _)

end Stands

/-! ## Readers and steps -/

/-- What may stand at the end of the input after the parse has given up there. -/
def closed : Outlook := [
  ([.ended], .single .endOfInput),
  ([.ended, .unexpected], .single .endOfInput),
  ([.ended, .unexpected, .missing .rightBrace], .single .endOfInput)]

/-- An outcome with one outlook for a match and another one for an error. -/
structure Ends (xs : List Token) (ok err : Outlook) (o : Outcome ν) : Prop where
  matched : o.verdict = .matched → Stands xs ok o.state
  mismatched : o.verdict = .mismatched → Stands xs err o.state
  outOfInput : o.verdict = .outOfInput → Stands xs closed o.state

namespace Ends

variable {ok err : Outlook} {n : ν}

theorem of_matched (h : Stands xs ok s) : Ends xs ok err (⟨n, .matched, s⟩ : Outcome ν) := ⟨fun _ => h, nofun, nofun⟩

theorem of_mismatched (h : Stands xs err s) : Ends xs ok err (⟨n, .mismatched, s⟩ : Outcome ν) := ⟨nofun, fun _ => h, nofun⟩

theorem of_outOfInput (h : Stands xs closed s) : Ends xs ok err (⟨n, .outOfInput, s⟩ : Outcome ν) := ⟨nofun, nofun, fun _ => h⟩

end Ends

/-- A reader that leads from one outlook to another if it succeeds, and to a third one if it ends in an error. -/
def Leads (D ok err : Outlook) (reader : Reader ν) : Prop :=
  ∀ (xs : List Token) (s : State), s.Ready → Stands xs D s → ∃ es, Reaches s es (reader s) ∧ Ends xs ok err (reader s)

/-- A step that does so on every node. -/
def StepLeads (D ok err : Outlook) (step : Step ν) : Prop := ∀ n, Leads D ok err (step n)

variable {ok ok' err err' : Outlook} {d : Decision}

theorem Leads.weaken {reader : Reader ν} (h : Leads D ok err reader) (hD : D'.Within D) (hok : ok.Within ok')
    (herr : err.Within err') : Leads D' ok' err' reader := by
  intro xs s hs hD'
  obtain ⟨es, hr, hends⟩ := h xs s hs (hD'.within hD)
  exact ⟨es, hr, fun hv => (hends.matched hv).within hok, fun hv => (hends.mismatched hv).within herr, hends.outOfInput⟩

theorem StepLeads.nil (h : D.Within ok) : StepLeads D ok err (sequence ([] : List (Step ν))) :=
  fun _ _ s hs hD => ⟨[], ⟨.refl s, hs.normal⟩, .of_matched (hD.within h)⟩

theorem StepLeads.cons {step : Step ν} {steps : List (Step ν)} (mid : Outlook) (h : StepLeads D mid err step)
    (h' : StepLeads mid ok err (sequence steps)) : StepLeads D ok err (sequence (step :: steps)) := by
  intro n xs s hs hD
  obtain ⟨es, hr, hends⟩ := h n xs s hs hD
  by_cases hv : (step n s).verdict = .matched
  · rw [sequence_cons_of_matched steps hv]
    obtain ⟨fs, hr', hends'⟩ := h' _ xs _ (hr.ready hs hv) (hends.matched hv)
    exact ⟨es ++ fs, .trans hr.run hr', hends'⟩
  · rw [sequence_cons_of_ne_matched steps hv]
    exact ⟨es, hr, fun h => absurd h hv, hends.mismatched, hends.outOfInput⟩

theorem StepLeads.child {reader : Reader μ} (h : Leads D ok err reader) (put : ν → μ → ν) :
    StepLeads D ok err (child reader put) := by
  intro n xs s hs hD
  obtain ⟨es, hr, hends⟩ := h xs s hs hD
  exact ⟨es, ⟨hr.run, hr.fits⟩, hends.matched, hends.mismatched, hends.outOfInput⟩

/-- Outlooks around a terminal, which is not the end of the input: nothing stands after it if it is taken; it may be missing before
a token that may follow it; and any other token is unexpected. -/
structure Reads (kind : TokenKind) (follow : KindSet) (D ok err : Outlook) : Prop where
  ne_end : kind ≠ .endOfInput
  taken : Outlook.fresh.Within ok
  missing : (D.onlyAt fun k => k != kind && follow.contains k).Voiced (.missing kind) ok
  unexpected : (D.onlyAt fun k => k != kind && !follow.contains k).Voiced .unexpected err

instance (kind : TokenKind) (follow : KindSet) (D ok err : Outlook) : Decidable (Reads kind follow D ok err) :=
  decidable_of_iff (kind ≠ .endOfInput ∧ Outlook.fresh.Within ok ∧
      (D.onlyAt fun k => k != kind && follow.contains k).Voiced (.missing kind) ok ∧
      (D.onlyAt fun k => k != kind && !follow.contains k).Voiced .unexpected err)
    ⟨fun h => ⟨h.1, h.2.1, h.2.2.1, h.2.2.2⟩, fun h => ⟨h.1, h.2, h.3, h.4⟩⟩

theorem StepLeads.terminal (rule : Rule) {kind : TokenKind} {follow : KindSet} (put : ν → Terminal → ν)
    (h : Reads kind follow D ok err) : StepLeads D ok err (terminal rule kind follow put) := by
  intro n xs s hs hD
  have ha : Run s [.attempt (.terminal kind) .normal] (s.attempt (.terminal kind)) := .ofMove (.attempt _ hs.normal)
  have hs' := hs.attempt (.terminal kind)
  have hD' := hD.attempt (.terminal kind)
  unfold Parser.terminal readTerminal
  by_cases h1 : s.nextKind = kind
  · have hne : (s.attempt (.terminal kind)).cursor.rest ≠ [] := hs'.rest_ne_nil (by rw [State.nextKind_attempt, h1]; exact h.ne_end)
    simp only [State.nextKind_attempt, h1, if_true]
    exact ⟨_, ⟨ha.trans (.ofMove (.shift hs'.normal hne)), hs'.normal⟩, .of_matched ((hD'.shift hs'.toSealed hne).within h.taken)⟩
  · simp only [State.nextKind_attempt, h1, if_false]
    by_cases h2 : s.nextKind ∈ follow
    · simp only [h2, if_true]
      have htest : (s.nextKind != kind && follow.contains s.nextKind) = true := by simpa [h1, KindSet.mem_iff] using h2
      exact ⟨_, ⟨ha.trans (.ofMove (.insert kind rule hs'.normal)), hs'.normal⟩,
        .of_matched ((hD'.onlyAt htest).insert h.missing rule)⟩
    · simp only [h2, if_false]
      have htest : (s.nextKind != kind && !follow.contains s.nextKind) = true := by simpa [h1, KindSet.mem_iff] using h2
      exact ⟨_, .trans ha (.mismatch n hs' (Diagnostic.blames_of_code (by decide) _ _ _ _)),
        .of_mismatched ((hD'.onlyAt htest).mismatch hs'.normal h.unexpected ⟨rfl, rfl, rfl, rfl, rfl, rfl⟩)⟩

/-! ## Decisions -/

/-- A decision at which a table accepts the end of the input, and refuses no token at which a complaint stands. -/
structure Settles (table : Table) (d : Decision) (D : Outlook) : Prop where
  endOfInput : table.action d .endOfInput ≠ .reject
  fresh : Outlook.fresh.Within D
  skipped : (D.onlyAt (table.refuses d)).Voiced .skipped [([.skipped], ⟨table.refuses d⟩)]

instance (table : Table) (d : Decision) (D : Outlook) : Decidable (Settles table d D) :=
  decidable_of_iff (table.action d .endOfInput ≠ .reject ∧ Outlook.fresh.Within D ∧
      (D.onlyAt (table.refuses d)).Voiced .skipped [([.skipped], ⟨table.refuses d⟩)])
    ⟨fun h => ⟨h.1, h.2.1, h.2.2⟩, fun h => ⟨h.1, h.2, h.3⟩⟩

/-- Where tokens are dropped because they are refused, nothing stands at the next one. -/
theorem stands_dropRefused (hset : Settles table d D) (hs : s.Ready) (hD : Stands xs D s) :
    Stands xs D (dropRefused table d s) := by
  unfold dropRefused
  split
  · rename_i h
    rw [Bool.and_eq_true, Bool.not_eq_true'] at h
    have hne : (s.mismatch (skippedToken table d s.lookahead)).cursor.rest ≠ [] := by
      rw [State.cursor_mismatch]
      exact fun hr => Bool.false_ne_true (h.2.symm.trans (hs.isEnd_lookahead_iff.2 hr))
    have hb : (skippedToken table d s.lookahead).Blames s.lookahead := Diagnostic.blames_of_code (by decide) _ _ _ _
    have hsealed := (Run.ofMove (.mismatch _ hs.normal hb)).sealed hs.toSealed
    have hm := (hD.onlyAt h.1).mismatch hs.normal hset.skipped (d := skippedToken table d s.lookahead)
      ⟨rfl, rfl, rfl, rfl, rfl, rfl⟩
    have hnext : (s.mismatch (skippedToken table d s.lookahead)).nextKind = s.nextKind := by
      rw [State.nextKind, State.lookahead, State.cursor_mismatch]
      rfl
    exact (hm.dropWhile_of_next hsealed hne (hnext ▸ h.1)).within hset.fresh
  · exact hD

/-- A decision is always made, and no more complaints stand at the next token after it. -/
theorem stands_choose (hset : Settles table d D) (hs : s.Ready) (hD : Stands xs D s) :
    ∃ es a, (choose table d s).1 = some a ∧ Run s es (choose table d s).2 ∧ (choose table d s).2.Ready ∧
      table.action d (choose table d s).2.nextKind = a ∧ a ≠ .reject ∧ Stands xs D (choose table d s).2 := by
  have hdropped := stands_dropRefused hset (hs.attempt (.decision d)) (hD.attempt (.decision d))
  obtain ⟨es, hr, -, hnone, hsome⟩ := run_choose table d hs
  obtain ⟨fs, hr', -, -, hended⟩ := run_dropRefused table d (hs.attempt (.decision d))
  have hsealed := hr'.sealed (hs.attempt (.decision d)).toSealed
  rw [choose_eq] at hr hnone hsome ⊢
  split
  · rename_i hrej
    -- Only the end of the input could be left to refuse.
    rw [hsealed.nextKind_eq_endOfInput_iff.2 (hended hrej)] at hrej
    exact absurd hrej hset.endOfInput
  · rename_i hrej
    rw [if_neg hrej] at hr hsome
    obtain ⟨hready, haction, hne, -⟩ := hsome _ rfl
    exact ⟨es, _, rfl, hr, hready, haction, hne, hdropped.resume⟩

/-- The kinds at which a table says to go on without going in. -/
def leaves (table : Table) (d : Decision) (k : TokenKind) : Bool :=
  match table.action d k with
  | .descend _ | .reject => false
  | _ => true

/-- The kinds at which a table says to go in. -/
def descends (table : Table) (d : Decision) (k : TokenKind) : Bool :=
  match table.action d k with
  | .descend _ => true
  | _ => false

theorem StepLeads.optional {step : Step ν} (hset : Settles table d D) (h : StepLeads (D.onlyAt (descends table d)) ok err step)
    (hleave : (D.onlyAt (leaves table d)).Within ok) : StepLeads D ok err (optional table d step) := by
  intro n xs s hs hD
  obtain ⟨es, a, hsome, hr, hready, haction, hne, hstands⟩ := stands_choose hset hs hD
  unfold Parser.optional
  generalize choose table d s = c at hsome hr hready haction hstands
  obtain ⟨b, t⟩ := c
  obtain rfl : b = some a := hsome
  cases a with
  | descend r =>
    obtain ⟨fs, hr', hends⟩ := h n xs t hready (hstands.onlyAt (by rw [descends, haction]))
    exact ⟨es ++ fs, .trans hr hr', hends⟩
  | take | leave =>
    exact ⟨es, ⟨hr, hready.normal⟩, .of_matched ((hstands.onlyAt (by rw [leaves, haction])).within hleave)⟩
  | reject => exact absurd rfl hne

theorem StepLeads.whenDescends {steps : List (Step ν)} (h : StepLeads (D.onlyAt (descends table d)) ok err (sequence steps))
    (hleave : (D.onlyAt fun k => !descends table d k).Within ok) : StepLeads D ok err (whenDescends table d steps) := by
  intro n xs s hs hD
  unfold Parser.whenDescends
  split
  · rename_i r hact
    exact h n xs s hs (hD.onlyAt (by rw [descends, hact]))
  · rename_i hact
    refine ⟨[], ⟨.refl s, hs.normal⟩, .of_matched ((hD.onlyAt ?_).within hleave)⟩
    rw [descends]
    split
    · rename_i r hr
      exact absurd hr (hact r)
    · rfl

/-- A repetition keeps to an outlook that each turn leads back to. -/
theorem Leads.many {reader : Reader ν} {kind : TokenKind} (hset : Settles table d D) (hp : PassesAt kind reader)
    (hd : ∀ k r, table.action d k = .descend r → k = kind) (h : Leads (D.onlyAt (descends table d)) D err reader)
    (hleave : (D.onlyAt (leaves table d)).Within ok) : Leads D ok err (many table d reader) := by
  intro xs s hs hD
  induction hn : s.remaining using Nat.strong_induction_on generalizing s with
  | _ n ih =>
    obtain ⟨es, a, hsome, hr, hready, haction, hne, hstands⟩ := stands_choose hset hs hD
    rw [Parser.many]
    have hle := hr.remaining_le
    generalize choose table d s = c at hsome hr hready haction hstands hle
    obtain ⟨b, t⟩ := c
    obtain rfl : b = some a := hsome
    cases a with
    | reject => exact absurd rfl hne
    | take | leave =>
      exact ⟨es, ⟨hr, hready.normal⟩, .of_matched ((hstands.onlyAt (by rw [leaves, haction])).within hleave)⟩
    | descend r =>
      obtain ⟨fs, hr', hends⟩ := h xs t hready (hstands.onlyAt (by rw [descends, haction]))
      have hlt : (reader t).state.remaining < s.remaining := Nat.lt_of_lt_of_le (hp t hready (hd _ r haction)) hle
      dsimp only
      split
      · rename_i hv
        rw [if_pos hlt]
        obtain ⟨gs, hr'', hends'⟩ := ih _ (hn ▸ hlt) _ (hr'.ready hready hv) (hends.matched hv) rfl
        exact ⟨es ++ (fs ++ gs), ⟨hr.trans (hr'.run.trans hr''.run), hr''.fits⟩, hends'.matched, hends'.mismatched,
          hends'.outOfInput⟩
      · rename_i hv
        exact ⟨es ++ fs, ⟨hr.trans hr'.run, hr'.fits⟩, fun h => absurd h hv, hends.mismatched, hends.outOfInput⟩

/-- The kinds at which a table says to take a separator. -/
def takes (table : Table) (d : Decision) (k : TokenKind) : Bool :=
  match table.action d k with
  | .take _ => true
  | _ => false

/-- Nothing stands at the token after a separator. -/
theorem Leads.separated {item : Reader (List ν)} (hend : ∀ k, table.action d .endOfInput ≠ .take k)
    (hfresh : Outlook.fresh.Within D) (h : Leads D ok' err item) (hleave : (ok'.onlyAt fun k => !takes table d k).Within ok) :
    Leads D ok err (separated table d item) := by
  intro xs s hs hD
  induction hn : s.remaining using Nat.strong_induction_on generalizing s with
  | _ n ih =>
    obtain ⟨es, hr, hends⟩ := h xs s hs hD
    rw [Parser.separated]
    dsimp only
    split
    · rename_i hv
      have hready := hr.ready hs hv
      split
      · rename_i k hact
        have hne : (item s).state.cursor.rest ≠ [] := hready.rest_ne_nil (fun hk => hend k (hk ▸ hact))
        have hrs : Run s (es ++ [.shift (item s).state.lookahead]) (item s).state.shift := hr.run.trans (.ofMove (.shift hready.normal hne))
        have hlt : (item s).state.shift.remaining < s.remaining :=
          Nat.lt_of_lt_of_le (State.remaining_shift_lt hne) hr.run.remaining_le
        rw [if_pos hlt]
        obtain ⟨fs, hr', hends'⟩ := ih _ (hn ▸ hlt) _ ⟨hrs.sealed hs.toSealed, hready.normal⟩
          (((hends.matched hv).shift hready.toSealed hne).within hfresh) rfl
        exact ⟨_, .trans hrs ⟨hr'.run, hr'.fits⟩, hends'.matched, hends'.mismatched, hends'.outOfInput⟩
      · rename_i hact
        have htakes : (!takes table d (item s).state.nextKind) = true := by
          rw [takes]
          split
          · rename_i k hk
            exact absurd hk (hact k)
          · rfl
        exact ⟨es, ⟨hr.run, hready.normal⟩, .of_matched (((hends.matched hv).onlyAt htakes).within hleave)⟩
    · rename_i hv
      exact ⟨es, ⟨hr.run, hr.fits⟩, fun h => absurd h hv, hends.mismatched, hends.outOfInput⟩

/-! ## Rules -/

/-- A rule without a policy hands its errors on. -/
theorem Leads.phrase [Node ν] {rule : Rule} {blank : ν} {step : Step ν} (hp : rule.resyncPolicy? = none)
    (h : StepLeads D ok err step) : Leads D ok err (phrase rule blank step) := by
  intro xs s hs hD
  have ha : Run s [.attempt (.rule rule) .normal] (s.attempt (.rule rule)) := .ofMove (.attempt _ hs.normal)
  obtain ⟨es, hr, hends⟩ := h blank xs _ (hs.attempt (.rule rule)) (hD.attempt (.rule rule))
  unfold Parser.phrase
  rw [recover_of_no_policy hp]
  exact ⟨_, ⟨ha.trans hr.run, hr.fits⟩, hends.matched, hends.mismatched, hends.outOfInput⟩

/-- After an error a parse goes on at a stop token, or it gives up at the end of the input. -/
theorem stands_dropWhile (hs : s.Sealed) (hm : s.mode = .recovering) (h : Stands xs err s) (test : TokenKind → Bool) :
    (s.dropWhile test).Sealed ∧ Stands xs err.freshOr (s.dropWhile test) ∧
      ((s.dropWhile test).nextKind = .endOfInput ∨ test (s.dropWhile test).nextKind = false) := by
  obtain ⟨es, hr, -, -, hstop⟩ := run_dropWhile test hm
  have hsealed := hr.sealed hs
  refine ⟨hsealed, (h.within err.within_freshOr).dropWhile hs err.fresh_within_freshOr test, ?_⟩
  exact hstop.imp_left hsealed.nextKind_eq_endOfInput_iff.2

theorem resynchronize_ends [Node ν] (rule : Rule) (policy : ResyncPolicy) (n : ν) (hs : s.Sealed) (hm : s.mode = .recovering)
    (hend : policy.terminator ≠ some .endOfInput) (h : Stands xs err s) (hfresh : Outlook.fresh.Within ok)
    (hstop : (err.stopped policy.stop).Within ok) (hended : err.atEnd.Voiced .ended closed) :
    Ends xs ok [] (resynchronize rule policy n s) := by
  obtain ⟨hsealed, hstands, hnext⟩ :=
    stands_dropWhile hs hm h fun k => !(policy.terminator == some k) && !policy.stop.contains k
  unfold resynchronize
  generalize s.dropWhile (fun k => !(policy.terminator == some k) && !policy.stop.contains k) = t at hsealed hstands hnext
  dsimp only
  split
  · rename_i hterm
    have hne : t.cursor.rest ≠ [] := hsealed.rest_ne_nil (fun hk => hend (hk ▸ hterm))
    exact .of_matched ((hstands.shift hsealed hne).resume.within hfresh)
  · rename_i hterm
    split
    · rename_i hmem
      exact .of_matched ((hstands.onlyAt hmem).resume.within hstop)
    · rename_i hmem
      have hlast : t.nextKind = .endOfInput := by
        rcases hnext with hnext | hnext
        · exact hnext
        · simp [hterm, KindSet.mem_iff.not.1 hmem] at hnext
      exact .of_outOfInput ((hstands.onlyAt (by rw [hlast]; rfl)).abandon hended rule)

/-- A rule with a policy goes on after an error where it can, and hands none on. -/
theorem Leads.phrase_recovering [Node ν] {rule : Rule} {blank : ν} {step : Step ν} {policy : ResyncPolicy} (err : Outlook)
    (hp : rule.resyncPolicy? = some policy) (h : StepLeads D ok err step) (hfresh : Outlook.fresh.Within ok)
    (hstop : (err.stopped policy.stop).Within ok) (hended : err.atEnd.Voiced .ended closed) :
    Leads D ok [] (Parser.phrase rule blank step) := by
  intro xs s hs hD
  have ha : Run s [.attempt (.rule rule) .normal] (s.attempt (.rule rule)) := .ofMove (.attempt _ hs.normal)
  obtain ⟨es, hr, hends⟩ := h blank xs _ (hs.attempt (.rule rule)) (hD.attempt (.rule rule))
  obtain ⟨fs, hr', -⟩ := recover_reaches rule (.trans ha hr) hs.toSealed
  refine ⟨_, ⟨hr'.run, hr'.fits⟩, ?_⟩
  have hrecover : Ends xs ok [] (recover rule (step blank (s.attempt (.rule rule)))) := by
    have hsealed := (ha.trans hr.run).sealed hs.toSealed
    unfold recover
    rw [hp]
    split
    · rename_i policy' hv heq
      obtain rfl : policy = policy' := Option.some.inj heq
      have hterm : policy.terminator ≠ some .endOfInput := by
        have hne := terminator?_ne_endOfInput rule
        rwa [Rule.terminator?, hp] at hne
      exact resynchronize_ends rule policy _ hsealed (hr.recovering hv) hterm (hends.mismatched hv) hfresh hstop hended
    · rename_i hv
      exact ⟨hends.matched, fun h => absurd rfl (hv policy h), hends.outOfInput⟩
  exact ⟨hrecover.matched, hrecover.mismatched, hrecover.outOfInput⟩

end Parser

end QuillFrontEnd
