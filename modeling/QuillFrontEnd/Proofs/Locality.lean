import QuillFrontEnd.Proofs.Readers

/-!
# One token of lookahead

Two parses whose next tokens are the same do the same as long as these last, whatever comes after them: a decision looks at the
next token and no further, and nothing that was done is taken back. This is true with any table.

Each function that readers are made of is shown to keep two states together; a reader is then local because its parts are.
-/

namespace QuillFrontEnd

namespace Parser

variable {ν ν' μ : Type} {p q : List Token} {s s' t t' u u' : State} {same same' : Prop}

/-! ## States that stay together -/

/-- Two states in the same mode with the given tokens next in both. -/
structure Agree (p : List Token) (s s' : State) : Prop where
  mode : s.mode = s'.mode
  left : p <+: s.cursor.rest
  right : p <+: s'.cursor.rest

namespace Agree

theorem lookahead_eq {x : Token} (h : Agree (x :: p) s s') : s.lookahead = x ∧ s'.lookahead = s.lookahead := by
  obtain ⟨xs, hx⟩ := h.left
  obtain ⟨ys, hy⟩ := h.right
  unfold State.lookahead Cursor.peek
  rw [← hx, ← hy]
  exact ⟨rfl, rfl⟩

theorem nextKind_eq {x : Token} (h : Agree (x :: p) s s') : s'.nextKind = s.nextKind := by
  rw [State.nextKind, State.nextKind, h.lookahead_eq.2]

theorem rest_ne_nil {x : Token} (h : Agree (x :: p) s s') : s.cursor.rest ≠ [] ∧ s'.cursor.rest ≠ [] := by
  obtain ⟨xs, hx⟩ := h.left
  obtain ⟨ys, hy⟩ := h.right
  rw [← hx, ← hy]
  exact ⟨by simp, by simp⟩

/-- The tokens that are left after events with the same effect on both states. -/
theorem after {es : List Event} (he : Effect s es t) (he' : Effect s' es t') (h : Agree (passes es ++ q) s s')
    (hm : t.mode = t'.mode) : Agree q t t' := by
  have hl := h.left
  have hr := h.right
  rw [he.rest, List.prefix_append_right_inj] at hl
  rw [he'.rest, List.prefix_append_right_inj] at hr
  exact ⟨hm, hl, hr⟩

end Agree

/-- What becomes of two states `s` and `s'` with the tokens of `p` next in both: the events are the same until all of `p` is passed
over, or to the end, where the results are the same as well. -/
def Together (p : List Token) (s s' : State) (same : Prop) (t t' : State) : Prop :=
  (∃ es q, p = passes es ++ q ∧ Effect s es t ∧ Effect s' es t' ∧ t.mode = t'.mode ∧ same) ∨
    ∃ es, p = passes es ∧ es.reverse ++ s.trace <:+ t.trace ∧ es.reverse ++ s'.trace <:+ t'.trace

namespace Together

/-- Events that pass over nothing and have the same effect on both states. -/
theorem of_effect {es : List Event} (hes : passes es = []) (h : Effect s es t) (h' : Effect s' es t')
    (hm : t.mode = t'.mode) (hsame : same) : Together p s s' same t t' :=
  .inl ⟨es, p, by rw [hes, List.nil_append], h, h', hm, hsame⟩

/-- Where no token is known to be the same, nothing is claimed but that the traces go on. -/
theorem of_nil (h : s.trace <:+ t.trace) (h' : s'.trace <:+ t'.trace) : Together [] s s' same t t' :=
  .inr ⟨[], rfl, h, h'⟩

/-- Events with the same effect on both states may come first. -/
theorem head {es : List Event} (he : Effect s es t) (he' : Effect s' es t') (h : Together q t t' same u u') :
    Together (passes es ++ q) s s' same u u' := by
  rcases h with ⟨fs, r, rfl, hf, hf', hm, hs⟩ | ⟨fs, rfl, hf, hf'⟩
  · refine .inl ⟨es ++ fs, r, ?_, he.trans hf, he'.trans hf', hm, hs⟩
    rw [passes_append, List.append_assoc]
  · refine .inr ⟨es ++ fs, (passes_append es fs).symm, ?_, ?_⟩
    · rw [List.reverse_append, List.append_assoc, ← he.trace]
      exact hf
    · rw [List.reverse_append, List.append_assoc, ← he'.trace]
      exact hf'

/-- States that stay together in one part and in the next stay together in both. The next part only matters where there is a
token left that is the same. -/
theorem trans (ha : Agree p s s') (h : Together p s s' same t t') (hu : t.trace <:+ u.trace) (hu' : t'.trace <:+ u'.trace)
    (h' : ∀ es x q, Effect s es t → Effect s' es t' → same → Agree (x :: q) t t' → Together (x :: q) t t' same' u u') :
    Together p s s' same' u u' := by
  rcases h with ⟨es, q, rfl, he, he', hm, hs⟩ | ⟨es, rfl, he, he'⟩
  · cases q with
    | nil => exact .head he he' (.of_nil hu hu')
    | cons x q => exact .head he he' (h' es x q he he' hs (.after he he' ha hm))
  · exact .inr ⟨es, rfl, he.trans hu, he'.trans hu'⟩

end Together

/-! ## Dropping tokens -/

theorem suffix_of_effect {es : List Event} (h : Effect s es t) : s.trace <:+ t.trace := by
  rw [h.trace]
  exact List.suffix_append _ _

theorem suffix_dropAhead (test : TokenKind → Bool) (ts : List Token) (s : State) :
    s.trace <:+ (State.dropAhead test ts s).trace := by
  induction ts generalizing s with
  | nil => exact List.suffix_rfl
  | cons x ts ih =>
    rw [State.dropAhead]
    split
    · exact (List.suffix_cons _ _).trans (ih s.drop)
    · exact List.suffix_rfl

theorem suffix_dropWhile (test : TokenKind → Bool) (s : State) : s.trace <:+ (s.dropWhile test).trace :=
  suffix_dropAhead test _ s

/-- Tokens are dropped one by one, each for its own kind. -/
theorem together_dropWhile (test : TokenKind → Bool) (ha : Agree p s s') :
    Together p s s' True (s.dropWhile test) (s'.dropWhile test) := by
  induction p generalizing s s' with
  | nil => exact .of_nil (suffix_dropWhile test s) (suffix_dropWhile test s')
  | cons x p ih =>
    obtain ⟨hne, hne'⟩ := ha.rest_ne_nil
    obtain ⟨hx, hx'⟩ := ha.lookahead_eq
    rw [hx] at hx'
    have hstep : ∀ v : State, v.cursor.rest ≠ [] → v.lookahead = x →
        v.dropWhile test = if test x.kind then v.drop.dropWhile test else v := by
      intro v hv hvx
      rw [State.dropWhile, State.rest_eq_lookahead_cons hv, State.dropAhead, hvx]
      rfl
    rw [hstep s hne hx, hstep s' hne' hx']
    by_cases ht : test x.kind = true
    · rw [if_pos ht, if_pos ht]
      have hd : Effect s [.drop x] s.drop := hx ▸ .drop hne
      have hd' : Effect s' [.drop x] s'.drop := hx' ▸ .drop hne'
      exact .head hd hd' (ih (.after hd hd' ha ha.mode))
    · rw [if_neg ht, if_neg ht]
      exact .of_effect rfl (.refl s) (.refl s') ha.mode trivial

/-! ## Complaints and decisions -/

theorem together_mismatch (ha : Agree p s s') (d : Diagnostic) (hsame : same) :
    Together p s s' same (s.mismatch d) (s'.mismatch d) := by
  have he := Effect.mismatch s d
  have he' := Effect.mismatch s' d
  rw [← ha.mode] at he'
  exact .of_effect (passes_complaint _ _) he he' (by rw [State.mode_mismatch, State.mode_mismatch]) hsame

theorem together_abandon {x : Token} (ha : Agree (x :: p) s s') (rule : Rule) (hsame : same) :
    Together (x :: p) s s' same (s.abandon rule) (s'.abandon rule) := by
  have he := Effect.abandon s rule
  have he' := Effect.abandon s' rule
  rw [ha.lookahead_eq.2] at he'
  exact .of_effect rfl he he' ha.mode hsame

theorem suffix_dropRefused (table : Table) (d : Decision) (s : State) : s.trace <:+ (dropRefused table d s).trace := by
  unfold dropRefused
  split
  · exact (suffix_of_effect (.mismatch s _)).trans (suffix_dropWhile _ _)
  · exact List.suffix_rfl

theorem together_dropRefused (table : Table) (d : Decision) {x : Token} (ha : Agree (x :: p) s s') :
    Together (x :: p) s s' True (dropRefused table d s) (dropRefused table d s') := by
  unfold dropRefused
  rw [ha.nextKind_eq, ha.lookahead_eq.2]
  split
  · exact (together_mismatch ha _ trivial).trans ha (suffix_dropWhile _ _) (suffix_dropWhile _ _)
      fun _ _ _ _ _ _ ha' => together_dropWhile _ ha'
  · exact .of_effect rfl (.refl s) (.refl s') ha.mode trivial

theorem suffix_choose (table : Table) (d : Decision) (s : State) : s.trace <:+ (choose table d s).2.trace := by
  have h := (suffix_of_effect (.attempt s (.decision d))).trans (suffix_dropRefused table d _)
  rw [choose_eq]
  split
  · exact h.trans (suffix_of_effect (.abandon _ _))
  · exact h

theorem together_attempt (ha : Agree p s s') (g : Goal) : Together p s s' True (s.attempt g) (s'.attempt g) := by
  have he := Effect.attempt s g
  have he' := Effect.attempt s' g
  rw [← ha.mode] at he'
  exact .of_effect rfl he he' ha.mode trivial

/-- A decision is made by the kind of the first token that is not refused. -/
theorem together_choose (table : Table) (d : Decision) (ha : Agree p s s') :
    Together p s s' ((choose table d s).1 = (choose table d s').1) (choose table d s).2 (choose table d s').2 := by
  have hdrop := (together_attempt ha (.decision d)).trans ha (suffix_dropRefused table d _) (suffix_dropRefused table d _)
    fun _ _ _ _ _ _ ha' => together_dropRefused table d ha'
  have hsuffix : ∀ v : State, (dropRefused table d (v.attempt (.decision d))).trace <:+ (choose table d v).2.trace := by
    intro v
    rw [choose_eq]
    split
    · exact suffix_of_effect (.abandon _ _)
    · exact List.suffix_rfl
  refine hdrop.trans ha (hsuffix s) (hsuffix s') fun _ x q _ _ _ hq => ?_
  rw [choose_eq, choose_eq]
  generalize dropRefused table d (s.attempt (.decision d)) = t at hq
  generalize dropRefused table d (s'.attempt (.decision d)) = t' at hq
  rw [hq.nextKind_eq]
  split
  · exact together_abandon hq d.rule rfl
  · exact .of_effect rfl (.resume t) (.resume t') rfl rfl

theorem together_shift {x : Token} (ha : Agree (x :: p) s s') (hsame : same) : Together (x :: p) s s' same s.shift s'.shift := by
  obtain ⟨hne, hne'⟩ := ha.rest_ne_nil
  obtain ⟨hx, hx'⟩ := ha.lookahead_eq
  have he := Effect.shift hne
  have he' := Effect.shift hne'
  rw [hx', hx] at he'
  rw [hx] at he
  exact .inl ⟨_, p, rfl, he, he', ha.mode, hsame⟩

/-! ## Local readers and steps -/

/-- A family of readers, such as a step, that keep states together and only add to the trace. -/
structure Local {α : Type} (f : α → Reader ν) : Prop where
  adds : ∀ a s, s.trace <:+ (f a s).state.trace
  together : ∀ {x p s s'} (a b : α), Agree (x :: p) s s' →
    Together (x :: p) s s' ((f a s).verdict = (f b s').verdict) (f a s).state (f b s').state

/-- A reader that keeps states together. -/
def LocalReader (reader : Reader ν) : Prop := Local fun _ : Unit => reader

/-- A step on a fixed node is a reader. -/
theorem Local.reader {α : Type} {f : α → Reader ν} (h : Local f) (a : α) : LocalReader (f a) :=
  ⟨fun _ => h.adds a, fun _ _ => h.together a a⟩

theorem terminal_eq (rule : Rule) (kind : TokenKind) (follow : KindSet) (put : ν → Terminal → ν) (n : ν) (s : State) :
    terminal rule kind follow put n s =
      if (s.attempt (.terminal kind)).nextKind = kind then
        ⟨put n (.ofToken s.lookahead), .matched, (s.attempt (.terminal kind)).shift⟩
      else if (s.attempt (.terminal kind)).nextKind ∈ follow then
        ⟨put n (.inserted kind s.lookahead), .matched, (s.attempt (.terminal kind)).insert kind rule⟩
      else ⟨n, .mismatched, (s.attempt (.terminal kind)).mismatch
        ((Diagnostic.unexpected (s.attempt (.terminal kind)).lookahead kind.displayName).noting rule.context)⟩ := by
  unfold terminal readTerminal
  dsimp only
  by_cases h1 : (s.attempt (.terminal kind)).nextKind = kind
  · rw [if_pos h1, if_pos h1]
    rfl
  · rw [if_neg h1, if_neg h1]
    by_cases h2 : (s.attempt (.terminal kind)).nextKind ∈ follow
    · rw [if_pos h2, if_pos h2]
      rfl
    · rw [if_neg h2, if_neg h2]

theorem Local.terminal (rule : Rule) (kind : TokenKind) (follow : KindSet) (put : ν → Terminal → ν) :
    Local (terminal rule kind follow put) := by
  have hsuffix : ∀ (n : ν) (s : State), (s.attempt (.terminal kind)).trace <:+
      (Parser.terminal rule kind follow put n s).state.trace := by
    intro n s
    rw [terminal_eq]
    split
    · exact List.suffix_cons _ _
    · split
      · exact suffix_of_effect (.insert _ kind rule)
      · exact suffix_of_effect (.mismatch _ _)
  constructor
  · intro n s
    exact (suffix_of_effect (.attempt s (.terminal kind))).trans (hsuffix n s)
  · intro x p s s' n n' ha
    refine (together_attempt ha (.terminal kind)).trans ha (hsuffix n s) (hsuffix n' s') fun _ y q _ _ _ hq => ?_
    rw [terminal_eq, terminal_eq, hq.nextKind_eq, hq.lookahead_eq.2]
    split
    · exact together_shift hq rfl
    · split
      · have he := Effect.insert (s.attempt (.terminal kind)) kind rule
        have he' := Effect.insert (s'.attempt (.terminal kind)) kind rule
        rw [hq.lookahead_eq.2] at he'
        exact .of_effect rfl he he' hq.mode rfl
      · exact together_mismatch hq _ rfl

theorem Local.child {reader : Reader μ} (h : LocalReader reader) (put : ν → μ → ν) : Local (child reader put) :=
  ⟨fun _ s => h.adds () s, fun _ _ ha => h.together () () ha⟩

theorem Local.nil : Local (sequence ([] : List (Step ν))) :=
  ⟨fun _ _ => List.suffix_rfl, fun _ _ ha => .of_effect rfl (.refl _) (.refl _) ha.mode rfl⟩

theorem Local.cons {step : Step ν} {steps : List (Step ν)} (h : Local step) (h' : Local (sequence steps)) :
    Local (sequence (step :: steps)) := by
  have hsuffix : ∀ (n : ν) (s : State), (step n s).state.trace <:+ (sequence (step :: steps) n s).state.trace := by
    intro n s
    rw [sequence]
    split
    · exact h'.adds _ _
    · exact List.suffix_rfl
  constructor
  · intro n s
    exact (h.adds n s).trans (hsuffix n s)
  · intro x p s s' n n' ha
    refine (h.together n n' ha).trans ha (hsuffix n s) (hsuffix n' s') fun _ y q _ _ hv hq => ?_
    by_cases hm : (step n s).verdict = .matched
    · rw [sequence_cons_of_matched steps hm, sequence_cons_of_matched steps (hv ▸ hm)]
      exact h'.together _ _ hq
    · rw [sequence_cons_of_ne_matched steps hm, sequence_cons_of_ne_matched steps (hv ▸ hm)]
      exact .of_effect rfl (.refl _) (.refl _) hq.mode hv

theorem Local.whenDescends {table : Table} {d : Decision} {steps : List (Step ν)} (h : Local (sequence steps)) :
    Local (whenDescends table d steps) := by
  constructor
  · intro n s
    unfold Parser.whenDescends
    split
    · exact h.adds n s
    · exact List.suffix_rfl
  · intro x p s s' n n' ha
    unfold Parser.whenDescends
    rw [ha.nextKind_eq]
    split
    · exact h.together n n' ha
    · exact .of_effect rfl (.refl _) (.refl _) ha.mode rfl

theorem Local.optional {table : Table} {d : Decision} {step : Step ν} (h : Local step) : Local (optional table d step) := by
  have hsuffix : ∀ (n : ν) (s : State), (choose table d s).2.trace <:+ (Parser.optional table d step n s).state.trace := by
    intro n s
    unfold Parser.optional
    split
    · rename_i t hc
      rw [hc]
      exact h.adds n t
    · rename_i hc
      simp only [hc, List.suffix_rfl]
    · rename_i hc
      simp only [hc, List.suffix_rfl]
  constructor
  · intro n s
    exact (suffix_choose table d s).trans (hsuffix n s)
  · intro x p s s' n n' ha
    refine (together_choose table d ha).trans ha (hsuffix n s) (hsuffix n' s') fun _ y q _ _ hc hq => ?_
    unfold Parser.optional
    generalize choose table d s = c at hc hq
    generalize choose table d s' = c' at hc hq
    obtain ⟨a, t⟩ := c
    obtain ⟨a', t'⟩ := c'
    obtain rfl : a = a' := hc
    cases a with
    | none => exact .of_effect rfl (.refl _) (.refl _) hq.mode rfl
    | some a =>
      cases a with
      | descend r => exact h.together n n' hq
      | take | leave | reject => exact .of_effect rfl (.refl _) (.refl _) hq.mode rfl

/-! ## Phrases -/

theorem suffix_resynchronize [Node ν] (rule : Rule) (policy : ResyncPolicy) (n : ν) (s : State) :
    (s.dropWhile fun k => !(policy.terminator == some k) && !policy.stop.contains k).trace <:+
      (resynchronize rule policy n s).state.trace := by
  unfold resynchronize
  dsimp only
  split
  · exact List.suffix_cons _ _
  · split
    · exact List.suffix_rfl
    · exact suffix_of_effect (.abandon _ _)

/-- Going on after an error depends on the tokens that are dropped and on the one after them. -/
theorem together_resynchronize [Node ν] [Node ν'] (rule : Rule) (policy : ResyncPolicy) (n : ν) (n' : ν') {x : Token}
    (ha : Agree (x :: p) s s') :
    Together (x :: p) s s' ((resynchronize rule policy n s).verdict = (resynchronize rule policy n' s').verdict)
      (resynchronize rule policy n s).state (resynchronize rule policy n' s').state := by
  refine (together_dropWhile (fun k => !(policy.terminator == some k) && !policy.stop.contains k) ha).trans ha
    (suffix_resynchronize rule policy n s) (suffix_resynchronize rule policy n' s') fun _ y q _ _ _ hq => ?_
  unfold resynchronize
  dsimp only
  generalize s.dropWhile (fun k => !(policy.terminator == some k) && !policy.stop.contains k) = t at hq
  generalize s'.dropWhile (fun k => !(policy.terminator == some k) && !policy.stop.contains k) = t' at hq
  rw [hq.nextKind_eq]
  split
  · exact (together_shift hq trivial).trans hq List.suffix_rfl List.suffix_rfl
      fun _ _ _ _ _ _ _ => .of_effect rfl (.resume _) (.resume _) rfl rfl
  · split
    · exact .of_effect rfl (.resume _) (.resume _) rfl rfl
    · exact together_abandon hq rule rfl

theorem suffix_recover [Node ν] (rule : Rule) (o : Outcome ν) : o.state.trace <:+ (recover rule o).state.trace := by
  unfold recover
  split
  · exact (suffix_dropWhile _ _).trans (suffix_resynchronize rule _ _ _)
  · exact List.suffix_rfl

theorem together_recover [Node ν] (rule : Rule) {o o' : Outcome ν} (hv : o.verdict = o'.verdict) {x : Token}
    (ha : Agree (x :: p) o.state o'.state) :
    Together (x :: p) o.state o'.state ((recover rule o).verdict = (recover rule o').verdict) (recover rule o).state
      (recover rule o').state := by
  unfold recover
  rw [← hv]
  split
  · exact together_resynchronize rule _ _ _ ha
  · exact .of_effect rfl (.refl _) (.refl _) ha.mode hv

theorem Local.phrase [Node ν] {rule : Rule} {blank : ν} {step : Step ν} (h : Local step) :
    LocalReader (phrase rule blank step) := by
  have hadds : ∀ s : State, (s.attempt (.rule rule)).trace <:+
      (recover rule (step blank (s.attempt (.rule rule)))).state.trace :=
    fun s => (h.adds blank _).trans (suffix_recover rule _)
  constructor
  · intro _ s
    exact (suffix_of_effect (.attempt s (.rule rule))).trans (hadds s)
  · intro x p s s' _ _ ha
    refine (together_attempt ha (.rule rule)).trans ha (hadds s) (hadds s') fun _ y q _ _ _ hq => ?_
    refine (h.together blank blank hq).trans hq (suffix_recover rule _) (suffix_recover rule _) fun _ z r _ _ hv hr => ?_
    exact together_recover rule hv hr

/-! ## Repetitions -/

/-- Whether anything was passed over is the same after the same events. -/
theorem remaining_lt_iff {es fs : List Event} (he : Effect s es t) (he' : Effect s' es t') (hf : Effect t fs u)
    (hf' : Effect t' fs u') : u'.remaining < s'.remaining ↔ u.remaining < s.remaining := by
  have h := (he.trans hf).remaining
  have h' := (he'.trans hf').remaining
  omega

section

variable {table : Table} {d : Decision} {reader : Reader μ}

theorem suffix_many (h : ∀ s, s.trace <:+ (reader s).state.trace) (s : State) :
    (choose table d s).2.trace <:+ (many table d reader s).state.trace := by
  fun_induction many table d reader s with
  | case1 s t hc => simp only [hc, List.suffix_rfl]
  | case2 s r t hc o hv hlt others ih =>
    rw [hc]
    exact (h t).trans ((suffix_choose table d o.state).trans ih)
  | case3 s r t hc o hv hlt => rw [hc]; exact h t
  | case4 s r t hc o hv => rw [hc]; exact h t
  | case5 s a t hleave hc => simp only [hc, List.suffix_rfl]

theorem suffix_many_of_descend (h : ∀ s, s.trace <:+ (reader s).state.trace) {r : Rule}
    (hc : choose table d s = (some (.descend r), t)) :
    (reader t).state.trace <:+ (many table d reader s).state.trace := by
  rw [many, hc]
  dsimp only
  split
  · split
    · exact (suffix_choose table d _).trans (suffix_many h _)
    · exact List.suffix_rfl
  · exact List.suffix_rfl

theorem Local.many (h : LocalReader reader) : LocalReader (many table d reader) := by
  have hadds : ∀ s, (choose table d s).2.trace <:+ (Parser.many table d reader s).state.trace := suffix_many (h.adds ())
  constructor
  · intro _ s
    exact (suffix_choose table d s).trans (hadds s)
  · intro x p s s' _ _ ha
    induction hn : s.remaining using Nat.strong_induction_on generalizing x p s s' with
    | _ n ih =>
      refine (together_choose table d ha).trans ha (hadds s) (hadds s') fun es y q he he' hc hq => ?_
      rcases hcs : choose table d s with ⟨a, t⟩
      rcases hcs' : choose table d s' with ⟨a', t'⟩
      rw [hcs, hcs'] at hc hq
      rw [hcs] at he
      rw [hcs'] at he'
      obtain rfl : a = a' := hc
      cases a with
      | none =>
        rw [Parser.many, Parser.many, hcs, hcs']
        exact .of_effect rfl (.refl _) (.refl _) hq.mode rfl
      | some a =>
        cases a with
        | take | leave | reject =>
          rw [Parser.many, Parser.many, hcs, hcs']
          exact .of_effect rfl (.refl _) (.refl _) hq.mode rfl
        | descend r =>
          refine (h.together () () hq).trans hq (suffix_many_of_descend (h.adds ()) hcs)
            (suffix_many_of_descend (h.adds ()) hcs') fun fs z r hf hf' hv hr => ?_
          have hlt := remaining_lt_iff he he' hf hf'
          dsimp only at hv hr
          rw [Parser.many, Parser.many, hcs, hcs']
          dsimp only
          rw [← hv]
          split
          · by_cases hl : (reader t).state.remaining < s.remaining
            · rw [if_pos hl, if_pos (hlt.2 hl)]
              exact ih _ (hn ▸ hl) hr rfl
            · rw [if_neg hl, if_neg (hl ∘ hlt.1)]
              exact .of_effect rfl (.refl _) (.refl _) hr.mode rfl
          · exact .of_effect rfl (.refl _) (.refl _) hr.mode rfl

variable {item : Reader (List μ)}

theorem suffix_separated (h : ∀ s, s.trace <:+ (item s).state.trace) (s : State) :
    (item s).state.trace <:+ (separated table d item s).state.trace := by
  fun_induction separated table d item s with
  | case1 s o hv k hk sep hlt others ih => exact (List.suffix_cons _ _).trans ((h _).trans ih)
  | case2 s o hv k hk sep hlt => exact List.suffix_cons _ _
  | case3 s o hv hk => exact List.suffix_rfl
  | case4 s o hv => exact List.suffix_rfl

theorem separated_of_take {k : TokenKind} (hv : (item s).verdict = .matched)
    (hk : table.action d (item s).state.nextKind = .take k) :
    separated table d item s =
      if (item s).state.shift.remaining < s.remaining then
        ⟨⟨(item s).node ++ (separated table d item (item s).state.shift).node.items,
          .ofToken (item s).state.lookahead :: (separated table d item (item s).state.shift).node.separators⟩,
          (separated table d item (item s).state.shift).verdict, (separated table d item (item s).state.shift).state⟩
      else ⟨⟨(item s).node, [.ofToken (item s).state.lookahead]⟩, .stalled, (item s).state.shift⟩ := by
  rw [separated]
  dsimp only
  rw [hv]
  dsimp only
  rw [hk]

theorem suffix_separated_of_take (h : ∀ s, s.trace <:+ (item s).state.trace) {k : TokenKind}
    (hv : (item s).verdict = .matched) (hk : table.action d (item s).state.nextKind = .take k) :
    (item s).state.shift.trace <:+ (separated table d item s).state.trace := by
  rw [separated_of_take hv hk]
  split
  · exact (h _).trans (suffix_separated h _)
  · exact List.suffix_rfl

theorem Local.separated (h : LocalReader item) : LocalReader (separated table d item) := by
  have hadds : ∀ s, (item s).state.trace <:+ (Parser.separated table d item s).state.trace := suffix_separated (h.adds ())
  constructor
  · intro _ s
    exact (h.adds () s).trans (hadds s)
  · intro x p s s' _ _ ha
    induction hn : s.remaining using Nat.strong_induction_on generalizing x p s s' with
    | _ n ih =>
      refine (h.together () () ha).trans ha (hadds s) (hadds s') fun es y q he he' hv hq => ?_
      by_cases hm : (item s).verdict = .matched
      · have hm' : (item s').verdict = .matched := hv.symm.trans hm
        cases hk : table.action d (item s).state.nextKind with
        | take k =>
          have hk' : table.action d (item s').state.nextKind = .take k := by rw [hq.nextKind_eq, hk]
          refine (together_shift hq trivial).trans hq (suffix_separated_of_take (h.adds ()) hm hk)
            (suffix_separated_of_take (h.adds ()) hm' hk') fun fs z r hf hf' _ hr => ?_
          have hlt := remaining_lt_iff he he' hf hf'
          rw [separated_of_take hm hk, separated_of_take hm' hk']
          by_cases hl : (item s).state.shift.remaining < s.remaining
          · rw [if_pos hl, if_pos (hlt.2 hl)]
            exact ih _ (hn ▸ hl) hr rfl
          · rw [if_neg hl, if_neg (hl ∘ hlt.1)]
            exact .of_effect rfl (.refl _) (.refl _) hr.mode rfl
        | descend | leave | reject =>
          unfold Parser.separated
          dsimp only
          rw [hm, hm']
          dsimp only
          rw [hq.nextKind_eq, hk]
          exact .of_effect rfl (.refl _) (.refl _) hq.mode rfl
      · unfold Parser.separated
        dsimp only
        rw [← hv]
        split
        · contradiction
        · exact .of_effect rfl (.refl _) (.refl _) hq.mode rfl

end

/-! ## Rules -/

variable (table : Table)

theorem local_basicType : LocalReader (basicType table) := by
  refine .phrase ⟨?_, ?_⟩
  · intro n s
    dsimp only
    split
    · exact List.suffix_cons _ _
    · exact suffix_of_effect (.mismatch _ _)
  · intro x p s s' n n' ha
    dsimp only
    rw [ha.nextKind_eq, ha.lookahead_eq.2]
    split
    · exact together_shift ha rfl
    · exact together_mismatch ha _ rfl

theorem local_extent : LocalReader extent :=
  .phrase (.cons (.terminal _ _ _ _) (.cons (.terminal _ _ _ _) (.cons (.terminal _ _ _ _) .nil)))

theorem local_dimension (rule : Rule) : LocalReader (dimension rule) := .phrase (.child local_extent _)

theorem local_noExtraDimension : Local (noExtraDimension table) := by
  constructor
  · intro n s
    unfold noExtraDimension
    split
    · exact suffix_of_effect (.mismatch _ _)
    · exact List.suffix_rfl
  · intro x p s s' n n' ha
    unfold noExtraDimension
    rw [ha.nextKind_eq, ha.lookahead_eq.2]
    split
    · exact together_mismatch ha _ rfl
    · exact .of_effect rfl (.refl _) (.refl _) ha.mode rfl

theorem local_typeSpec : LocalReader (typeSpec table) :=
  .phrase (.cons (.child (local_basicType table) _) (.cons (.whenDescends (.cons (.child (local_dimension _) _)
    (.cons (.whenDescends (.cons (.child (local_dimension _) _) (.cons (local_noExtraDimension table) .nil))) .nil))) .nil))

theorem local_declaredName : LocalReader declaredName :=
  (Local.terminal .varDecl .identifier (.ofList [.comma, .semicolon]) fun _ t => [t]).reader []

theorem local_varDecl : LocalReader (varDecl table) :=
  .phrase (.cons (.terminal _ _ _ _) (.cons (.child (local_typeSpec table) _) (.cons (.child (.separated local_declaredName) _)
    (.cons (.terminal _ _ _ _) .nil))))

theorem local_globalVars : LocalReader (globalVars table) := .phrase (.child (.many (local_varDecl table)) _)

theorem local_localVars : LocalReader (localVars table) := .phrase (.child (.many (local_varDecl table)) _)

theorem local_statement : LocalReader statement :=
  .phrase (.cons (.child (.phrase .nil) _) (.cons (.terminal _ _ _ _) .nil))

theorem local_block : LocalReader (block table) :=
  .phrase (.cons (.terminal _ _ _ _) (.cons (.child (.many local_statement) _) (.cons (.terminal _ _ _ _) .nil)))

theorem local_param : LocalReader (param table) := by
  unfold param
  exact .reader (.cons (.child (local_basicType table) _) (.cons (.terminal _ _ _ _) .nil)) ({} : Param)

theorem local_paramList : LocalReader (paramList table) :=
  .phrase (.child (.separated (.reader (.child (local_param table) _) [])) _)

theorem local_functionDecl : LocalReader (functionDecl table) :=
  .phrase (.cons (.terminal _ _ _ _) (.cons (.terminal _ _ _ _) (.cons (.terminal _ _ _ _)
    (.cons (.optional (.child (local_paramList table) _)) (.cons (.terminal _ _ _ _) (.cons (.child (local_localVars table) _)
    (.cons (.child (local_block table) _) .nil)))))))

theorem local_functions : LocalReader (functions table) := .phrase (.child (.many (local_functionDecl table)) _)

theorem local_mainBlock : LocalReader (mainBlock table) :=
  .phrase (.cons (.terminal _ _ _ _) (.cons (.child (local_block table) _) .nil))

/-! ## Programs -/

theorem suffix_restart (n : Program) (s : State) :
    (s.dropWhile fun k => !headerRestarts.contains k).trace <:+ (restart n s).state.trace := by
  unfold restart
  dsimp only
  split
  · exact List.suffix_rfl
  · exact suffix_of_effect (.abandon _ _)

theorem local_restart : Local restart := by
  constructor
  · intro n s
    exact (suffix_dropWhile _ s).trans (suffix_restart n s)
  · intro x p s s' n n' ha
    refine (together_dropWhile (fun k => !headerRestarts.contains k) ha).trans ha (suffix_restart n s) (suffix_restart n' s')
      fun _ y q _ _ _ hq => ?_
    unfold restart
    dsimp only
    generalize s.dropWhile (fun k => !headerRestarts.contains k) = t at hq
    generalize s'.dropWhile (fun k => !headerRestarts.contains k) = t' at hq
    rw [hq.nextKind_eq]
    split
    · exact .of_effect rfl (.resume _) (.resume _) rfl rfl
    · exact together_abandon hq .start rfl

theorem local_header : Local header := by
  have h : Local (sequence headerSteps) :=
    .cons (.terminal _ _ _ _) (.cons (.terminal _ _ _ _) (.cons (.terminal _ _ _ _) .nil))
  have hsuffix : ∀ (n : Program) (s : State), (sequence headerSteps n s).state.trace <:+ (header n s).state.trace := by
    intro n s
    unfold header
    dsimp only
    split
    · exact local_restart.adds _ _
    · exact List.suffix_rfl
  constructor
  · intro n s
    exact (h.adds n s).trans (hsuffix n s)
  · intro x p s s' n n' ha
    refine (h.together n n' ha).trans ha (hsuffix n s) (hsuffix n' s') fun _ y q _ _ hv hq => ?_
    unfold header
    dsimp only
    rw [← hv]
    split
    · exact local_restart.together _ _ hq
    · exact .of_effect rfl (.refl _) (.refl _) hq.mode hv

theorem local_mainStep : Local (mainStep table) := by
  have h : Local (child (mainBlock table) fun (n : Program) m => { n with main := m }) := .child (local_mainBlock table) _
  have hsuffix : ∀ (n : Program) (s : State),
      (mainBlock table s).state.trace <:+ (mainStep table n s).state.trace := by
    intro n s
    unfold mainStep
    dsimp only
    split
    · exact suffix_of_effect (.abandon _ _)
    · exact List.suffix_rfl
  constructor
  · intro n s
    exact (h.adds n s).trans (hsuffix n s)
  · intro x p s s' n n' ha
    refine (h.together n n' ha).trans ha (hsuffix n s) (hsuffix n' s') fun _ y q _ _ hv hq => ?_
    unfold mainStep
    dsimp only
    rw [← hv]
    split
    · exact together_abandon hq .main rfl
    · exact .of_effect rfl (.refl _) (.refl _) hq.mode hv

theorem local_nothingLeft : Local nothingLeft := by
  have hsuffix : ∀ s : State, (s.mismatch (trailingInput s.lookahead)).trace <:+
      ((s.mismatch (trailingInput s.lookahead)).dropWhile fun _ => true).resume.trace := fun s => suffix_dropWhile _ _
  constructor
  · intro n s
    unfold nothingLeft
    split
    · exact List.suffix_rfl
    · exact (suffix_of_effect (.mismatch s _)).trans (hsuffix s)
  · intro x p s s' n n' ha
    unfold nothingLeft
    rw [ha.lookahead_eq.2]
    split
    · exact .of_effect rfl (.refl _) (.refl _) ha.mode rfl
    · have hdrop := (together_mismatch ha (trailingInput s.lookahead) trivial).trans ha
        (suffix_dropWhile (fun _ => true) _) (suffix_dropWhile (fun _ => true) _)
        fun _ _ _ _ _ _ ha' => together_dropWhile (fun _ => true) ha'
      exact hdrop.trans ha List.suffix_rfl List.suffix_rfl
        fun _ _ _ _ _ _ _ => .of_effect rfl (.resume _) (.resume _) rfl rfl

theorem local_programSteps : Local (sequence (programSteps table)) :=
  .cons local_header (.cons (.child (local_globalVars table) _) (.cons (.child (local_functions table) _)
    (.cons (local_mainStep table) (.cons local_nothingLeft .nil))))

end Parser

open QuillFrontEnd.Parser

/-- The trace of a parse is what was done on the way to the end of the input, and the sentinel after it. -/
theorem exists_trace_eq (table : Table) (ts : TokenList) :
    ∃ x, (parseWith table ts).trace =
      .shift x :: (sequence (programSteps table) {} ((State.initial ts).attempt (.rule .start))).state.trace := by
  unfold parseWith program phrase
  rw [recover_of_no_policy rfl]
  exact ⟨_, rfl⟩

/-- The parses of two token lists that begin with the same tokens do the same until all these tokens are passed over, or to the
end of the input. -/
theorem parse_prefix_local (table : Table) {ts ts' : TokenList} {p : List Token} (h : p <+: ts.body) (h' : p <+: ts'.body) :
    (∃ es x x', (parseWith table ts).trace.reverse = es ++ [.shift x] ∧
        (parseWith table ts').trace.reverse = es ++ [.shift x']) ∨
      ∃ es, p = passes es ∧ es <+: (parseWith table ts).trace.reverse ∧ es <+: (parseWith table ts').trace.reverse := by
  have ha : Agree p (.initial ts) (.initial ts') := ⟨rfl, h, h'⟩
  obtain ⟨x, hx⟩ := exists_trace_eq table ts
  obtain ⟨x', hx'⟩ := exists_trace_eq table ts'
  have htogether := (together_attempt ha (.rule .start)).trans ha ((local_programSteps table).adds {} _)
    ((local_programSteps table).adds {} _) fun _ _ _ _ _ _ hq => (local_programSteps table).together {} {} hq
  rw [hx, hx', List.reverse_cons, List.reverse_cons]
  rcases htogether with ⟨es, q, -, he, he', -⟩ | ⟨es, hp, he, he'⟩
  · refine .inl ⟨es, x, x', ?_, ?_⟩
    · rw [he.trace]
      simp [State.initial]
    · rw [he'.trace]
      simp [State.initial]
  · have hbegins : ∀ (l : List Event), es.reverse ++ [] <:+ l → es <+: l.reverse := by
      intro l hl
      rw [List.append_nil, ← List.reverse_prefix, List.reverse_reverse] at hl
      exact hl
    exact .inr ⟨es, hp, (hbegins _ he).trans (List.prefix_append _ _), (hbegins _ he').trans (List.prefix_append _ _)⟩

end QuillFrontEnd
