import QuillFrontEnd.Grammar.Production

/-!
# Derivations

How derivations of each form of pattern come about, that every pattern derives something because no rule leads back to itself, and
that the end of the input stands at the end of a program and nowhere else.
-/

namespace QuillFrontEnd

namespace Derives

variable {p q : Pattern} {r : Rule} {k : TokenKind} {u v w : List TokenKind}

/-! ## Forms of patterns -/

theorem token_iff : Derives (.token k) w ↔ w = [k] := by
  constructor
  · intro h
    cases h
    rfl
  · intro h
    subst h
    exact .token k

theorem phrase_iff : Derives (.phrase r) w ↔ Derives r.production w := by
  constructor
  · intro h
    cases h
    assumption
  · exact .phrase

theorem empty_iff : Derives .empty w ↔ w = [] := by
  constructor
  · intro h
    cases h
    rfl
  · intro h
    subst h
    exact .empty

theorem append_iff : Derives (.append p q) w ↔ ∃ u v, w = u ++ v ∧ Derives p u ∧ Derives q v := by
  constructor
  · intro h
    cases h with
    | append hu hv => exact ⟨_, _, rfl, hu, hv⟩
  · intro h
    obtain ⟨u, v, rfl, hu, hv⟩ := h
    exact .append hu hv

theorem either_iff : Derives (.either p q) w ↔ Derives p w ∨ Derives q w := by
  constructor
  · intro h
    cases h with
    | left h => exact .inl h
    | right h => exact .inr h
  · intro h
    rcases h with h | h
    · exact .left h
    · exact .right h

/-- A repetition derives phrases of its pattern one after the other. -/
theorem repeated_iff : Derives (.repeated p) w ↔ ∃ ws : List (List TokenKind), w = ws.flatten ∧ ∀ u ∈ ws, Derives p u := by
  constructor
  · intro h
    generalize hp : Pattern.repeated p = r at h
    induction h with
    | token | phrase | empty | append | left | right => cases hp
    | none => exact ⟨[], rfl, by simp⟩
    | @more p' u v hu _ _ ih =>
      cases hp
      obtain ⟨ws, rfl, hws⟩ := ih rfl
      exact ⟨u :: ws, rfl, List.forall_mem_cons.2 ⟨hu, hws⟩⟩
  · intro h
    obtain ⟨ws, rfl, hws⟩ := h
    induction ws with
    | nil => exact .none
    | cons u ws ih =>
      rw [List.forall_mem_cons] at hws
      exact .more hws.1 (ih hws.2)

/-- Patterns in a row may be put in brackets in either way. -/
theorem append_assoc_iff {p' : Pattern} :
    Derives (.append (.append p q) p') w ↔ Derives (.append p (.append q p')) w := by
  constructor
  · intro h
    obtain ⟨_, z, rfl, h, hz⟩ := append_iff.1 h
    obtain ⟨x, y, rfl, hx, hy⟩ := append_iff.1 h
    rw [List.append_assoc]
    exact .append hx (.append hy hz)
  · intro h
    obtain ⟨x, _, rfl, hx, h⟩ := append_iff.1 h
    obtain ⟨y, z, rfl, hy, hz⟩ := append_iff.1 h
    rw [← List.append_assoc]
    exact .append (.append hx hy) hz

end Derives

/-! ## No rule leads back to itself -/

/-- How far a rule is above the tokens: it names rules of lower levels only. -/
def Rule.level : Rule → Nat
  | .basicType | .dimDecl | .expression => 0
  | .typeDim1 | .typeDim2 | .paramList | .statement => 1
  | .type | .block => 2
  | .varDecl | .main => 3
  | .globalVars | .localVars => 4
  | .functionDecls => 5
  | .functions => 6
  | .start => 7

/-- The least number above the levels of all rules that a pattern names. -/
def Pattern.level : Pattern → Nat
  | token _ | empty => 0
  | phrase r => r.level + 1
  | append p q | either p q => max p.level q.level
  | repeated p => p.level

theorem Rule.level_production (r : Rule) : r.production.level ≤ r.level := by cases r <;> decide

/-- Induction that goes from a rule on to its production, which comes to an end because no rule leads back to itself. -/
@[elab_as_elim]
theorem Pattern.unfolding_induction {P : Pattern → Prop} (token : ∀ k, P (token k)) (phrase : ∀ r, P r.production → P (phrase r))
    (empty : P empty) (append : ∀ p q, P p → P q → P (append p q)) (either : ∀ p q, P p → P q → P (either p q))
    (repeated : ∀ p, P p → P (repeated p)) (p : Pattern) : P p := by
  have hlevel : ∀ n p, Pattern.level p ≤ n → P p := by
    intro n
    induction n using Nat.strongRecOn with
    | ind n ih =>
      intro p
      induction p with
      | token k => exact fun _ => token k
      | phrase r => exact fun h => phrase r (ih r.level h _ r.level_production)
      | empty => exact fun _ => empty
      | append p q ihp ihq => exact fun h => append p q (ihp (Nat.max_le.1 h).1) (ihq (Nat.max_le.1 h).2)
      | either p q ihp ihq => exact fun h => either p q (ihp (Nat.max_le.1 h).1) (ihq (Nat.max_le.1 h).2)
      | repeated p ihp => exact fun h => repeated p (ihp h)
  exact hlevel p.level p (Nat.le_refl _)

/-- Every pattern derives something. -/
theorem Derives.exists_word (p : Pattern) : ∃ w, Derives p w := by
  induction p using Pattern.unfolding_induction with
  | token k => exact ⟨_, .token k⟩
  | phrase r ih =>
    obtain ⟨w, hw⟩ := ih
    exact ⟨w, .phrase hw⟩
  | empty => exact ⟨_, .empty⟩
  | append p q ihp ihq =>
    obtain ⟨u, hu⟩ := ihp
    obtain ⟨v, hv⟩ := ihq
    exact ⟨_, .append hu hv⟩
  | either p q ihp _ =>
    obtain ⟨u, hu⟩ := ihp
    exact ⟨u, .left hu⟩
  | repeated p _ => exact ⟨_, .none⟩

/-! ## Kinds that are in no phrase of a pattern -/

/-- Whether a pattern names neither a kind nor one of the given rules. -/
def Pattern.avoids (k : TokenKind) (rules : List Rule) : Pattern → Bool
  | token j => j != k
  | phrase r => !rules.contains r
  | empty => true
  | append p q | either p q => p.avoids k rules && q.avoids k rules
  | repeated p => p.avoids k rules

/-- If only the given rules lead to a kind, it is in no phrase of a pattern that avoids them. -/
theorem Derives.not_mem_of_avoids {k : TokenKind} {rules : List Rule}
    (hrules : ∀ r, rules.contains r = false → r.production.avoids k rules = true) {p : Pattern} {w : List TokenKind}
    (h : Derives p w) (hp : p.avoids k rules = true) : k ∉ w := by
  induction h with
  | token j =>
    have hj : j ≠ k := by simpa [Pattern.avoids] using hp
    simpa using hj.symm
  | @phrase r w _ ih => exact ih (hrules r (by simpa [Pattern.avoids] using hp))
  | empty => simp
  | append _ _ ihp ihq =>
    rw [Pattern.avoids, Bool.and_eq_true] at hp
    exact fun hmem => (List.mem_append.1 hmem).elim (ihp hp.1) (ihq hp.2)
  | left _ ih =>
    rw [Pattern.avoids, Bool.and_eq_true] at hp
    exact ih hp.1
  | right _ ih =>
    rw [Pattern.avoids, Bool.and_eq_true] at hp
    exact ih hp.2
  | none => simp
  | more _ _ ihp ihq => exact fun hmem => (List.mem_append.1 hmem).elim (ihp hp) (ihq hp)

/-! ## The end of the input -/

/-- Whether a pattern names neither the end of the input nor the start rule. -/
def Pattern.isInner : Pattern → Bool
  | token k => k != .endOfInput
  | phrase r => r != .start
  | empty => true
  | append p q | either p q => p.isInner && q.isInner
  | repeated p => p.isInner

theorem Pattern.avoids_endOfInput (p : Pattern) : p.avoids .endOfInput [.start] = p.isInner := by
  induction p with
  | token | empty => rfl
  | phrase r => cases r <;> rfl
  | append p q ihp ihq | either p q ihp ihq => rw [avoids, isInner, ihp, ihq]
  | repeated p ih => rw [avoids, isInner, ih]

/-- The end of the input is in no phrase other than a program: only the start rule names it, and no rule names the start rule. -/
theorem Derives.endOfInput_not_mem {p : Pattern} {w : List TokenKind} (h : Derives p w) (hp : p.isInner = true) :
    .endOfInput ∉ w := by
  rw [← p.avoids_endOfInput] at hp
  exact h.not_mem_of_avoids (fun r => by cases r <;> decide) hp

/-- A program ends with the end of the input, which is nowhere else in it. -/
theorem IsProgram.exists_body {w : List TokenKind} (h : IsProgram w) :
    ∃ u, w = u ++ [.endOfInput] ∧ .endOfInput ∉ u := by
  have inner : ∀ {p u}, Derives p u → p.isInner = true → .endOfInput ∉ u := Derives.endOfInput_not_mem
  obtain ⟨k, _, rfl, hk, h⟩ := Derives.append_iff.1 (Derives.phrase_iff.1 h)
  obtain ⟨i, _, rfl, hi, h⟩ := Derives.append_iff.1 h
  obtain ⟨c, _, rfl, hc, h⟩ := Derives.append_iff.1 h
  obtain ⟨vs, _, rfl, hvs, h⟩ := Derives.append_iff.1 h
  obtain ⟨fs, _, rfl, hfs, h⟩ := Derives.append_iff.1 h
  obtain ⟨m, e, rfl, hm, he⟩ := Derives.append_iff.1 h
  refine ⟨k ++ (i ++ (c ++ (vs ++ (fs ++ m)))), by simp [Derives.token_iff.1 he], ?_⟩
  simp only [List.mem_append, not_or]
  exact ⟨inner hk rfl, inner hi rfl, inner hc rfl, inner hvs rfl, inner hfs rfl, inner hm rfl⟩

/-- A program goes no further than the end of the input. -/
theorem IsProgram.eq_of_prefix {u w : List TokenKind} (h : IsProgram w) (hpre : u ++ [.endOfInput] <+: w) :
    w = u ++ [.endOfInput] := by
  obtain ⟨v, rfl, hv⟩ := h.exists_body
  rcases List.prefix_concat_iff.1 hpre with heq | hpre
  · exact heq.symm
  · exact absurd (hpre.subset (by simp)) hv

end QuillFrontEnd
