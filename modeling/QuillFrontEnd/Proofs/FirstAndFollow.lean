import QuillFrontEnd.Proofs.Derivation

/-!
# What comes first in a phrase and what comes after it

`Rule.first`, `Rule.nullable` and `Rule.follow` are written down by hand. Here they are shown to say what they mean, for all
derivations: which kinds a phrase of a rule can start with, whether it can be empty, and which kinds can come directly after it in
a program. What a pattern can start with is worked out from its parts and from what the tables say of the rules in it; that the
tables agree with what is worked out for the productions is checked kind by kind. Tables that agree leave nothing out, by induction
on derivations; and they hold nothing too much, because no rule leads back to itself.
-/

namespace QuillFrontEnd

variable {r : Rule} {k : TokenKind} {p q : Pattern} {after : Bool} {u v w x : List TokenKind}

theorem Rule.mem_all (r : Rule) : r ∈ all := by cases r <;> decide

/-! ## What comes first -/

namespace Pattern

/-- Whether a pattern can derive nothing, by what is known of the rules in it. -/
def nullable : Pattern → Bool
  | token _ => false
  | phrase r => r.nullable
  | empty => true
  | append p q => p.nullable && q.nullable
  | either p q => p.nullable || q.nullable
  | repeated _ => true

/-- Whether a pattern can start with a kind, by what is known of the rules in it. -/
def startsWith (k : TokenKind) : Pattern → Bool
  | token j => j == k
  | phrase r => r.first.contains k
  | empty => false
  | append p q => p.startsWith k || p.nullable && q.startsWith k
  | either p q => p.startsWith k || q.startsWith k
  | repeated p => p.startsWith k

end Pattern

theorem Rule.nullable_production (r : Rule) : r.production.nullable = r.nullable := by cases r <;> rfl

theorem Rule.startsWith_production (r : Rule) (k : TokenKind) : r.production.startsWith k = r.first.contains k := by
  have hall : ∀ r ∈ Rule.all, ∀ k ∈ TokenKind.all, r.production.startsWith k = r.first.contains k := by decide +kernel
  exact hall r r.mem_all k k.mem_all

theorem Derives.nullable (h : Derives p w) (hw : w = []) : p.nullable = true := by
  induction h with
  | token => cases hw
  | @phrase r _ _ ih => exact r.nullable_production.symm.trans (ih hw)
  | empty | none | more => rfl
  | append _ _ ihp ihq =>
    obtain ⟨hu, hv⟩ := List.append_eq_nil_iff.1 hw
    rw [Pattern.nullable, ihp hu, ihq hv]
    rfl
  | left _ ih => rw [Pattern.nullable, ih hw, Bool.true_or]
  | right _ ih => rw [Pattern.nullable, ih hw, Bool.or_true]

theorem Derives.startsWith (h : Derives p w) (hk : w.head? = some k) : p.startsWith k = true := by
  induction h with
  | token j => simpa [Pattern.startsWith] using hk
  | @phrase r _ _ ih => exact (r.startsWith_production k).symm.trans (ih hk)
  | empty | none => cases hk
  | @append p q u v hu _ ihp ihq =>
    rw [Pattern.startsWith]
    cases u with
    | nil => rw [hu.nullable rfl, ihq hk, Bool.true_and, Bool.or_true]
    | cons j u => rw [ihp hk, Bool.true_or]
  | left _ ih => rw [Pattern.startsWith, ih hk, Bool.true_or]
  | right _ ih => rw [Pattern.startsWith, ih hk, Bool.or_true]
  | @more p u v _ _ ihp ihq =>
    cases u with
    | nil => exact ihq hk
    | cons j u => exact ihp hk

theorem Derives.of_nullable (h : p.nullable = true) : Derives p [] := by
  induction p using Pattern.unfolding_induction with
  | token k => cases h
  | phrase r ih => exact .phrase (ih (r.nullable_production.trans h))
  | empty => exact .empty
  | append p q ihp ihq =>
    obtain ⟨hp, hq⟩ := Bool.and_eq_true_iff.1 h
    exact .append (ihp hp) (ihq hq)
  | either p q ihp ihq =>
    rcases Bool.or_eq_true_iff.1 h with h | h
    · exact .left (ihp h)
    · exact .right (ihq h)
  | repeated p _ => exact .none

theorem Derives.exists_of_startsWith (h : p.startsWith k = true) : ∃ w, Derives p (k :: w) := by
  induction p using Pattern.unfolding_induction with
  | token j =>
    obtain rfl := beq_iff_eq.1 h
    exact ⟨_, .token j⟩
  | phrase r ih =>
    obtain ⟨w, hw⟩ := ih ((r.startsWith_production k).trans h)
    exact ⟨w, .phrase hw⟩
  | empty => cases h
  | append p q ihp ihq =>
    rcases Bool.or_eq_true_iff.1 h with h | h
    · obtain ⟨u, hu⟩ := ihp h
      obtain ⟨v, hv⟩ := exists_word q
      exact ⟨_, .append hu hv⟩
    · obtain ⟨hp, hq⟩ := Bool.and_eq_true_iff.1 h
      obtain ⟨v, hv⟩ := ihq hq
      exact ⟨v, .append (of_nullable hp) hv⟩
  | either p q ihp ihq =>
    rcases Bool.or_eq_true_iff.1 h with h | h
    · exact (ihp h).imp fun _ => .left
    · exact (ihq h).imp fun _ => .right
  | repeated p ih =>
    obtain ⟨w, hw⟩ := ih h
    exact ⟨_, .more hw .none⟩

theorem nullable_iff : p.nullable = true ↔ Derives p [] := ⟨.of_nullable, fun h => h.nullable rfl⟩

theorem startsWith_iff : p.startsWith k = true ↔ ∃ w, Derives p (k :: w) :=
  ⟨Derives.exists_of_startsWith, fun ⟨_, h⟩ => h.startsWith rfl⟩

/-! ## Phrases in derivations -/

/-- A derivation from a pattern in which there is a phrase of `r`: `v` is what is derived from that phrase, `u` what comes before
it and `w` what comes after it. -/
inductive Occurs (r : Rule) : Pattern → List TokenKind → List TokenKind → List TokenKind → Prop where
  | here {v : List TokenKind} : Derives r.production v → Occurs r (.phrase r) [] v []
  | phrase {r' : Rule} {u v w : List TokenKind} : Occurs r r'.production u v w → Occurs r (.phrase r') u v w
  | appendLeft {p q : Pattern} {u v w x : List TokenKind} :
      Occurs r p u v w → Derives q x → Occurs r (.append p q) u v (w ++ x)
  | appendRight {p q : Pattern} {u v w x : List TokenKind} :
      Derives p x → Occurs r q u v w → Occurs r (.append p q) (x ++ u) v w
  | left {p q : Pattern} {u v w : List TokenKind} : Occurs r p u v w → Occurs r (.either p q) u v w
  | right {p q : Pattern} {u v w : List TokenKind} : Occurs r q u v w → Occurs r (.either p q) u v w
  | moreFirst {p : Pattern} {u v w x : List TokenKind} :
      Occurs r p u v w → Derives (.repeated p) x → Occurs r (.repeated p) u v (w ++ x)
  | moreLater {p : Pattern} {u v w x : List TokenKind} :
      Derives p x → Occurs r (.repeated p) u v w → Occurs r (.repeated p) (x ++ u) v w

namespace Occurs

theorem derives (h : Occurs r p u v w) : Derives (.phrase r) v ∧ Derives p (u ++ v ++ w) := by
  induction h with
  | here h => exact ⟨.phrase h, by simpa using Derives.phrase h⟩
  | phrase _ ih => exact ⟨ih.1, .phrase ih.2⟩
  | appendLeft _ hx ih => exact ⟨ih.1, by simpa using Derives.append ih.2 hx⟩
  | appendRight hx _ ih => exact ⟨ih.1, by simpa using Derives.append hx ih.2⟩
  | left _ ih => exact ⟨ih.1, .left ih.2⟩
  | right _ ih => exact ⟨ih.1, .right ih.2⟩
  | moreFirst _ hx ih => exact ⟨ih.1, by simpa using Derives.more ih.2 hx⟩
  | moreLater hx _ ih => exact ⟨ih.1, by simpa using Derives.more hx ih.2⟩

/-- A phrase may be derived in any other way, also in one with a phrase of another rule in it. -/
theorem trans {r' : Rule} {u' v' w' : List TokenKind} (h : Occurs r' p u v w) (h' : Occurs r r'.production u' v' w') :
    Occurs r p (u ++ u') v' (w' ++ w) := by
  induction h with
  | here => simpa using Occurs.phrase h'
  | phrase _ ih => exact .phrase ih
  | appendLeft _ hx ih => simpa using Occurs.appendLeft ih hx
  | appendRight hx _ ih => simpa using Occurs.appendRight hx ih
  | left _ ih => exact .left ih
  | right _ ih => exact .right ih
  | moreFirst _ hx ih => simpa using Occurs.moreFirst ih hx
  | moreLater hx _ ih => simpa using Occurs.moreLater hx ih

end Occurs

/-! ## What comes after -/

/-- Whether a kind can come directly after a phrase of a rule in a program; nothing comes after the program itself. -/
def Rule.precedes (k : TokenKind) (r : Rule) : Bool := r != .start && r.follow.contains k

/-- Whether a kind can come directly after a phrase of `r` that a pattern names. Where the phrase is at the end of the pattern, it
is `after` that says whether the kind can come there. -/
def Pattern.offers (r : Rule) (k : TokenKind) (after : Bool) : Pattern → Bool
  | token _ | empty => false
  | phrase r' => r' == r && after
  | append p q => p.offers r k (q.startsWith k || q.nullable && after) || q.offers r k after
  | either p q => p.offers r k after || q.offers r k after
  | repeated p => p.offers r k (p.startsWith k || after)

/-- What can come after a phrase of a rule is what the productions that name the rule offer. -/
theorem Rule.precedes_iff_offers (r : Rule) (k : TokenKind) :
    r.precedes k = true ↔ ∃ r' : Rule, r'.production.offers r k (r'.precedes k) = true := by
  have hall : ∀ r ∈ Rule.all, ∀ k ∈ TokenKind.all,
      r.precedes k = Rule.all.any fun r' => r'.production.offers r k (r'.precedes k) := by decide +kernel
  rw [hall r r.mem_all k k.mem_all, List.any_eq_true]
  exact ⟨fun ⟨r', _, h⟩ => ⟨r', h⟩, fun ⟨r', h⟩ => ⟨r', r'.mem_all, h⟩⟩

/-- Let a pattern be followed by `x`, and let all that it offers be known. Then it is known that the kind after a phrase in a
derivation from the pattern can come there. -/
theorem Occurs.precedes (h : Occurs r p u v w) (hk : (w ++ x).head? = some k) (hafter : x.head? = some k → after = true)
    (hoffers : ∀ r', p.offers r' k after = true → r'.precedes k = true) : r.precedes k = true := by
  induction h generalizing x after with
  | here _ => exact hoffers r (by simp [Pattern.offers, hafter hk])
  | @phrase r' _ _ _ _ ih =>
    refine ih hk (fun hx => hoffers r' ?_) fun r'' h => (r''.precedes_iff_offers k).2 ⟨r', h⟩
    simp [Pattern.offers, hafter hx]
  | @appendLeft p q u v w y _ hy ih =>
    rw [List.append_assoc] at hk
    refine ih hk (fun hyx => ?_) fun r' h => hoffers r' (Bool.or_eq_true_iff.2 (.inl h))
    cases y with
    | nil => rw [hy.nullable rfl, hafter hyx, Bool.true_and, Bool.or_true]
    | cons j y => rw [hy.startsWith hyx, Bool.true_or]
  | appendRight _ _ ih => exact ih hk hafter fun r' h => hoffers r' (Bool.or_eq_true_iff.2 (.inr h))
  | left _ ih => exact ih hk hafter fun r' h => hoffers r' (Bool.or_eq_true_iff.2 (.inl h))
  | right _ ih => exact ih hk hafter fun r' h => hoffers r' (Bool.or_eq_true_iff.2 (.inr h))
  | @moreFirst p u v w y _ hy ih =>
    rw [List.append_assoc] at hk
    refine ih hk (fun hyx => ?_) hoffers
    cases y with
    | nil => rw [hafter hyx, Bool.or_true]
    | cons j y =>
      have hstarts : p.startsWith k = true := hy.startsWith hyx
      rw [hstarts, Bool.true_or]
  | moreLater _ _ ih => exact ih hk hafter hoffers

/-- What a pattern offers comes directly after a phrase in one of its derivations, or the phrase is at the end of one and the kind
can come after the pattern. -/
theorem exists_occurs_of_offers (h : p.offers r k after = true) :
    (∃ u v w, Occurs r p u v (k :: w)) ∨ after = true ∧ ∃ u v, Occurs r p u v [] := by
  induction p generalizing after with
  | token | empty => cases h
  | phrase r' =>
    rw [Pattern.offers, Bool.and_eq_true, beq_iff_eq] at h
    obtain ⟨rfl, hafter⟩ := h
    obtain ⟨v, hv⟩ := Derives.exists_word r'.production
    exact .inr ⟨hafter, [], v, .here hv⟩
  | append p q ihp ihq =>
    rcases Bool.or_eq_true_iff.1 h with h | h
    · rcases ihp h with ⟨u, v, w, hocc⟩ | ⟨hnext, u, v, hocc⟩
      · obtain ⟨x, hx⟩ := Derives.exists_word q
        exact .inl ⟨u, v, w ++ x, .appendLeft hocc hx⟩
      · rcases Bool.or_eq_true_iff.1 hnext with hstarts | hempty
        · obtain ⟨x, hx⟩ := Derives.exists_of_startsWith hstarts
          exact .inl ⟨u, v, x, .appendLeft hocc hx⟩
        · obtain ⟨hnull, hafter⟩ := Bool.and_eq_true_iff.1 hempty
          exact .inr ⟨hafter, u, v, .appendLeft hocc (.of_nullable hnull)⟩
    · obtain ⟨x, hx⟩ := Derives.exists_word p
      rcases ihq h with ⟨u, v, w, hocc⟩ | ⟨hafter, u, v, hocc⟩
      · exact .inl ⟨x ++ u, v, w, .appendRight hx hocc⟩
      · exact .inr ⟨hafter, x ++ u, v, .appendRight hx hocc⟩
  | either p q ihp ihq =>
    rcases Bool.or_eq_true_iff.1 h with h | h
    · exact (ihp h).imp (fun ⟨u, v, w, hocc⟩ => ⟨u, v, w, .left hocc⟩) fun ⟨ha, u, v, hocc⟩ => ⟨ha, u, v, .left hocc⟩
    · exact (ihq h).imp (fun ⟨u, v, w, hocc⟩ => ⟨u, v, w, .right hocc⟩) fun ⟨ha, u, v, hocc⟩ => ⟨ha, u, v, .right hocc⟩
  | repeated p ih =>
    rcases ih h with ⟨u, v, w, hocc⟩ | ⟨hnext, u, v, hocc⟩
    · exact .inl ⟨u, v, w, by simpa using Occurs.moreFirst hocc .none⟩
    · rcases Bool.or_eq_true_iff.1 hnext with hstarts | hafter
      · obtain ⟨x, hx⟩ := Derives.exists_of_startsWith hstarts
        exact .inl ⟨u, v, x, by simpa using Occurs.moreFirst hocc (.more hx .none)⟩
      · exact .inr ⟨hafter, u, v, .moreFirst hocc .none⟩

theorem level_lt_of_offers (h : p.offers r k after = true) : r.level < p.level := by
  induction p generalizing after with
  | token | empty => cases h
  | phrase r' =>
    rw [Pattern.offers, Bool.and_eq_true, beq_iff_eq] at h
    rw [h.1]
    exact Nat.lt_succ_self _
  | append p q ihp ihq =>
    rcases Bool.or_eq_true_iff.1 h with h | h
    · exact Nat.lt_of_lt_of_le (ihp h) (Nat.le_max_left _ _)
    · exact Nat.lt_of_lt_of_le (ihq h) (Nat.le_max_right _ _)
  | either p q ihp ihq =>
    rcases Bool.or_eq_true_iff.1 h with h | h
    · exact Nat.lt_of_lt_of_le (ihp h) (Nat.le_max_left _ _)
    · exact Nat.lt_of_lt_of_le (ihq h) (Nat.le_max_right _ _)
  | repeated p ih => exact ih h

/-- A kind that can come after a phrase of a rule is offered by a rule of a higher level. -/
theorem Rule.exists_higher_of_precedes (h : r.precedes k = true) :
    ∃ r' : Rule, r.level < r'.level ∧ r'.production.offers r k (r'.precedes k) = true := by
  obtain ⟨r', hoffers⟩ := (r.precedes_iff_offers k).1 h
  exact ⟨r', Nat.lt_of_lt_of_le (level_lt_of_offers hoffers) r'.level_production, hoffers⟩

/-- Induction from the start rule down: what holds of all rules of higher levels holds of a rule. -/
theorem Rule.downward_induction {P : Rule → Prop} (h : ∀ r : Rule, (∀ r' : Rule, r.level < r'.level → P r') → P r) (r : Rule) :
    P r := by
  have hbelow : ∀ r : Rule, r.level ≤ Rule.start.level := fun r => by cases r <;> decide
  induction hn : Rule.start.level - r.level using Nat.strongRecOn generalizing r with
  | ind n ih =>
    refine h r fun r' hlt => ih _ ?_ r' rfl
    have hr' := hbelow r'
    omega

/-- Every rule has a phrase in some program. -/
theorem exists_occurs (r : Rule) : ∃ u v w, Occurs r (.phrase .start) u v w := by
  induction r using Rule.downward_induction with
  | h r ih =>
    by_cases hr : r = .start
    · subst hr
      obtain ⟨v, hv⟩ := Derives.exists_word Rule.start.production
      exact ⟨[], v, [], .here hv⟩
    · obtain ⟨k, hk⟩ : ∃ k, r.precedes k = true := by
        have hall : ∀ r ∈ Rule.all, r ≠ .start → ∃ k ∈ TokenKind.all, r.precedes k = true := by decide +kernel
        obtain ⟨k, -, hk⟩ := hall r r.mem_all hr
        exact ⟨k, hk⟩
      obtain ⟨r', hlt, hoffers⟩ := Rule.exists_higher_of_precedes hk
      obtain ⟨u, v, w, hocc⟩ := ih r' hlt
      rcases exists_occurs_of_offers hoffers with ⟨u', v', w', hocc'⟩ | ⟨-, u', v', hocc'⟩
      · exact ⟨_, _, _, hocc.trans hocc'⟩
      · exact ⟨_, _, _, hocc.trans hocc'⟩

/-- A kind that can come after a phrase of a rule does so in some program. -/
theorem exists_occurs_of_precedes (h : r.precedes k = true) : ∃ u v w, Occurs r (.phrase .start) u v (k :: w) := by
  induction r using Rule.downward_induction with
  | h r ih =>
    obtain ⟨r', hlt, hoffers⟩ := Rule.exists_higher_of_precedes h
    rcases exists_occurs_of_offers hoffers with ⟨u, v, w, hocc⟩ | ⟨hafter, u, v, hocc⟩
    · obtain ⟨u', v', w', hocc'⟩ := exists_occurs r'
      exact ⟨_, _, _, hocc'.trans hocc⟩
    · obtain ⟨u', v', w', hocc'⟩ := ih r' hlt hafter
      exact ⟨_, _, _, hocc'.trans hocc⟩

theorem precedes_iff : r.precedes k = true ↔ ∃ u v w, Occurs r (.phrase .start) u v (k :: w) := by
  refine ⟨exists_occurs_of_precedes, fun ⟨u, v, w, hocc⟩ => ?_⟩
  -- Nothing comes after a program, so a program offers nothing.
  have hnothing : ∀ r', (Pattern.phrase .start).offers r' k false = true → r'.precedes k = true := fun r' h => by
    simp [Pattern.offers] at h
  exact hocc.precedes (x := []) (by simp) nofun hnothing

/-- The tables of the grammar say what they mean. A kind is among the first of a rule exactly if a phrase of the rule starts with
it; a rule is nullable exactly if a phrase of it can be empty; and a kind is in the follow set of a rule other than the start rule
exactly if it comes directly after a phrase of the rule in a derivation of some program. -/
theorem first_nullable_follow_exact (r : Rule) :
    (∀ k, k ∈ r.first ↔ ∃ w, Derives (.phrase r) (k :: w)) ∧ (r.nullable = true ↔ Derives (.phrase r) []) ∧
      (r ≠ .start → ∀ k, k ∈ r.follow ↔ ∃ u v w, Occurs r (.phrase .start) u v (k :: w)) := by
  refine ⟨fun k => startsWith_iff (p := .phrase r), nullable_iff (p := .phrase r), fun hr k => ?_⟩
  rw [← precedes_iff, Rule.precedes, Bool.and_eq_true, bne_iff_ne, and_iff_right hr, KindSet.mem_iff]

/-- A function can come after a block, and a brace cannot. -/
theorem first_nullable_follow_exact_block :
    Rule.block ≠ .start ∧ (∃ u v w, Derives (.phrase .block) v ∧ IsProgram (u ++ v ++ .function :: w)) ∧
      ¬∃ u v w, Occurs .block (.phrase .start) u v (.leftBrace :: w) := by
  have hne : Rule.block ≠ .start := by decide
  obtain ⟨-, -, hfollow⟩ := first_nullable_follow_exact .block
  obtain ⟨u, v, w, hocc⟩ := (hfollow hne .function).1 (by decide)
  refine ⟨hne, ⟨u, v, w, hocc.derives⟩, fun h => ?_⟩
  exact absurd ((hfollow hne .leftBrace).2 h) (by decide)

end QuillFrontEnd
