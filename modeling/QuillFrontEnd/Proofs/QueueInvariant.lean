import QuillFrontEnd.Proofs.Verdict
import QuillFrontEnd.Proofs.TokenOrder
import Mathlib.Data.List.Induction

/-!
# What a queue keeps

The counts of a queue are those of the diagnostics in it, no two of which repeat one another, and it holds no more errors than its
limit allows, fatal ones apart. A diagnostic that was accepted stays, in the order of acceptance. Handing over puts the diagnostics
in the order of their positions, and one that is at the last position and came in last is handed over last.
-/

namespace QuillFrontEnd

theorem Diagnostic.repeats_comm (d e : Diagnostic) : d.repeats e = e.repeats d := by
  rw [repeats, repeats, Bool.beq_comm, Bool.beq_comm (a := d.span)]

@[simp] theorem Diagnostic.repeats_self (d : Diagnostic) : d.repeats d = true := by simp [repeats]

theorem Diagnostic.repeats_iff {d e : Diagnostic} : d.repeats e = true ↔ d.code = e.code ∧ d.span = e.span := by
  simp [repeats]

namespace Queue

variable {q : Queue} {d : Diagnostic} {ds : List Diagnostic}

/-- A queue in order: it counts what it holds, holds nothing twice and no follow-on where they are left out, and keeps to its
limit. -/
structure Tidy (q : Queue) : Prop where
  errorCount : q.errorCount = q.kept.countP Diagnostic.isError
  warningCount : q.warningCount = q.kept.countP fun d => !d.isError
  apart : q.kept.Pairwise fun d e => d.repeats e = false
  followOns : q.config.dropFollowOns = true → ∀ d ∈ q.kept, d.isFollowOn = false
  limit : 0 < q.config.errorLimit → q.kept.countP (fun d => d.isError && !d.isFatal) ≤ q.config.errorLimit

theorem tidy_empty (config : QueueConfig) : (empty config).Tidy where
  errorCount := rfl
  warningCount := rfl
  apart := .nil
  followOns _ _ h := absurd h List.not_mem_nil
  limit _ := Nat.zero_le _

/-- When a queue accepts a diagnostic. -/
theorem accepts_iff : q.accepts d = true ↔ (d.isError = true → q.limitReached = true → d.isFatal = true) ∧
    (q.config.dropFollowOns = true → d.isFollowOn = false) ∧ ∀ e ∈ q.kept, d.repeats e = false := by
  simp only [accepts, Bool.and_eq_true, Bool.not_eq_true', List.any_eq_false, Bool.not_eq_true, and_assoc]
  cases d.isError <;> cases q.limitReached <;> cases d.isFatal <;> cases q.config.dropFollowOns <;> cases d.isFollowOn <;> simp

/-- The answer to an offer is whether the queue accepts the diagnostic. -/
@[simp] theorem fst_add (q : Queue) (d : Diagnostic) : (q.add d).1 = q.accepts d := by
  unfold add
  split
  case isTrue h => exact h.symm
  case isFalse h => exact (Bool.eq_false_iff.2 h).symm

theorem kept_add_of_accepts (h : q.accepts d = true) : (q.add d).2.kept = q.kept ++ [d] := by
  rw [add, if_pos h]

theorem add_of_not_accepts (h : q.accepts d = false) : (q.add d).2 = q := by
  rw [add, if_neg (by rw [h]; decide)]

@[simp] theorem config_add (q : Queue) (d : Diagnostic) : (q.add d).2.config = q.config := by
  unfold add
  split <;> rfl

theorem addAll_cons (q : Queue) (d : Diagnostic) (ds : List Diagnostic) : q.addAll (d :: ds) = (q.add d).2.addAll ds := rfl

theorem addAll_append (q : Queue) (ds es : List Diagnostic) : q.addAll (ds ++ es) = (q.addAll ds).addAll es :=
  List.foldl_append

@[simp] theorem config_addAll (q : Queue) (ds : List Diagnostic) : (q.addAll ds).config = q.config := by
  induction ds generalizing q with
  | nil => rfl
  | cons d ds ih => rw [addAll_cons, ih, config_add]

/-! ## What is kept -/

/-- A queue stays in order when a diagnostic is offered to it. -/
theorem Tidy.add (h : q.Tidy) (d : Diagnostic) : (q.add d).2.Tidy := by
  cases hd : q.accepts d with
  | false => rwa [add_of_not_accepts hd]
  | true =>
    obtain ⟨hlimit, hfollow, hrepeats⟩ := accepts_iff.1 hd
    have hkept := kept_add_of_accepts hd
    refine ⟨?_, ?_, ?_, ?_, ?_⟩
    · rw [errorCount_add, hd, hkept, List.countP_append, List.countP_singleton, h.errorCount, Bool.true_and]
      cases d.isError <;> rfl
    · rw [hkept, List.countP_append, List.countP_singleton, ← h.warningCount, Queue.add, if_pos hd]
      cases d.isError <;> rfl
    · rw [hkept, List.pairwise_append]
      refine ⟨h.apart, List.pairwise_singleton _ _, fun e he d' hd' => ?_⟩
      rw [List.mem_singleton.1 hd', Diagnostic.repeats_comm]
      exact hrepeats e he
    · intro hconfig e he
      rw [config_add] at hconfig
      rw [hkept] at he
      rcases List.mem_append.1 he with he | he
      · exact h.followOns hconfig e he
      · rw [List.mem_singleton.1 he]
        exact hfollow hconfig
    · intro hpos
      rw [config_add] at hpos ⊢
      rw [hkept, List.countP_append, List.countP_singleton]
      have hold := h.limit hpos
      split
      · -- An error that is not fatal was accepted, so the errors before it are below the limit.
        rename_i herror
        rw [Bool.and_eq_true, Bool.not_eq_true'] at herror
        have hbelow : ¬q.limitReached = true := fun hr => by simp [hlimit herror.1 hr] at herror
        have hless : q.kept.countP (fun d => d.isError && !d.isFatal) ≤ q.kept.countP Diagnostic.isError :=
          List.countP_mono_left fun e _ he => (Bool.and_eq_true_iff.1 he).1
        rw [limitReached, Bool.and_eq_true, decide_eq_true_iff, decide_eq_true_iff, h.errorCount] at hbelow
        omega
      · exact hold

theorem Tidy.addAll (h : q.Tidy) (ds : List Diagnostic) : (q.addAll ds).Tidy := by
  induction ds generalizing q with
  | nil => exact h
  | cons d ds ih => exact ih (h.add d)

/-- What was accepted stays in a queue, in its place. -/
theorem kept_prefix_addAll (q : Queue) (ds : List Diagnostic) : q.kept <+: (q.addAll ds).kept := by
  induction ds generalizing q with
  | nil => exact List.prefix_refl _
  | cons d ds ih =>
    have hstep : q.kept <+: (q.add d).2.kept := by
      cases hd : q.accepts d with
      | false => simp [add_of_not_accepts hd]
      | true =>
        rw [kept_add_of_accepts hd]
        exact List.prefix_append _ _
    exact hstep.trans (ih (q.add d).2)

theorem length_kept_addAll_le (q : Queue) (ds : List Diagnostic) : (q.addAll ds).kept.length ≤ q.kept.length + ds.length := by
  induction ds generalizing q with
  | nil => exact Nat.le_refl _
  | cons d ds ih =>
    have hstep : (q.add d).2.kept.length ≤ q.kept.length + 1 := by
      unfold add
      split
      · exact Nat.le_of_eq List.length_append
      · exact Nat.le_succ _
    have hlater := ih (q.add d).2
    rw [addAll_cons, List.length_cons]
    omega

/-- A queue holds nothing but what was offered to it. -/
theorem mem_of_mem_addAll {e : Diagnostic} (h : e ∈ (q.addAll ds).kept) : e ∈ q.kept ∨ e ∈ ds := by
  induction ds generalizing q with
  | nil => exact .inl h
  | cons d ds ih =>
    rw [addAll_cons] at h
    rcases ih h with h | h
    · cases hd : q.accepts d with
      | false =>
        rw [add_of_not_accepts hd] at h
        exact .inl h
      | true =>
        rw [kept_add_of_accepts hd, List.mem_append, List.mem_singleton] at h
        exact h.imp_right fun he => by rw [he]; exact List.mem_cons_self
    · exact .inr (List.mem_cons_of_mem d h)

/-- Errors that are neither fatal nor follow-ons nor repetitions are all kept, as many of them as the limit allows. -/
theorem kept_addAll_empty {config : QueueConfig} (hpos : 0 < config.errorLimit) (ds : List Diagnostic)
    (hds : ∀ d ∈ ds, d.isError = true ∧ d.isFatal = false ∧ d.isFollowOn = false)
    (hapart : ds.Pairwise fun d e => d.repeats e = false) : ((empty config).addAll ds).kept = ds.take config.errorLimit := by
  induction ds using List.reverseRecOn with
  | nil => simp [empty]
  | append_singleton ds d ih =>
    rw [List.forall_mem_append, List.forall_mem_singleton] at hds
    obtain ⟨hall, herror, hfatal, hfollow⟩ := hds
    rw [List.pairwise_append] at hapart
    have hkept := ih hall hapart.1
    have hcount : ((empty config).addAll ds).errorCount = min config.errorLimit ds.length := by
      rw [((tidy_empty config).addAll ds).errorCount, hkept, List.countP_eq_length.2, List.length_take]
      exact fun e he => (hall e (List.mem_of_mem_take he)).1
    have haccepts : ((empty config).addAll ds).accepts d = decide (ds.length < config.errorLimit) := by
      rw [Bool.eq_iff_iff, accepts_iff, decide_eq_true_iff]
      have hrepeats : ∀ e ∈ ds.take config.errorLimit, d.repeats e = false := fun e he => by
        rw [Diagnostic.repeats_comm]
        exact hapart.2.2 e (List.mem_of_mem_take he) d (List.mem_singleton_self d)
      have hreached : ((empty config).addAll ds).limitReached = true ↔ config.errorLimit ≤ ds.length := by
        rw [limitReached, Bool.and_eq_true, decide_eq_true_iff, decide_eq_true_iff, hcount, config_addAll]
        change 0 < config.errorLimit ∧ config.errorLimit ≤ _ ↔ _
        omega
      rw [hkept, hreached, hfatal, hfollow]
      constructor
      · intro h
        exact Nat.lt_of_not_le fun hle => Bool.false_ne_true (h.1 herror hle)
      · intro hlt
        exact ⟨fun _ hle => absurd hlt (Nat.not_lt.2 hle), fun _ => rfl, hrepeats⟩
    rw [addAll_append, addAll_cons, addAll_nil]
    by_cases hlt : ds.length < config.errorLimit
    · rw [kept_add_of_accepts (by rw [haccepts, decide_eq_true hlt]), hkept, List.take_of_length_le (Nat.le_of_lt hlt),
        List.take_of_length_le (by rw [List.length_append, List.length_singleton]; exact hlt)]
    · rw [add_of_not_accepts (by rw [haccepts, decide_eq_false hlt]), hkept, List.take_append_of_le_length (by omega)]

/-! ## Handing over -/

theorem sorted_perm (q : Queue) : q.sorted.Perm q.kept := List.mergeSort_perm _ _

theorem mem_sorted : d ∈ q.sorted ↔ d ∈ q.kept := q.sorted_perm.mem_iff

theorem notAfter_trans (a b c : Diagnostic) (hab : a.position.notAfter b.position = true)
    (hbc : b.position.notAfter c.position = true) : a.position.notAfter c.position = true := by
  rw [Position.notAfter_iff] at *
  omega

theorem notAfter_total (a b : Diagnostic) : (a.position.notAfter b.position || b.position.notAfter a.position) = true := by
  rw [Bool.or_eq_true, Position.notAfter_iff, Position.notAfter_iff]
  omega

theorem pairwise_sorted (q : Queue) : q.sorted.Pairwise fun d e => d.position.notAfter e.position = true :=
  List.pairwise_mergeSort notAfter_trans notAfter_total q.kept

theorem Tidy.apart_sorted (h : q.Tidy) : q.sorted.Pairwise fun d e => d.repeats e = false :=
  (q.sorted_perm.pairwise_iff fun {d e} hde => by rwa [Diagnostic.repeats_comm]).2 h.apart

theorem Tidy.nodup (h : q.Tidy) : q.kept.Nodup :=
  h.apart.imp fun {d e} hde heq => by simp [heq] at hde

/-- What came in last and is at no earlier position than the others is handed over last. -/
theorem Tidy.sorted_concat (h : q.Tidy) {front : List Diagnostic} (hkept : q.kept = front ++ [d])
    (hlast : ∀ e ∈ front, e.position.notAfter d.position = true) :
    ∃ before, q.sorted = before ++ [d] ∧ before.Perm front := by
  have hnodup : q.sorted.Nodup := q.sorted_perm.nodup_iff.2 h.nodup
  have hmem : d ∈ q.kept := hkept ▸ List.mem_append_right front (List.mem_singleton_self d)
  obtain ⟨before, after, hsorted⟩ := List.append_of_mem (mem_sorted.2 hmem)
  have hnil : after = [] := by
    -- The sort is stable, so whatever comes after `d` would come before it too.
    refine List.eq_nil_iff_forall_not_mem.2 fun e he => ?_
    have hmem : e ∈ q.kept := mem_sorted.1 (by rw [hsorted]; simp [he])
    rw [hsorted, List.nodup_append, List.nodup_cons] at hnodup
    obtain ⟨-, ⟨hd, -⟩, hdisjoint⟩ := hnodup
    have hne : e ≠ d := fun heq => hd (heq ▸ he)
    have hfront : e ∈ front := by
      rw [hkept, List.mem_append, List.mem_singleton] at hmem
      exact hmem.resolve_right hne
    have hpair : [e, d].Sublist q.kept := by
      rw [hkept]
      exact (List.singleton_sublist.2 hfront).append (List.Sublist.refl [d])
    have hstable : [e, d].Sublist q.sorted := List.pair_sublist_mergeSort notAfter_trans notAfter_total (hlast e hfront) hpair
    rw [hsorted, List.sublist_append_iff] at hstable
    obtain ⟨_ | ⟨a, l⟩, l', heq, hl, hl'⟩ := hstable
    · rw [List.nil_append] at heq
      rw [← heq] at hl'
      rcases List.sublist_cons_iff.1 hl' with hl' | ⟨r, hr, -⟩
      · exact hd (hl'.subset (by simp))
      · exact hne (List.cons.inj hr).1
    · obtain ⟨rfl, -⟩ := List.cons.inj heq
      exact hdisjoint e (hl.subset List.mem_cons_self) e (List.mem_cons_of_mem d he) rfl
  subst hnil
  refine ⟨before, hsorted, ?_⟩
  have hperm := q.sorted_perm
  rw [hsorted, hkept] at hperm
  exact (List.perm_append_right_iff [d]).1 hperm

end Queue

end QuillFrontEnd
