import QuillFrontEnd.Proofs.Locality
import QuillFrontEnd.Proofs.Places
import QuillFrontEnd.Proofs.TokenOrder

/-!
# What comes later makes no difference

What a parse reports at some tokens at the beginning of its input, and which of these tokens it skips, is the same whatever comes
after them. Up to the last of these tokens two parses do the same; and what either of them does after that is at later tokens,
which are told from the earlier ones by where they start.
-/

namespace QuillFrontEnd

open QuillFrontEnd.Parser

/-- Whether a diagnostic is at the start of one of the given tokens. -/
def Diagnostic.startsAmong (tokens : List Token) (d : Diagnostic) : Bool := tokens.any fun t => d.span.start == t.span.start

/-- Token lists that agree up to the sentinel of one of them are the same. -/
theorem TokenList.eq_of_take_eq {ts ts' : TokenList} {n : Nat} (h : ts.toList.take n = ts'.toList.take n)
    (hn : ts.body.length < n) : ts = ts' := by
  have hall : ts.toList.take n = ts.toList := List.take_of_length_le (by
    rw [TokenList.toList, List.length_append, List.length_singleton]
    exact hn)
  have hpre : ts.toList <+: ts'.body ++ [ts'.sentinel] := by
    rw [← hall, h]
    exact List.take_prefix _ _
  rcases List.prefix_concat_iff.1 hpre with heq | hbody
  · rw [← ofTokens_toList ts, heq]
    exact ofTokens_toList ts'
  · have hend := ts'.body_isEnd ts.sentinel (hbody.subset (by simp [TokenList.toList]))
    rw [ts.sentinel_isEnd] at hend
    cases hend

/-- A token at the beginning of a list is at a place there. -/
theorem TokenList.exists_get?_of_mem_take {ts : TokenList} {n : Nat} {t : Token} (h : t ∈ ts.toList.take n) :
    ∃ i < (ts.toList.take n).length, ts.get? i = some t := by
  obtain ⟨i, hi, rfl⟩ := List.mem_iff_getElem.1 h
  refine ⟨i, hi, ?_⟩
  rw [List.length_take] at hi
  simp [TokenList.get?]

/-- After the tokens at the beginning of a list have been moved over, none of them is reported at or skipped any more. -/
theorem nothing_at_earlier_tokens {ts : TokenList} (hts : ts.StartsIncrease) {n : Nat} {es fs : List Event}
    (htrace : (parse ts).trace.reverse = es ++ fs) (hes : ts.toList.take n = passes es) :
    (reports fs).filter (Diagnostic.startsAmong (ts.toList.take n)) = [] ∧ ∀ t ∈ ts.toList.take n, t ∉ drops fs := by
  have hlater : ∀ e ∈ fs, ∃ x, e.InFrontOf x ∧ ∀ t ∈ ts.toList.take n, t.span.start < x.span.start := by
    intro e he
    obtain ⟨i, x, hi, hx, hfront⟩ := inFrontOf_of_later Table.standard_orderly htrace he
    refine ⟨x, hfront, fun t ht => ?_⟩
    obtain ⟨j, hj, htj⟩ := TokenList.exists_get?_of_mem_take ht
    rw [hes] at hj
    exact hts.start_lt htj hx (Nat.lt_of_lt_of_le hj hi)
  constructor
  · rw [List.filter_eq_nil_iff]
    intro d hd
    obtain ⟨e, he, hpick⟩ := List.mem_filterMap.1 hd
    obtain ⟨x, hfront, hstart⟩ := hlater e he
    cases e with
    | report d' =>
      obtain rfl : d' = d := Option.some.inj hpick
      have hat : d'.span.start = x.span.start := (Diagnostic.StandsAt.anchoredAt hfront).start
      rw [Diagnostic.startsAmong, Bool.not_eq_true, List.any_eq_false]
      intro t ht
      have hlt := hstart t ht
      simp only [beq_iff_eq]
      omega
    | _ => cases hpick
  · intro t ht hdrop
    obtain ⟨e, he, hpick⟩ := List.mem_filterMap.1 hdrop
    obtain ⟨x, hfront, hstart⟩ := hlater e he
    cases e with
    | drop t' =>
      obtain rfl : t' = t := Option.some.inj hpick
      obtain rfl : t' = x := hfront
      exact Nat.lt_irrefl _ (hstart t' ht)
    | _ => cases hpick

/-- Let two token lists agree on their first `n` tokens, and let their tokens be in the order of their offsets. Then the
diagnostics that are at one of the `n` tokens are the same, in the same order, and one of these tokens is skipped in one parse
exactly if it is skipped in the other. -/
theorem prefix_decides_reports (ts ts' : TokenList) (n : Nat) (hts : ts.StartsIncrease) (hts' : ts'.StartsIncrease)
    (h : ts.toList.take n = ts'.toList.take n) :
    (parse ts).diagnostics.filter (Diagnostic.startsAmong (ts.toList.take n)) =
        (parse ts').diagnostics.filter (Diagnostic.startsAmong (ts.toList.take n)) ∧
      ∀ t ∈ ts.toList.take n, t ∈ (parse ts).skipped ↔ t ∈ (parse ts').skipped := by
  have hdiag : ∀ ts : TokenList, (parse ts).diagnostics = reports (parse ts).trace.reverse := fun _ => rfl
  have hskip : ∀ ts : TokenList, (parse ts).skipped = drops (parse ts).trace.reverse := fun _ => rfl
  by_cases hn : ts.body.length < n
  · rw [TokenList.eq_of_take_eq h hn]
    exact ⟨rfl, fun _ _ => Iff.rfl⟩
  by_cases hn' : ts'.body.length < n
  · rw [← TokenList.eq_of_take_eq h.symm hn']
    exact ⟨rfl, fun _ _ => Iff.rfl⟩
  have hbody : ∀ {ts : TokenList}, ¬ts.body.length < n → ts.toList.take n <+: ts.body := by
    intro ts hle
    rw [TokenList.toList, List.take_append_of_le_length (by omega)]
    exact List.take_prefix _ _
  have hpre := hbody hn
  have hpre' := hbody hn'
  rw [← h] at hpre'
  rcases parse_prefix_local .standard hpre hpre' with ⟨es, x, x', hes, hes'⟩ | ⟨es, hp, ⟨fs, hfs⟩, fs', hfs'⟩
  · -- Neither parse moves over all of these tokens, and they do the same to their ends.
    rw [hdiag, hdiag, hskip, hskip, parse, parse, hes, hes']
    simp
  · obtain ⟨hreports, hdrops⟩ := nothing_at_earlier_tokens hts hfs.symm hp
    obtain ⟨hreports', hdrops'⟩ := nothing_at_earlier_tokens hts' hfs'.symm (h ▸ hp)
    rw [← h] at hreports' hdrops'
    rw [hdiag, hdiag, hskip, hskip, parse, parse, ← hfs, ← hfs']
    constructor
    · rw [reports_append, reports_append, List.filter_append, List.filter_append, hreports, hreports']
    · intro t ht
      rw [drops_append, drops_append, List.mem_append, List.mem_append, or_iff_left (hdrops t ht), or_iff_left (hdrops' t ht)]

/-- After `program x : , var number` one list goes on with a name and the other breaks off; both parses skip the comma. -/
theorem prefix_decides_reports_of_comma :
    let ts := TokenList.ofKinds [.program, .identifier, .colon, .comma, .var, .numberType, .identifier, .semicolon, .main]
    let ts' := TokenList.ofKinds [.program, .identifier, .colon, .comma, .var, .numberType, .main]
    ts.StartsIncrease ∧ ts'.StartsIncrease ∧ ts.toList.take 6 = ts'.toList.take 6 ∧
      (parse ts).diagnostics.filter (Diagnostic.startsAmong (ts.toList.take 6)) =
        (parse ts').diagnostics.filter (Diagnostic.startsAmong (ts.toList.take 6)) ∧
      ∃ t ∈ ts.toList.take 6, t.kind = .comma ∧ t ∈ (parse ts).skipped ∧ t ∈ (parse ts').skipped := by
  intro ts ts'
  have hts : ts.StartsIncrease := TokenList.startsIncrease_ofKinds (by decide)
  have hts' : ts'.StartsIncrease := TokenList.startsIncrease_ofKinds (by decide)
  have htake : ts.toList.take 6 = ts'.toList.take 6 := by decide +kernel
  obtain ⟨hreports, hskipped⟩ := prefix_decides_reports ts ts' 6 hts hts' htake
  have hcomma : ∃ t ∈ ts.toList.take 6, t.kind = .comma ∧ t ∈ (parse ts).skipped := by decide +kernel
  obtain ⟨t, ht, hkind, hskip⟩ := hcomma
  exact ⟨hts, hts', htake, hreports, t, ht, hkind, hskip, (hskipped t ht).1 hskip⟩

end QuillFrontEnd
