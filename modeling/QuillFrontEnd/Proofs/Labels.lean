import QuillFrontEnd.Grammar.Rule
import QuillFrontEnd.Span
import QuillFrontEnd.Text.Quoted

/-!
# Short texts

Numbers, positions, spans, kinds of token and rules are shown by short texts. What is said of these texts here is which characters
they are made of, and that no two things have the same.
-/

namespace QuillFrontEnd

/-! ## Parts of a text -/

/-- Two texts that are cut at the first place of a character are the same only if their parts are. -/
theorem append_cons_inj {α : Type} {c : α} {as bs cs ds : List α} (has : c ∉ as) (hbs : c ∉ bs)
    (h : as ++ c :: cs = bs ++ c :: ds) : as = bs ∧ cs = ds := by
  induction as generalizing bs with
  | nil =>
    cases bs with
    | nil => exact ⟨rfl, (List.cons.inj h).2⟩
    | cons b bs => exact absurd (List.mem_cons.2 (.inl (List.cons.inj h).1)) hbs
  | cons a as ih =>
    cases bs with
    | nil => exact absurd (List.mem_cons.2 (.inl (List.cons.inj h).1.symm)) has
    | cons b bs =>
      obtain ⟨hab, htail⟩ := List.cons.inj h
      obtain ⟨rfl, hrest⟩ := ih (fun hc => has (List.mem_cons_of_mem a hc)) (fun hc => hbs (List.mem_cons_of_mem b hc)) htail
      exact ⟨congrArg (· :: as) hab, hrest⟩

/-! ## Numbers and places -/

/-- A character that is no digit does not occur in a number. -/
theorem notMem_repr {c : Char} (hc : c.isDigit = false) (n : Nat) : c ∉ n.repr.toList := fun hmem => by
  rw [Nat.toList_repr] at hmem
  rw [Nat.isDigit_of_mem_toDigits (by decide) (by decide) hmem] at hc
  cases hc

/-- No two numbers are written alike. -/
theorem eq_of_toList_repr {m n : Nat} (h : m.repr.toList = n.repr.toList) : m = n := by
  have hvalue := congrArg (Nat.ofDigitChars 10 · 0) h
  simpa only [Nat.toList_repr, Nat.ofDigitChars_toDigits (b := 10) (by decide) (by decide)] using hvalue

namespace Position

theorem toList_text (p : Position) : p.text.toList = p.line.repr.toList ++ ':' :: p.column.repr.toList := by
  rw [text, String.toList_append, String.toList_append, List.append_assoc]
  rfl

/-- A position is written with digits and a colon. -/
theorem notMem_text {c : Char} (hc : c.isDigit = false) (hcolon : c ≠ ':') (p : Position) : c ∉ p.text.toList := by
  rw [toList_text, List.mem_append, List.mem_cons]
  rintro (hmem | rfl | hmem)
  · exact notMem_repr hc _ hmem
  · exact hcolon rfl
  · exact notMem_repr hc _ hmem

theorem text_inj {p q : Position} (h : p.text = q.text) : p = q := by
  have hlist := congrArg String.toList h
  rw [toList_text, toList_text] at hlist
  obtain ⟨hline, hcolumn⟩ := append_cons_inj (notMem_repr rfl _) (notMem_repr rfl _) hlist
  cases p
  cases q
  exact (mk.injEq ..).mpr ⟨eq_of_toList_repr hline, eq_of_toList_repr hcolumn⟩

end Position

namespace Span

theorem toList_text (s : Span) : s.text.toList = s.start.repr.toList ++ '.' :: '.' :: s.stop.repr.toList := by
  rw [text, String.toList_append, String.toList_append, List.append_assoc]
  rfl

/-- A span is written with digits and dots. -/
theorem notMem_text {c : Char} (hc : c.isDigit = false) (hdot : c ≠ '.') (s : Span) : c ∉ s.text.toList := by
  rw [toList_text, List.mem_append, List.mem_cons, List.mem_cons]
  rintro (hmem | rfl | rfl | hmem)
  · exact notMem_repr hc _ hmem
  · exact hdot rfl
  · exact hdot rfl
  · exact notMem_repr hc _ hmem

theorem text_inj {s t : Span} (h : s.text = t.text) : s = t := by
  have hlist := congrArg String.toList h
  rw [toList_text, toList_text] at hlist
  obtain ⟨hstart, hstop⟩ := append_cons_inj (notMem_repr rfl _) (notMem_repr rfl _) hlist
  cases s
  cases t
  exact (mk.injEq ..).mpr ⟨eq_of_toList_repr hstart, eq_of_toList_repr (List.cons.inj hstop).2⟩

end Span

/-! ## Kinds and rules -/

/-- Names by which things are found in a list are the names of no two of them. -/
theorem eq_of_find? {α : Type} (all : List α) {name : α → String}
    (hfind : ∀ a, (all.find? fun b => name b == name a) = some a) {a b : α} (h : name a = name b) : a = b := by
  have ha := hfind a
  rw [h, hfind b] at ha
  exact (Option.some.inj ha).symm

namespace TokenKind

theorem notMem_name (k : TokenKind) : ' ' ∉ k.name.toList ∧ '\n' ∉ k.name.toList := by cases k <;> decide

theorem newline_notMem_displayName (k : TokenKind) : '\n' ∉ k.displayName.toList := by cases k <;> decide

theorem name_inj {j k : TokenKind} : j.name = k.name → j = k :=
  eq_of_find? all fun k => by cases k <;> decide

theorem displayName_inj {j k : TokenKind} : j.displayName = k.displayName → j = k :=
  eq_of_find? all fun k => by cases k <;> decide

end TokenKind

namespace Rule

theorem notMem_name (r : Rule) : ' ' ∉ r.name.toList ∧ '\n' ∉ r.name.toList := by cases r <;> decide

theorem name_inj {r s : Rule} : r.name = s.name → r = s :=
  eq_of_find? all fun r => by cases r <;> decide

end Rule

/-! ## Quoted texts -/

namespace Text

/-- The last digit of a number in hexadecimal comes after those of its sixteenth part. -/
theorem hexadecimal_eq (n : Nat) : hexadecimal n = (if n < 16 then [] else hexadecimal (n / 16)) ++ [(n % 16).digitChar] := by
  rw [hexadecimal, Nat.toDigits_eq_if (by decide)]
  split
  · rename_i hn
    rw [Nat.mod_eq_of_lt hn, List.nil_append]
  · rfl

/-- A number in hexadecimal is made of the sixteen digits. -/
theorem exists_digit_of_mem_hexadecimal {n : Nat} {c : Char} (h : c ∈ hexadecimal n) : ∃ d < 16, c = d.digitChar := by
  induction n using Nat.strongRecOn with
  | ind n ih =>
    rw [hexadecimal_eq, List.mem_append, List.mem_singleton] at h
    rcases h with h | h
    · split at h
      · cases h
      · exact ih (n / 16) (by omega) h
    · exact ⟨n % 16, Nat.mod_lt n (by decide), h⟩

theorem hexadecimal_inj {m n : Nat} (h : hexadecimal m = hexadecimal n) : m = n := by
  have hdigits : ∀ d < 16, ∀ e < 16, d.digitChar = e.digitChar → d = e := by decide
  induction m using Nat.strongRecOn generalizing n with
  | ind m ih =>
    rw [hexadecimal_eq m, hexadecimal_eq n] at h
    obtain ⟨hfront, hlast⟩ := List.append_inj' h rfl
    have hmod : m % 16 = n % 16 :=
      hdigits _ (Nat.mod_lt m (by decide)) _ (Nat.mod_lt n (by decide)) (List.cons.inj hlast).1
    split at hfront <;> split at hfront
    · omega
    · exact absurd hfront.symm Nat.toDigits_ne_nil
    · exact absurd hfront Nat.toDigits_ne_nil
    · have hdiv := ih (m / 16) (by omega) hfront
      omega

/-- The characters that have a short escape, each after the character that stands for it. -/
def shortEscapes : List (Char × Char) :=
  [('0', '\x00'), ('t', '\t'), ('r', '\r'), ('n', '\n'), ('\\', '\\'), ('"', '"')]

/-- A character is written with a short escape, with its number, or as it is. -/
theorem escapeChar_cases (c : Char) :
    (∃ x, (x, c) ∈ shortEscapes ∧ escapeChar c = ['\\', x]) ∨
    escapeChar c = '\\' :: 'u' :: '\x7b' :: (hexadecimal c.toNat ++ ['\x7d']) ∨
    (escapeChar c = [c] ∧ c ≠ '\\' ∧ c ≠ '"' ∧ c ≠ '\n') := by
  unfold escapeChar
  split
  · exact .inl ⟨'0', by decide, rfl⟩
  · exact .inl ⟨'t', by decide, rfl⟩
  · exact .inl ⟨'r', by decide, rfl⟩
  · exact .inl ⟨'n', by decide, rfl⟩
  · exact .inl ⟨'\\', by decide, rfl⟩
  · exact .inl ⟨'"', by decide, rfl⟩
  · rename_i hnewline hbackslash hquote
    split
    · exact .inr (.inl rfl)
    · exact .inr (.inr ⟨rfl, hbackslash, hquote, hnewline⟩)

/-- What is written for a character is told from what follows it. -/
theorem escapeChar_append_inj {c d : Char} {cs ds : List Char} (h : escapeChar c ++ cs = escapeChar d ++ ds) : c = d ∧ cs = ds := by
  have hshort : ∀ p ∈ shortEscapes, p.1 ≠ 'u' ∧ ∀ q ∈ shortEscapes, p.1 = q.1 → p.2 = q.2 := by decide
  have hbrace : ∀ n, '\x7d' ∉ hexadecimal n := fun n hmem => by
    have hdigits : ∀ d < 16, '\x7d' ≠ d.digitChar := by decide
    obtain ⟨d, hd, heq⟩ := exists_digit_of_mem_hexadecimal hmem
    exact hdigits d hd heq
  rcases escapeChar_cases c with ⟨x, hx, hc⟩ | hc | ⟨hc, hslash, -, -⟩ <;>
    rcases escapeChar_cases d with ⟨y, hy, hd⟩ | hd | ⟨hd, hslash', -, -⟩ <;>
    rw [hc, hd] at h <;> simp only [List.cons_append, List.nil_append, List.cons.injEq, true_and] at h
  · exact ⟨(hshort _ hx).2 _ hy h.1, h.2⟩
  · exact absurd h.1 (hshort _ hx).1
  · exact absurd h.1.symm hslash'
  · exact absurd h.1.symm (hshort _ hy).1
  · rw [List.append_assoc, List.append_assoc] at h
    obtain ⟨hnumber, hrest⟩ := append_cons_inj (hbrace _) (hbrace _) h
    exact ⟨Char.toNat_inj.1 (hexadecimal_inj hnumber), hrest⟩
  · exact absurd h.1.symm hslash'
  · exact absurd h.1 hslash
  · exact absurd h.1 hslash
  · exact h

/-- Between quotes no quote stands for itself, so the first that does ends the quoted text. -/
theorem escaped_inj {cs ds es fs : List Char}
    (h : cs.flatMap escapeChar ++ '"' :: es = ds.flatMap escapeChar ++ '"' :: fs) : cs = ds ∧ es = fs := by
  have hhead : ∀ c es fs, escapeChar c ++ es ≠ '"' :: fs := by
    intro c es fs heq
    rcases escapeChar_cases c with ⟨x, -, hc⟩ | hc | ⟨hc, -, hquote, -⟩ <;> rw [hc] at heq
    · exact absurd (List.cons.inj heq).1 (by decide)
    · exact absurd (List.cons.inj heq).1 (by decide)
    · exact hquote (List.cons.inj heq).1
  induction cs generalizing ds with
  | nil =>
    cases ds with
    | nil => exact ⟨rfl, (List.cons.inj h).2⟩
    | cons d ds =>
      rw [List.flatMap_cons, List.append_assoc] at h
      exact absurd h.symm (hhead _ _ _)
  | cons c cs ih =>
    rw [List.flatMap_cons, List.append_assoc] at h
    cases ds with
    | nil => exact absurd h (hhead _ _ _)
    | cons d ds =>
      rw [List.flatMap_cons, List.append_assoc] at h
      obtain ⟨rfl, htail⟩ := escapeChar_append_inj h
      obtain ⟨rfl, hrest⟩ := ih htail
      exact ⟨rfl, hrest⟩

/-- A quoted text holds no line feed. -/
theorem newline_notMem_quoted (text : String) : '\n' ∉ (quoted text).toList := by
  have hshort : ∀ p ∈ shortEscapes, '\n' ≠ p.1 := by decide
  have hdigits : ∀ d < 16, '\n' ≠ d.digitChar := by decide
  have hchar : ∀ c, '\n' ∉ escapeChar c := by
    intro c
    rcases escapeChar_cases c with ⟨x, hx, hc⟩ | hc | ⟨hc, -, -, hnewline⟩ <;> rw [hc]
    · simpa using hshort _ hx
    · intro hmem
      obtain ⟨d, hd, heq⟩ := exists_digit_of_mem_hexadecimal (by simpa using hmem)
      exact hdigits d hd heq
    · simpa using hnewline.symm
  rw [quoted, String.toList_ofList]
  simpa using fun c _ => hchar c

end Text

end QuillFrontEnd
