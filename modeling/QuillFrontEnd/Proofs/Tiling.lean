import QuillFrontEnd.Proofs.Pieces
import Mathlib.Data.List.TakeWhile

/-!
# The tokens of a text and the gaps between them

Lexing cuts a text into tokens and gaps and loses nothing. A token is of a kind exactly if its text is in the class of that kind,
tokens go as far as they can, and between them there is nothing but white space and comments. The classes are stated here without
the lexer; `Tiled` says that a text is made of gaps and tokens by turns, and what is wanted of lexing is read off it.
-/

namespace QuillFrontEnd

/-! ## Ranges of bytes -/

namespace Text

/-- The bytes of a text are those of its characters. -/
theorem byteLength_toList (s : String) : byteLength s.toList = s.utf8ByteSize := by
  have h : ∀ cs : List Char, byteLength cs = (String.ofList cs).utf8ByteSize := by
    intro cs
    induction cs with
    | nil => rfl
    | cons c cs ih => rw [byteLength, ih, String.ofList_cons, String.utf8ByteSize_append, String.utf8ByteSize_singleton]
  rw [h, String.ofList_toList]

/-- Bytes are counted off one character at a time: none is cut in two. -/
theorem dropBytes?_cons (c : Char) (n : Nat) (cs : List Char) :
    dropBytes? (c.utf8Size + n) (c :: cs) = dropBytes? n cs := by
  have hc := c.utf8Size_pos
  obtain ⟨m, hm⟩ : ∃ m, c.utf8Size + n = m + 1 := ⟨c.utf8Size + n - 1, by omega⟩
  rw [hm, dropBytes?, if_pos (by omega), ← hm, Nat.add_sub_cancel_left]

theorem takeBytes?_cons (c : Char) (n : Nat) (cs : List Char) :
    takeBytes? (c.utf8Size + n) (c :: cs) = (takeBytes? n cs).map (c :: ·) := by
  have hc := c.utf8Size_pos
  obtain ⟨m, hm⟩ : ∃ m, c.utf8Size + n = m + 1 := ⟨c.utf8Size + n - 1, by omega⟩
  rw [hm, takeBytes?, if_pos (by omega), ← hm, Nat.add_sub_cancel_left]

theorem dropBytes?_append (cs ds : List Char) : dropBytes? (byteLength cs) (cs ++ ds) = some ds := by
  induction cs with
  | nil => rw [byteLength, List.nil_append, dropBytes?]
  | cons c cs ih => rw [byteLength, List.cons_append, dropBytes?_cons, ih]

theorem takeBytes?_append (cs ds : List Char) : takeBytes? (byteLength cs) (cs ++ ds) = some cs := by
  induction cs with
  | nil => rw [byteLength, List.nil_append, takeBytes?]
  | cons c cs ih => rw [byteLength, List.cons_append, takeBytes?_cons, ih, Option.map_some]

/-- The part of a text between two others is found by their bytes. -/
theorem slice?_append (before part after : List Char) :
    slice? (before ++ (part ++ after)) (byteLength before) (byteLength before + byteLength part) = some part := by
  rw [slice?, if_pos (by omega), dropBytes?_append, Option.bind_some, Nat.add_sub_cancel_left, takeBytes?_append]

end Text

namespace Lexing

open QuillFrontEnd.Text

/-! ## Classes of lexemes -/

/-- A letter or an underscore, and then letters, underscores and digits. -/
def IsWord (w : List Char) : Prop := ∃ c cs, w = c :: cs ∧ isWordStart c = true ∧ ∀ d ∈ cs, isWordPart d = true

/-- Digits, at least one. -/
def IsNumber (w : List Char) : Prop := w ≠ [] ∧ ∀ c ∈ w, isDigit c = true

/-- A character that is neither white space nor part of a word, nor the spelling of any kind of token. -/
def IsForeign (c : Char) : Prop :=
  isSpace c = false ∧ isWordPart c = false ∧ ∀ k : TokenKind, k.spelling? ≠ some (String.singleton c)

/-- No slash of `w` has a slash directly after it, be it in `w` or at the start of what comes after `w`. -/
def NoComment (w after : List Char) : Prop := ∀ u v, w ++ after = u ++ '/' :: '/' :: v → w.length ≤ u.length

/-- The class of a kind: the texts that a token of the kind can have where `after` comes after it in the source. -/
def Spells (w after : List Char) : TokenKind → Prop
  | .identifier => IsWord w ∧ ∀ k : TokenKind, k.isKeyword = true → k.spelling? ≠ some (String.ofList w)
  | .integer => IsNumber w
  | .invalid => w ≠ [] ∧ (∀ c ∈ w, IsForeign c) ∧ NoComment w after
  | .endOfInput => w = []
  | k => k.spelling? = some (String.ofList w)

variable {c : Char} {cs w after : List Char} {k : TokenKind}

/-- The class of a kind with a fixed spelling is that spelling. -/
theorem spells_iff_of_hasFixedSpelling (hk : k.hasFixedSpelling = true) :
    Spells w after k ↔ k.spelling? = some (String.ofList w) := by
  cases k <;> first | exact Iff.rfl | cases hk

theorem isWordStart_of_isDigit (h : isDigit c = true) : isWordStart c = false := by
  simp only [isDigit, Bool.and_eq_true, decide_eq_true_eq, Char.le_def, UInt32.le_iff_toNat_le] at h
  have hne : c ≠ '_' := by
    intro hc
    subst hc
    exact absurd h (by decide)
  simp only [isWordStart, Bool.or_eq_false_iff, Bool.and_eq_false_iff, decide_eq_false_iff_not, Char.le_def,
    UInt32.le_iff_toNat_le, beq_eq_false_iff_ne]
  refine ⟨⟨.inl ?_, .inl ?_⟩, hne⟩
  · have ha : ('a' : Char).val.toNat = 97 := rfl
    have h9 : ('9' : Char).val.toNat = 57 := rfl
    omega
  · have hA : ('A' : Char).val.toNat = 65 := rfl
    have h9 : ('9' : Char).val.toNat = 57 := rfl
    omega

/-- Keywords are longer than one character, so only marks are found by one. -/
theorem markKind?_eq_none_iff : markKind? c = none ↔ ∀ k : TokenKind, k.spelling? ≠ some (String.singleton c) := by
  have hlong : ∀ k ∈ TokenKind.all, k.isKeyword = true → ∀ s ∈ k.spelling?, s.length ≠ 1 := by decide
  rw [markKind?, List.find?_eq_none]
  constructor
  · intro h k hk
    cases hkey : k.isKeyword with
    | true => exact hlong k (TokenKind.mem_all k) hkey _ hk String.length_singleton
    | false => exact h k (TokenKind.mem_all k) (by simp [hkey, hk])
  · intro h k _ hk
    rw [Bool.and_eq_true, beq_iff_eq] at hk
    exact h k hk.2

theorem startsInvalid_iff : startsInvalid (c :: cs) = true ↔ IsForeign c ∧ startsComment (c :: cs) = false := by
  simp only [startsInvalid, IsForeign, Bool.and_eq_true, Bool.not_eq_true', Option.isNone_iff_eq_none, markKind?_eq_none_iff, and_assoc]

/-- White space and slashes are no part of a word. -/
theorem not_isSpace_of_isWordPart (h : isWordPart c = true) : isSpace c = false ∧ c ≠ '/' := by
  have hall : [' ', '\t', '\r', '\n', '\x0c', '/'].all (fun d => !isWordPart d) = true := by decide
  have hmem : c ∉ [' ', '\t', '\r', '\n', '\x0c', '/'] := fun hc => by simpa [h] using List.all_eq_true.1 hall c hc
  simp only [List.mem_cons, List.not_mem_nil, or_false, not_or] at hmem
  obtain ⟨h1, h2, h3, h4, h5, hslash⟩ := hmem
  exact ⟨by simp [isSpace, h1, h2, h3, h4, h5], hslash⟩

/-- Marks are neither white space nor slashes, and no word or number starts with one. -/
theorem classes_of_markKind? (h : markKind? c = some k) :
    isSpace c = false ∧ c ≠ '/' ∧ isWordStart c = false ∧ isDigit c = false := by
  have hall : ∀ k ∈ TokenKind.all, k.isKeyword = false → ∀ s ∈ k.spelling?,
      s.toList.all (fun d => !isSpace d && d != '/' && !isWordStart d && !isDigit d) = true := by decide
  obtain ⟨hkey, hs⟩ := spelling_of_markKind? h
  simpa [and_assoc] using hall k (TokenKind.mem_all k) hkey _ hs

/-- A keyword is a word, and any other fixed spelling is a mark. -/
theorem keyword_or_mark (h : k.spelling? = some (String.ofList w)) :
    k.isKeyword = true ∧ IsWord w ∨ ∃ c, w = [c] ∧ markKind? c = some k := by
  have hall : ∀ k ∈ TokenKind.all, ∀ s ∈ k.spelling?,
      k.isKeyword = true ∧ s.toList.head?.any isWordStart = true ∧ s.toList.tail.all isWordPart = true ∨
        s.toList.any (fun c => s.toList == [c] && markKind? c == some k) = true := by decide
  have hk := hall k (TokenKind.mem_all k) _ h
  rw [String.toList_ofList] at hk
  rcases hk with ⟨hkey, hstart, hpart⟩ | hmark
  · refine .inl ⟨hkey, ?_⟩
    cases w with
    | nil => cases hstart
    | cons c cs => exact ⟨c, cs, rfl, hstart, List.all_eq_true.1 hpart⟩
  · obtain ⟨c, -, hc⟩ := List.any_eq_true.1 hmark
    rw [Bool.and_eq_true, beq_iff_eq, beq_iff_eq] at hc
    exact .inr ⟨c, hc⟩

/-- What holds of the parts of words, of marks and, in invalid text, of foreign characters holds of all characters of a lexeme. -/
theorem Spells.forall_mem {p : Char → Prop} (hpart : ∀ c, isWordPart c = true → p c)
    (hmark : ∀ c j, markKind? c = some j → p c) (hforeign : k = .invalid → ∀ c, IsForeign c → p c) (h : Spells w after k) :
    ∀ c ∈ w, p c := by
  have hword : IsWord w → ∀ c ∈ w, p c := by
    rintro ⟨c, cs, rfl, hc, hcs⟩
    exact List.forall_mem_cons.2 ⟨hpart c (by rw [isWordPart, hc, Bool.true_or]), fun d hd => hpart d (hcs d hd)⟩
  cases k with
  | identifier => exact hword h.1
  | integer => exact fun c hc => hpart c (by rw [isWordPart, h.2 c hc, Bool.or_true])
  | invalid => exact fun c hc => hforeign rfl c (h.2.1 c hc)
  | endOfInput =>
    obtain rfl : w = [] := h
    exact fun c hc => absurd hc List.not_mem_nil
  | _ =>
    rcases keyword_or_mark h with ⟨-, hw⟩ | ⟨c, rfl, hc⟩
    · exact hword hw
    · exact List.forall_mem_singleton.2 (hmark c _ hc)

/-- There is no white space in a lexeme. -/
theorem Spells.not_isSpace (h : Spells w after k) : ∀ c ∈ w, isSpace c = false :=
  h.forall_mem (fun _ hc => (not_isSpace_of_isWordPart hc).1) (fun _ _ hc => (classes_of_markKind? hc).1) fun _ _ hc => hc.1

/-- The kind of a token is told from its text alone. -/
def kindOf : List Char → TokenKind
  | [] => .endOfInput
  | c :: cs =>
    if isWordStart c then wordKind (String.ofList (c :: cs))
    else if isDigit c then .integer
    else (markKind? c).getD .invalid

theorem kindOf_of_spelling (h : k.spelling? = some (String.ofList w)) : kindOf w = k := by
  have hall : ∀ k ∈ TokenKind.all, ∀ s ∈ k.spelling?, kindOf s.toList = k := by decide
  have hk := hall k (TokenKind.mem_all k) _ h
  rwa [String.toList_ofList] at hk

/-- The classes have no text in common. -/
theorem kindOf_of_spells (h : Spells w after k) : kindOf w = k := by
  cases k with
  | identifier =>
    obtain ⟨⟨c, cs, rfl, hc, -⟩, hkey⟩ := h
    rw [kindOf, if_pos hc]
    rcases wordKind_cases (String.ofList (c :: cs)) with ⟨hk, hs⟩ | ⟨hk, -⟩
    · exact absurd hs (hkey _ hk)
    · exact hk
  | integer =>
    obtain ⟨hne, hdigits⟩ := h
    obtain ⟨c, cs, rfl⟩ := List.exists_cons_of_ne_nil hne
    have hc : isDigit c = true := hdigits c (by simp)
    rw [kindOf, isWordStart_of_isDigit hc, if_neg (by decide), if_pos hc]
  | invalid =>
    obtain ⟨hne, hforeign, -⟩ := h
    obtain ⟨c, cs, rfl⟩ := List.exists_cons_of_ne_nil hne
    obtain ⟨-, hpart, hmark⟩ := hforeign c (by simp)
    rw [isWordPart, Bool.or_eq_false_iff] at hpart
    rw [kindOf, hpart.1, if_neg (by decide), hpart.2, if_neg (by decide), markKind?_eq_none_iff.2 hmark, Option.getD_none]
  | endOfInput =>
    have hw : w = [] := h
    rw [hw, kindOf]
  | _ => exact kindOf_of_spelling h

/-! ## How far a token goes -/

/-- A text that is a token of a kind where `after` comes after it, and goes as far as it can: a word ends before a character that
is no part of a word, a number before one that is no digit, and invalid text before a character that is valid or starts a comment. -/
structure Cut (k : TokenKind) (w after : List Char) : Prop where
  spells : Spells w after k
  word : k.isKeyword = true ∨ k = .identifier → ∀ c ∈ after.head?, isWordPart c = false
  number : k = .integer → ∀ c ∈ after.head?, isDigit c = false
  invalid : k = .invalid → ∀ c ∈ after.head?, IsForeign c → startsComment after = true

/-- The class of the kind of a token is the only one that its text is in. -/
theorem Cut.kind_eq_iff (h : Cut k w after) (j : TokenKind) : k = j ↔ Spells w after j := by
  constructor
  · intro hj
    exact hj ▸ h.spells
  · intro hj
    rw [← kindOf_of_spells h.spells, kindOf_of_spells hj]

theorem Cut.ne_nil (h : Cut k w after) (hk : k ≠ .endOfInput) : w ≠ [] := by
  intro hw
  subst hw
  exact hk (kindOf_of_spells h.spells).symm

/-- What stops a run of characters does not pass the test for them. -/
theorem head?_dropWhile (p : Char → Bool) (cs : List Char) : ∀ d ∈ (cs.dropWhile p).head?, p d = false := by
  intro d hd
  have h := List.head?_dropWhile_not p cs
  rw [Option.mem_def] at hd
  rwa [hd] at h

theorem cut_word (hc : isWordStart c = true) (cs : List Char) :
    Cut (wordKind (String.ofList (c :: cs.takeWhile isWordPart))) (c :: cs.takeWhile isWordPart) (cs.dropWhile isWordPart) := by
  have hword : IsWord (c :: cs.takeWhile isWordPart) := ⟨c, _, rfl, hc, fun d hd => List.mem_takeWhile_imp hd⟩
  have hstop := head?_dropWhile isWordPart cs
  rcases wordKind_cases (String.ofList (c :: cs.takeWhile isWordPart)) with ⟨hk, hs⟩ | ⟨hk, hnone⟩
  · have hfixed : (wordKind (String.ofList (c :: cs.takeWhile isWordPart))).hasFixedSpelling = true := by
      rw [TokenKind.hasFixedSpelling, hs, Option.isSome_some]
    refine ⟨(spells_iff_of_hasFixedSpelling hfixed).2 hs, fun _ => hstop, fun hj => ?_, fun hj => ?_⟩
    · rw [hj] at hk
      cases hk
    · rw [hj] at hk
      cases hk
  · rw [hk]
    exact ⟨⟨hword, hnone⟩, fun _ => hstop, nofun, nofun⟩

theorem cut_number (hc : isDigit c = true) (cs : List Char) :
    Cut .integer (c :: cs.takeWhile isDigit) (cs.dropWhile isDigit) := by
  refine ⟨⟨List.cons_ne_nil _ _, ?_⟩, nofun, fun _ => head?_dropWhile isDigit cs, nofun⟩
  intro d hd
  rcases List.mem_cons.1 hd with rfl | hd
  · exact hc
  · exact List.mem_takeWhile_imp hd

theorem cut_mark (h : markKind? c = some k) (after : List Char) : Cut k [c] after := by
  obtain ⟨hkey, hs⟩ := spelling_of_markKind? h
  have hfixed : k.hasFixedSpelling = true := by rw [TokenKind.hasFixedSpelling, hs, Option.isSome_some]
  refine ⟨(spells_iff_of_hasFixedSpelling hfixed).2 hs, fun hj => ?_, fun hj => ?_, fun hj => ?_⟩
  · rcases hj with hj | hj
    · rw [hkey] at hj
      cases hj
    · rw [hj] at hs
      cases hs
  · rw [hj] at hs
    cases hs
  · rw [hj] at hs
    cases hs

/-- A run of invalid characters holds no others, no comment starts in it, and it goes as far as it can. -/
theorem spanInvalid_spec (cs : List Char) :
    (∀ d ∈ (spanInvalid cs).1, IsForeign d) ∧ NoComment (spanInvalid cs).1 (spanInvalid cs).2 ∧
      ∀ d ∈ (spanInvalid cs).2.head?, IsForeign d → startsComment (spanInvalid cs).2 = true := by
  induction cs with
  | nil => exact ⟨by simp [spanInvalid], fun u v _ => Nat.zero_le _, by simp [spanInvalid]⟩
  | cons c cs ih =>
    rw [spanInvalid]
    split
    · rename_i hc
      rw [startsInvalid_iff] at hc
      obtain ⟨hall, hnone, hstop⟩ := ih
      refine ⟨List.forall_mem_cons.2 ⟨hc.1, hall⟩, ?_, hstop⟩
      intro u v huv
      rw [List.cons_append, spanInvalid_append] at huv
      cases u with
      | nil =>
        rw [huv] at hc
        exact absurd hc.2 (by simp [startsComment])
      | cons a u =>
        have htail : (spanInvalid cs).1 ++ (spanInvalid cs).2 = u ++ '/' :: '/' :: v := by
          rw [spanInvalid_append]
          exact (List.cons.inj huv).2
        have hlen := hnone u v htail
        simp only [List.length_cons]
        omega
    · rename_i hc
      refine ⟨by simp, fun u v _ => Nat.zero_le _, fun d hd hforeign => ?_⟩
      obtain rfl : c = d := by simpa using hd
      rw [startsInvalid_iff, not_and, Bool.not_eq_false] at hc
      exact hc hforeign

theorem cut_invalid (hc : startsInvalid (c :: cs) = true) : Cut .invalid (c :: (spanInvalid cs).1) (spanInvalid cs).2 := by
  have h := spanInvalid_spec (c :: cs)
  rw [spanInvalid, if_pos hc] at h
  obtain ⟨hall, hnone, hstop⟩ := h
  exact ⟨⟨List.cons_ne_nil _ _, hall, hnone⟩, fun hk => absurd hk (by decide), fun hk => absurd hk (by decide), fun _ => hstop⟩

/-! ## Gaps -/

/-- A piece of a text that no token is made of, where `after` comes after it: a white space character, or a comment that goes up to
the end of the line or of the text. -/
inductive Blank : List Char → List Char → Prop where
  | space {c : Char} {after : List Char} : isSpace c = true → Blank [c] after
  | comment {body after : List Char} : '\n' ∉ body → (∀ d ∈ after.head?, d = '\n') → Blank ('/' :: '/' :: body) after

/-- A text of white space characters and comments and nothing else, where `after` comes after it. -/
inductive Gap : List Char → List Char → Prop where
  | nil {after : List Char} : Gap [] after
  | cons {piece gap after : List Char} : Blank piece (gap ++ after) → Gap gap after → Gap (piece ++ gap) after

/-- A range of bytes of a text that is a gap where it stands. -/
def GapBetween (source : List Char) (start stop : Nat) : Prop :=
  ∃ gap after, slice? source start stop = some gap ∧ dropBytes? stop source = some after ∧ Gap gap after

theorem GapBetween.intro (before : List Char) {gap after : List Char} (h : Gap gap after) :
    GapBetween (before ++ (gap ++ after)) (byteLength before) (byteLength before + byteLength gap) := by
  refine ⟨gap, after, slice?_append before gap after, ?_, h⟩
  rw [← List.append_assoc, ← byteLength_append]
  exact dropBytes?_append _ _

/-- A piece that is not invalid is a token that is cut as it should be, or belongs to a gap. -/
theorem nextRaw_spec (hvalid : startsInvalid (c :: cs) = false) :
    ((nextRaw c cs).1.kind = none ∧ Blank (nextRaw c cs).1.text (nextRaw c cs).2) ∨
      ∃ k, (nextRaw c cs).1.kind = some k ∧ k ≠ .endOfInput ∧ Cut k (nextRaw c cs).1.text (nextRaw c cs).2 := by
  have hkind := kind_nextRaw_ne hvalid
  unfold nextRaw at hkind ⊢
  by_cases hspace : isSpace c = true
  · rw [if_pos hspace]
    exact .inl ⟨rfl, .space hspace⟩
  rw [if_neg hspace] at hkind ⊢
  by_cases hcomment : startsComment (c :: cs) = true
  · rw [if_pos hcomment]
    obtain ⟨rfl, ds, rfl⟩ : c = '/' ∧ ∃ ds, cs = '/' :: ds := by
      unfold startsComment at hcomment
      split at hcomment
      · rename_i ds heq
        obtain ⟨rfl, rfl⟩ := List.cons.inj heq
        exact ⟨rfl, ds, rfl⟩
      · cases hcomment
    have hbody : '\n' ∉ ds.takeWhile (· != '\n') := fun hmem => by simpa using List.mem_takeWhile_imp hmem
    have hend : ∀ d ∈ (ds.dropWhile (· != '\n')).head?, d = '\n' := fun d hd => by
      simpa using head?_dropWhile (· != '\n') ds d hd
    exact .inl ⟨rfl, .comment hbody hend⟩
  rw [if_neg hcomment] at hkind ⊢
  by_cases hstart : isWordStart c = true
  · rw [if_pos hstart]
    exact .inr ⟨_, rfl, wordKind_ne rfl (by decide) _, cut_word hstart cs⟩
  rw [if_neg hstart] at hkind ⊢
  by_cases hdigit : isDigit c = true
  · rw [if_pos hdigit]
    exact .inr ⟨_, rfl, by decide, cut_number hdigit cs⟩
  rw [if_neg hdigit] at hkind ⊢
  cases hmark : markKind? c with
  | some k =>
    have hcut := cut_mark hmark cs
    refine .inr ⟨k, rfl, fun hk => ?_, hcut⟩
    subst hk
    exact absurd hcut.spells (List.cons_ne_nil _ _)
  | none =>
    rw [hmark] at hkind
    exact absurd rfl hkind

/-- A piece of a text is a token that is cut as it should be, or belongs to a gap. -/
theorem nextPiece_spec (c : Char) (cs : List Char) :
    ((nextPiece c cs).1.kind = none ∧ Blank (nextPiece c cs).1.text (nextPiece c cs).2) ∨
      ∃ k, (nextPiece c cs).1.kind = some k ∧ k ≠ .endOfInput ∧ Cut k (nextPiece c cs).1.text (nextPiece c cs).2 := by
  unfold nextPiece
  split
  case isTrue hc => exact .inr ⟨_, rfl, by decide, cut_invalid hc⟩
  case isFalse hc => exact nextRaw_spec (Bool.eq_false_iff.2 hc)

/-! ## Tilings -/

/-- A text from an offset on that is made of gaps and tokens by turns, with a gap at both ends. -/
inductive Tiled : Nat → List Char → List Token → Prop where
  | gap {offset : Nat} {gap : List Char} : Gap gap [] → Tiled offset gap []
  | token {offset : Nat} {gap after : List Char} {t : Token} {ts : List Token} :
      Gap gap (t.lexeme.toList ++ after) → t.kind ≠ .endOfInput → Cut t.kind t.lexeme.toList after →
      t.span = ⟨offset + byteLength gap, offset + byteLength gap + byteLength t.lexeme.toList⟩ →
      Tiled t.span.stop after ts → Tiled offset (gap ++ (t.lexeme.toList ++ after)) (t :: ts)

/-- A piece that no token is made of belongs to the first gap. -/
theorem Tiled.cons_blank {offset : Nat} {piece text : List Char} {ts : List Token} (hp : Blank piece text)
    (h : Tiled (offset + byteLength piece) text ts) : Tiled offset (piece ++ text) ts := by
  cases h with
  | gap hg => exact .gap (.cons (by rwa [List.append_nil]) hg)
  | @token _ gap after t ts hg hend hcut hspan hrest =>
    rw [← List.append_assoc]
    refine .token (.cons hp hg) hend hcut ?_ hrest
    rw [hspan, byteLength_append, Nat.add_assoc offset]

/-- A piece that is a token comes after an empty gap. -/
theorem Tiled.cons_token {offset : Nat} {w after : List Char} {k : TokenKind} {ts : List Token} (hend : k ≠ .endOfInput)
    (hcut : Cut k w after) (position : Position) (h : Tiled (offset + byteLength w) after ts) :
    Tiled offset (w ++ after) (⟨k, String.ofList w, ⟨offset, offset + byteLength w⟩, position⟩ :: ts) := by
  obtain ⟨lexeme, rfl⟩ : ∃ lexeme : String, w = lexeme.toList := ⟨String.ofList w, String.toList_ofList.symm⟩
  rw [String.ofList_toList]
  exact @Tiled.token offset [] after ⟨k, lexeme, ⟨offset, offset + byteLength lexeme.toList⟩, position⟩ ts .nil hend hcut rfl h

/-- The tokens among the pieces of a text tile it. -/
theorem tiled_locate (offset : Nat) (position : Position) (text : List Char) :
    Tiled offset text (locate offset position (pieces text)) := by
  fun_induction pieces text generalizing offset position with
  | case1 => exact .gap .nil
  | case2 c cs ih =>
    rw [← nextPiece_append c cs, locate]
    rcases nextPiece_spec c cs with ⟨hkind, hblank⟩ | ⟨k, hkind, hend, hcut⟩
    · rw [hkind]
      exact .cons_blank hblank (ih _ _)
    · rw [hkind]
      exact .cons_token hend hcut position (ih _ _)

/-! ## What a tiling says -/

namespace Tiled

variable {offset : Nat} {text : List Char} {t : Token} {ts : List Token}

/-- Tokens are not empty, and none stands before the start of the text. -/
theorem offset_le (h : Tiled offset text ts) (ht : t ∈ ts) : offset ≤ t.span.start ∧ t.span.start < t.span.stop := by
  induction h with
  | gap => cases ht
  | token _ hend hcut hspan _ ih =>
    have hpos := byteLength_pos (hcut.ne_nil hend)
    rcases List.mem_cons.1 ht with rfl | ht
    · rw [hspan]
      dsimp only
      omega
    · have hlater := ih ht
      rw [hspan] at hlater
      dsimp only at hlater
      omega

/-- No token starts before another one has ended. -/
theorem ordered (h : Tiled offset text ts) : ts.Pairwise fun a b => a.span.stop ≤ b.span.start := by
  induction h with
  | gap => exact .nil
  | token _ _ _ _ hrest ih => exact .cons (fun b hb => (hrest.offset_le hb).1) ih

/-- A token at the very start of a text is the first one, with no gap before it. -/
theorem cut_of_start_eq (h : Tiled offset text ts) (ht : t ∈ ts) (hstart : t.span.start = offset) :
    ∃ after, text = t.lexeme.toList ++ after ∧ Cut t.kind t.lexeme.toList after := by
  cases h with
  | gap => cases ht
  | @token _ gap after t' ts _ hend hcut hspan hrest =>
    have hpos := byteLength_pos (hcut.ne_nil hend)
    rcases List.mem_cons.1 ht with rfl | ht
    · have hnil : gap = [] := by
        by_contra hne
        have hgap := byteLength_pos hne
        rw [hspan] at hstart
        dsimp only at hstart
        omega
      exact ⟨after, by rw [hnil, List.nil_append], hcut⟩
    · have hlater := (hrest.offset_le ht).1
      rw [hspan] at hlater
      dsimp only at hlater
      omega

/-- Runs of invalid characters are cut as far as they go, so no two of them touch. -/
theorem invalid_apart (h : Tiled offset text ts) :
    ts.Pairwise fun a b => a.kind = .invalid → b.kind = .invalid → a.span.stop ≠ b.span.start := by
  induction h with
  | gap => exact .nil
  | @token _ gap after a ts _ _ hcut _ hrest ih =>
    refine .cons (fun b hb hka hkb htouch => ?_) ih
    obtain ⟨after', rfl, hcut'⟩ := hrest.cut_of_start_eq hb htouch.symm
    have hspells := hcut'.spells
    rw [hkb] at hspells
    obtain ⟨hne, hforeign, hnone⟩ := hspells
    obtain ⟨c, cs, hc⟩ := List.exists_cons_of_ne_nil hne
    -- What comes after the first run would have to start a comment, and then the second run would hold one.
    have hcomment := hcut.invalid hka c (by rw [hc]; rfl) (hforeign c (by rw [hc]; simp))
    unfold startsComment at hcomment
    split at hcomment
    · rename_i v heq
      have hlen := hnone [] v heq
      rw [hc] at hlen
      simp at hlen
    · cases hcomment

/-- Every token stands at its span, and is cut there as it should be. -/
theorem cut_of_mem (h : Tiled offset text ts) (ht : t ∈ ts) (before : List Char) (hb : byteLength before = offset) :
    ∃ front after, before ++ text = front ++ (t.lexeme.toList ++ after) ∧
      t.span = ⟨byteLength front, byteLength front + byteLength t.lexeme.toList⟩ ∧ t.kind ≠ .endOfInput ∧
      Cut t.kind t.lexeme.toList after := by
  induction h generalizing before with
  | gap => cases ht
  | @token offset gap after t' ts _ hend hcut hspan _ ih =>
    rcases List.mem_cons.1 ht with rfl | ht
    · refine ⟨before ++ gap, after, by simp, ?_, hend, hcut⟩
      rw [hspan, byteLength_append, hb]
    · obtain ⟨front, after', htext, hrest⟩ := ih ht (before ++ gap ++ t'.lexeme.toList) (by
        rw [hspan, byteLength_append, byteLength_append, hb])
      exact ⟨front, after', by rw [← htext]; simp, hrest⟩

/-- What stands before the first token, between two tokens that follow one another, and after the last token is a gap. -/
theorem gapBetween_of_mem (h : Tiled offset text ts) (before : List Char) (hb : byteLength before = offset) :
    ∀ p ∈ (offset :: ts.map fun t => t.span.stop).zip ((ts.map fun t => t.span.start) ++ [offset + byteLength text]),
      GapBetween (before ++ text) p.1 p.2 := by
  induction h generalizing before with
  | gap hg =>
    intro p hp
    obtain rfl : p = (_, _) := by simpa using hp
    have hgap := GapBetween.intro before hg
    rwa [List.append_nil, hb] at hgap
  | @token offset gap after t ts hg hend hcut hspan hrest ih =>
    rw [List.map_cons, List.map_cons, List.cons_append, List.zip_cons_cons, List.forall_mem_cons]
    constructor
    · rw [hspan, ← hb]
      exact .intro before hg
    · have hlen : byteLength (before ++ gap ++ t.lexeme.toList) = t.span.stop := by
        rw [hspan, byteLength_append, byteLength_append, hb]
      have hstop : t.span.stop + byteLength after = offset + byteLength (gap ++ (t.lexeme.toList ++ after)) := by
        rw [← hlen, ← hb]
        simp only [byteLength_append]
        omega
      have hlater := ih (before ++ gap ++ t.lexeme.toList) hlen
      rw [hstop] at hlater
      simpa using hlater

end Tiled

end Lexing

open QuillFrontEnd.Text QuillFrontEnd.Lexing

/-! ## Lexing -/

/-- What lexing a text should give. Each token stands at its span and is of the kind in whose class its text is, tokens go as far
as they can and come one after the other, and all else is gaps; the sentinel stands at the end of the text, and there is one
diagnostic for each invalid token. -/
structure LexOutput.Faithful (source : List Char) (out : LexOutput) : Prop where
  lexeme : ∀ t ∈ out.tokens.body, slice? source t.span.start t.span.stop = some t.lexeme.toList
  nonempty : ∀ t ∈ out.tokens.body, t.span.start < t.span.stop
  ordered : out.tokens.body.Pairwise fun a b => a.span.stop ≤ b.span.start
  sentinel : out.tokens.sentinel.kind = .endOfInput ∧ out.tokens.sentinel.lexeme = "" ∧
    out.tokens.sentinel.span = .point (byteLength source)
  gaps : ∀ p ∈ (0 :: out.tokens.body.map fun t => t.span.stop).zip (out.tokens.toList.map fun t => t.span.start),
    GapBetween source p.1 p.2
  /-- The kind of a token, and how far words and numbers go. -/
  cut : ∀ t ∈ out.tokens.body, ∃ after, dropBytes? t.span.stop source = some after ∧
    (∀ k, t.kind = k ↔ Spells t.lexeme.toList after k) ∧
    (t.kind.isKeyword = true ∨ t.kind = .identifier → ∀ c ∈ after.head?, isWordPart c = false) ∧
    (t.kind = .integer → ∀ c ∈ after.head?, isDigit c = false)
  invalid_apart : out.tokens.body.Pairwise fun a b =>
    a.kind = .invalid → b.kind = .invalid → a.span.stop ≠ b.span.start
  diagnostics : out.diagnostics.map (fun d => (d.code, d.severity, d.found, d.span, d.position)) =
    (out.tokens.body.filter fun t => t.kind == .invalid).map
      fun t => (.invalidCharacter, .error, some t, t.span, t.position)

/-- The output of lexing a text that is not too large: the tokens of a tiling of the text, with the sentinel after them. -/
theorem exists_tiled_of_lex {source : String} (h : source.utf8ByteSize ≤ maxOffset) :
    ∃ out, lex source = .ok out ∧ Tiled 0 source.toList out.tokens.body ∧
      out.tokens.sentinel = ⟨.endOfInput, "", .point (byteLength source.toList), Position.first.after source.toList⟩ ∧
      out.diagnostics = (out.tokens.body.filter fun t => t.kind == .invalid).map invalidCharacters := by
  have htiled := tiled_locate 0 .first source.toList
  generalize htokens : locate 0 .first (pieces source.toList) = tokens at htiled
  have hend : ∀ t ∈ tokens, t.isEnd = false := by
    intro t ht
    obtain ⟨-, -, -, -, hkind, -⟩ := htiled.cut_of_mem ht [] rfl
    simpa [Token.isEnd] using hkind
  let out : LexOutput :=
    { tokens := ⟨tokens, ⟨.endOfInput, "", .point (byteLength source.toList), Position.first.after source.toList⟩, hend, rfl⟩
      diagnostics := (tokens.filter fun t => t.kind == .invalid).map invalidCharacters }
  have hlist := out.tokens.ofTokens_toList
  rw [TokenList.toList] at hlist
  refine ⟨out, lex_eq_ok_iff.2 ⟨by rwa [byteLength_toList], ?_⟩, htiled, rfl, rfl⟩
  rw [htokens, hlist]

/-- The text of a token of a source is in the class of its kind. -/
theorem exists_spells_of_lex {source : String} {out : LexOutput} (h : source.utf8ByteSize ≤ maxOffset)
    (hlex : lex source = .ok out) : ∀ t ∈ out.tokens.toList, ∃ after, Spells t.lexeme.toList after t.kind := by
  obtain ⟨out', hlex', htiled, hsentinel, -⟩ := exists_tiled_of_lex h
  obtain rfl : out = out' := Except.ok.inj (hlex.symm.trans hlex')
  intro t ht
  rcases List.mem_append.1 ht with hbody | hlast
  · obtain ⟨-, after, -, -, -, hcut⟩ := htiled.cut_of_mem hbody [] rfl
    exact ⟨after, hcut.spells⟩
  · obtain rfl := List.mem_singleton.1 hlast
    exact ⟨[], by rw [hsentinel]; rfl⟩

theorem newline_notMem_lexeme {source : String} {out : LexOutput} (h : source.utf8ByteSize ≤ maxOffset)
    (hlex : lex source = .ok out) : ∀ t ∈ out.tokens.toList, '\n' ∉ t.lexeme.toList := by
  intro t ht hmem
  obtain ⟨after, hspells⟩ := exists_spells_of_lex h hlex t ht
  exact absurd (hspells.not_isSpace _ hmem) (by decide)

/-- Lexing succeeds for every text with fewer bytes than the largest offset, and what it gives is faithful to the text. -/
theorem lex_faithful (source : String) (h : source.utf8ByteSize < maxOffset) :
    ∃ out, lex source = .ok out ∧ out.Faithful source.toList := by
  obtain ⟨out, hlex, htiled, hsentinel, hdiag⟩ := exists_tiled_of_lex (Nat.le_of_lt h)
  have hcut : ∀ t ∈ out.tokens.body, ∃ front after, source.toList = front ++ (t.lexeme.toList ++ after) ∧
      t.span = ⟨byteLength front, byteLength front + byteLength t.lexeme.toList⟩ ∧ Cut t.kind t.lexeme.toList after := by
    intro t ht
    obtain ⟨front, after, htext, hspan, -, hcut⟩ := htiled.cut_of_mem ht [] rfl
    exact ⟨front, after, htext, hspan, hcut⟩
  refine ⟨out, hlex, ?_, fun t ht => (htiled.offset_le ht).2, htiled.ordered, ?_, ?_, ?_, htiled.invalid_apart, ?_⟩
  · intro t ht
    obtain ⟨front, after, htext, hspan, -⟩ := hcut t ht
    rw [hspan, htext]
    exact slice?_append front _ after
  · rw [hsentinel]
    exact ⟨rfl, rfl, rfl⟩
  · have hgaps := htiled.gapBetween_of_mem [] rfl
    rw [Nat.zero_add, List.nil_append] at hgaps
    rw [TokenList.toList, List.map_append, List.map_singleton, hsentinel]
    exact hgaps
  · intro t ht
    obtain ⟨front, after, htext, hspan, hcut⟩ := hcut t ht
    refine ⟨after, ?_, hcut.kind_eq_iff, hcut.word, hcut.number⟩
    rw [hspan, htext, ← byteLength_append, ← List.append_assoc]
    exact dropBytes?_append _ after
  · rw [hdiag, List.map_map]
    rfl

/-- A text with a keyword that runs into a name, a number that runs into a word, and slashes before a comment. -/
theorem lex_faithful_sample :
    "varx 0main/é ?///;\n?".utf8ByteSize < maxOffset ∧
      ∃ out, lex "varx 0main/é ?///;\n?" = .ok out ∧ out.Faithful "varx 0main/é ?///;\n?".toList := by
  have hsize : "varx 0main/é ?///;\n?".utf8ByteSize < maxOffset := by decide
  exact ⟨hsize, lex_faithful _ hsize⟩

end QuillFrontEnd
