import QuillFrontEnd.Proofs.Printing

/-!
# Lexing the samples of given kinds

The token list of given kinds is made without lexing: the sample of each kind is laid out on one line, one space after the other. The
same tokens come out when that line is written and lexed. No two samples run into each other, and no sample has a character of more
than one byte or a line feed, so the offsets and columns that are counted up from sample to sample are those that lexing counts.
-/

namespace QuillFrontEnd

open QuillFrontEnd.Text QuillFrontEnd.Lexing

namespace TokenKind

/-- The samples of some kinds in one line, with one space between any two. -/
def spaced (ks : List TokenKind) : String := " ".intercalate (ks.map sample)

theorem toList_spaced_cons (k j : TokenKind) (ks : List TokenKind) :
    (spaced (k :: j :: ks)).toList = k.sample.toList ++ ' ' :: (spaced (j :: ks)).toList := by
  simp [spaced]

theorem utf8ByteSize_spaced_cons (k j : TokenKind) (ks : List TokenKind) :
    (spaced (k :: j :: ks)).utf8ByteSize = k.sample.utf8ByteSize + 1 + (spaced (j :: ks)).utf8ByteSize := by
  rw [← byteLength_toList, toList_spaced_cons, byteLength_append, byteLength, byteLength_toList, byteLength_toList, Nat.add_assoc]
  rfl

/-- A sample is a token of its kind where nothing comes after it. -/
theorem isLexeme_sample {k : TokenKind} (hk : k ≠ .endOfInput) : IsLexeme k k.sample.toList := by
  cases k with
  | endOfInput => exact absurd rfl hk
  | identifier => exact ⟨hk, ⟨'x', [], rfl, by decide, by simp⟩, fun k _ => by cases k <;> decide⟩
  | integer => exact ⟨hk, by decide, List.all_eq_true.1 (by decide)⟩
  | invalid => exact isLexeme_of_spanInvalid (by decide) (by decide)
  | _ => exact ⟨hk, rfl⟩

/-- The characters of a sample have one byte each. -/
theorem length_sample (k : TokenKind) : k.sample.toList.length = k.sample.utf8ByteSize := by cases k <;> decide

theorem newline_notMem_sample (k : TokenKind) : '\n' ∉ k.sample.toList := by cases k <;> decide

end TokenKind

open TokenKind

/-- A text without line feeds moves the position on by as many columns as it has characters, if there are columns for all of it. -/
theorem Position.after_of_notMem {p : Position} {text : List Char} (hline : '\n' ∉ text)
    (h : p.column + text.length ≤ maxOffset) : p.after text = ⟨p.line, p.column + text.length⟩ := by
  induction text generalizing p with
  | nil => rfl
  | cons c text ih =>
    rw [List.mem_cons, not_or] at hline
    rw [List.length_cons] at h ⊢
    have hnext : p.next c = ⟨p.line, p.column + 1⟩ := by
      rw [next, if_neg (Ne.symm hline.1), Nat.min_eq_left (by omega)]
    have hstep : p.after (c :: text) = (p.next c).after text := rfl
    rw [hstep, hnext, ih hline.2 (by dsimp only; omega)]
    dsimp only
    congr 1
    omega

namespace Lexing

variable {k : TokenKind} {after : List Char}

/-- A sample that white space comes after, or nothing, is the first token from its place on. -/
theorem locate_sample (hk : k ≠ .endOfInput) (hafter : ∀ c ∈ after.head?, isSpace c = true) (offset : Nat)
    (h : offset + 1 + k.sample.utf8ByteSize ≤ maxOffset) :
    locate offset ⟨1, offset + 1⟩ (pieces (k.sample.toList ++ after)) =
      ⟨k, k.sample, ⟨offset, offset + k.sample.utf8ByteSize⟩, ⟨1, offset + 1⟩⟩ ::
        locate (offset + k.sample.utf8ByteSize) ⟨1, offset + 1 + k.sample.utf8ByteSize⟩ (pieces after) := by
  rw [pieces_of_cut hk ((isLexeme_sample hk).cut hafter), locate, byteLength_toList, String.ofList_toList,
    Position.after_of_notMem (newline_notMem_sample k) (by rw [length_sample]; exact h), length_sample]

/-- One space moves on by one byte and one column. -/
theorem locate_space {offset column : Nat} (h : column + 1 ≤ maxOffset) (after : List Char) :
    locate offset ⟨1, column⟩ (pieces (' ' :: after)) = locate (offset + 1) ⟨1, column + 1⟩ (pieces after) := by
  have hspace : (⟨1, column⟩ : Position).after [' '] = ⟨1, column + 1⟩ := Position.after_of_notMem (by decide) h
  rw [pieces_space (by decide), locate, hspace]
  rfl

/-- The tokens among the pieces of spaced samples are the laid-out tokens. -/
theorem locate_spaced {ks : List TokenKind} (hks : .endOfInput ∉ ks) (offset : Nat)
    (hsize : offset + (spaced ks).utf8ByteSize < maxOffset) :
    locate offset ⟨1, offset + 1⟩ (pieces (spaced ks).toList) = TokenList.layOut offset ks := by
  induction ks generalizing offset with
  | nil =>
    rw [spaced, List.map_nil, String.intercalate_nil, String.toList_empty, pieces]
    rfl
  | cons k ks ih =>
    rw [List.mem_cons, not_or] at hks
    cases ks with
    | nil =>
      have hone : spaced [k] = k.sample := String.intercalate_singleton
      rw [hone] at hsize ⊢
      have htext : k.sample.toList = k.sample.toList ++ [] := (List.append_nil _).symm
      rw [htext, locate_sample (Ne.symm hks.1) (by simp) offset (by omega), pieces]
      rfl
    | cons j ks =>
      rw [utf8ByteSize_spaced_cons] at hsize
      rw [toList_spaced_cons, locate_sample (Ne.symm hks.1) (by simp; decide) offset (by omega), locate_space (by omega),
        TokenList.layOut]
      have hlater := ih hks.2 (offset + k.sample.utf8ByteSize + 1) (by omega)
      rw [← hlater]
      congr 3
      omega

end Lexing

/-- The last of the laid-out tokens of some kinds ends where their spaced samples end. -/
theorem TokenList.stop_layOut (k : TokenKind) (ks : List TokenKind) (offset : Nat) :
    (layOut offset (k :: ks)).getLast?.map (fun t => t.span.stop) = some (offset + (spaced (k :: ks)).utf8ByteSize) := by
  induction ks generalizing k offset with
  | nil =>
    have hone : spaced [k] = k.sample := String.intercalate_singleton
    rw [hone]
    rfl
  | cons j ks ih =>
    have hlater := ih j (offset + k.sample.utf8ByteSize + 1)
    rw [utf8ByteSize_spaced_cons, layOut, layOut, List.getLast?_cons_cons]
    rw [layOut] at hlater
    rw [hlater]
    congr 1
    omega

/-- The sentinel that is put after the laid-out tokens of some kinds stands where their spaced samples end. -/
theorem TokenList.sentinelAfter_layOut (ks : List TokenKind) :
    (sentinelAfter (layOut 0 ks)).lexeme = "" ∧ (sentinelAfter (layOut 0 ks)).span = .point (spaced ks).utf8ByteSize := by
  cases ks with
  | nil => exact ⟨rfl, rfl⟩
  | cons k ks =>
    obtain ⟨last, hlast, hstop⟩ := Option.map_eq_some_iff.1 (stop_layOut k ks 0)
    rw [Nat.zero_add] at hstop
    rw [sentinelAfter, hlast]
    exact ⟨rfl, congrArg Span.point hstop⟩

/-- Lexing the spaced samples of some kinds, in a text that is not too large, gives the token list of these kinds: the same tokens,
each with the same text at the same place, and then a sentinel that is empty and stands at the same point. -/
theorem lex_spaced (ks : List TokenKind) (hks : .endOfInput ∉ ks) (hsize : (spaced ks).utf8ByteSize < maxOffset) :
    ∃ out, lex (spaced ks) = .ok out ∧ out.tokens.body = (TokenList.ofKinds ks).body ∧
      out.tokens.sentinel.kind = (TokenList.ofKinds ks).sentinel.kind ∧
      out.tokens.sentinel.lexeme = (TokenList.ofKinds ks).sentinel.lexeme ∧
      out.tokens.sentinel.span = (TokenList.ofKinds ks).sentinel.span := by
  obtain ⟨out, hlex, -, hsentinel, -⟩ := exists_tiled_of_lex (Nat.le_of_lt hsize)
  obtain ⟨hbody, hend⟩ := TokenList.ofKinds_parts hks
  obtain ⟨hlexeme, hspan⟩ := TokenList.sentinelAfter_layOut ks
  have hlocate := locate_spaced hks 0 (by rwa [Nat.zero_add])
  refine ⟨out, hlex, ?_, ?_, ?_, ?_⟩
  · rw [body_of_lex hlex, hbody]
    exact hlocate
  · rw [eq_of_beq out.tokens.sentinel_isEnd, eq_of_beq (TokenList.ofKinds ks).sentinel_isEnd]
  · rw [hsentinel, hend, hlexeme]
  · rw [hsentinel, hend, hspan, ← byteLength_toList]

/-- Kinds whose samples would run into each other without the spaces: invalid characters, words, keywords and numbers. -/
theorem lex_spaced_mixed :
    let ks : List TokenKind := [.invalid, .invalid, .main, .identifier, .integer, .integer, .numberType, .leftBrace]
    .endOfInput ∉ ks ∧ (spaced ks).utf8ByteSize < maxOffset ∧
      ∃ out, lex (spaced ks) = .ok out ∧ out.tokens.body = (TokenList.ofKinds ks).body ∧
        out.tokens.sentinel.kind = (TokenList.ofKinds ks).sentinel.kind ∧
        out.tokens.sentinel.lexeme = (TokenList.ofKinds ks).sentinel.lexeme ∧
        out.tokens.sentinel.span = (TokenList.ofKinds ks).sentinel.span :=
  ⟨by decide, by decide +kernel, lex_spaced _ (by decide) (by decide +kernel)⟩

end QuillFrontEnd
