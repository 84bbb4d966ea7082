import QuillFrontEnd.Proofs.LineByLine
import Mathlib.Data.List.DropRight

/-!
# The lines and columns of tokens

Lexing keeps a position and moves it on character by character. The line and the column that it shows for a token can be counted
from the text before the token alone: the line feeds in it, and the characters after the last of them. This holds for texts with
fewer bytes than the largest offset, where no line and no column grows too large to be counted.
-/

namespace QuillFrontEnd

open QuillFrontEnd.Text QuillFrontEnd.Lexing

namespace Position

/-- The position at the end of a text, counted from the whole text: one line for each line feed, and one column for each character
after the last of them. -/
def endOf (text : List Char) : Position := ⟨1 + text.count '\n', 1 + (text.rtakeWhile (· != '\n')).length⟩

theorem column_endOf_le (text : List Char) : (endOf text).column ≤ 1 + text.length :=
  Nat.add_le_add_left (List.rtakeWhile_suffix _ text).length_le 1

theorem line_endOf_le (text : List Char) : (endOf text).line ≤ 1 + text.length :=
  Nat.add_le_add_left List.count_le_length 1

/-- One more character moves the position at the end of a text, if there are columns for all of the text. -/
theorem next_endOf (text : List Char) (c : Char) (h : text.length + 1 < maxOffset) :
    (endOf text).next c = endOf (text ++ [c]) := by
  by_cases hc : c = '\n'
  · subst hc
    have hline : (text ++ ['\n']).count '\n' = text.count '\n' + 1 := by simp
    rw [next, if_pos rfl, endOf, endOf, hline, List.rtakeWhile_concat_neg _ _ _ (by decide)]
    rfl
  · have hcolumn := column_endOf_le text
    have hline : (text ++ [c]).count '\n' = text.count '\n' := by simp [hc]
    rw [next, if_neg hc, Nat.min_eq_left (by omega), endOf, endOf, hline, List.rtakeWhile_concat_pos _ _ _ (by simpa using hc),
      List.length_append]
    rfl

/-- Moving on character by character leads to the position at the end of a text. -/
theorem after_eq_endOf {text : List Char} (h : text.length < maxOffset) : first.after text = endOf text := by
  induction text using List.reverseRecOn with
  | nil => rfl
  | append_singleton text c ih =>
    rw [List.length_append, List.length_singleton] at h
    rw [after_append, ih (by omega), ← next_endOf text c h]
    rfl

end Position

namespace Lexing

/-- A token among pieces stands after the text of the pieces before it. -/
theorem exists_before_of_mem_locate {ps : List Piece} {offset : Nat} {p : Position} {t : Token} (ht : t ∈ locate offset p ps) :
    ∃ before more, ps.flatMap Piece.text = before ++ more ∧ t.span.start = offset + byteLength before ∧
      t.position = p.after before := by
  induction ps generalizing offset p with
  | nil => cases ht
  | cons piece ps ih =>
    rw [List.flatMap_cons]
    have hlater : t ∈ locate (offset + byteLength piece.text) (p.after piece.text) ps →
        ∃ before more, piece.text ++ ps.flatMap Piece.text = before ++ more ∧ t.span.start = offset + byteLength before ∧
          t.position = p.after before := by
      intro ht
      obtain ⟨before, more, htext, hstart, hposition⟩ := ih ht
      refine ⟨piece.text ++ before, more, by rw [htext, List.append_assoc], ?_, ?_⟩
      · rw [hstart, byteLength_append, Nat.add_assoc]
      · rw [hposition, Position.after_append]
    rw [locate] at ht
    cases hkind : piece.kind with
    | none =>
      rw [hkind] at ht
      exact hlater ht
    | some kind =>
      rw [hkind] at ht
      rcases List.mem_cons.1 ht with rfl | ht
      · exact ⟨[], _, rfl, rfl, rfl⟩
      · exact hlater ht

end Lexing

/-- A token of a text stands after a part of the text, at the position that lexing has reached there. -/
theorem exists_before_of_lex {source : String} {out : LexOutput} (hsize : source.utf8ByteSize ≤ maxOffset)
    (hlex : lex source = .ok out) {t : Token} (ht : t ∈ out.tokens.toList) :
    ∃ before more, source.toList = before ++ more ∧ t.span.start = byteLength before ∧
      t.position = Position.first.after before := by
  obtain ⟨out', hlex', -, hsentinel, -⟩ := exists_tiled_of_lex hsize
  obtain rfl : out = out' := Except.ok.inj (hlex.symm.trans hlex')
  rcases List.mem_append.1 ht with hbody | hlast
  · rw [body_of_lex hlex] at hbody
    obtain ⟨before, more, htext, hstart, hposition⟩ := exists_before_of_mem_locate hbody
    rw [flatMap_pieces] at htext
    exact ⟨before, more, htext, by rw [hstart, Nat.zero_add], hposition⟩
  · rw [List.mem_singleton.1 hlast, hsentinel]
    exact ⟨source.toList, [], by rw [List.append_nil], rfl, rfl⟩

/-- The position of every token is the one counted from the text before it. On the way through the text each character finds room
for one more line and one more column, and no two tokens are at the same position or in the wrong order. -/
theorem token_positions_exact (source : String) (hsize : source.utf8ByteSize < maxOffset) :
    ∃ out, lex source = .ok out ∧
      (∀ t ∈ out.tokens.toList, ∃ before, takeBytes? t.span.start source.toList = some before ∧
        t.position.line = 1 + before.count '\n' ∧ t.position.column = 1 + (before.rtakeWhile (· != '\n')).length) ∧
      (∀ before c more, source.toList = before ++ c :: more →
        (Position.first.after before).line + 1 ≤ maxOffset ∧ (Position.first.after before).column + 1 ≤ maxOffset) ∧
      out.tokens.PositionsIncrease := by
  obtain ⟨out, hlex, -⟩ := exists_tiled_of_lex (Nat.le_of_lt hsize)
  have hlength := length_le_byteLength source.toList
  rw [byteLength_toList] at hlength
  refine ⟨out, hlex, fun t ht => ?_, fun before c more htext => ?_, positionsIncrease_of_lex hsize hlex⟩
  · obtain ⟨before, more, htext, hstart, hposition⟩ := exists_before_of_lex (Nat.le_of_lt hsize) hlex ht
    rw [htext, List.length_append] at hlength
    rw [hposition, Position.after_eq_endOf (by omega), hstart, htext]
    exact ⟨before, takeBytes?_append before more, rfl, rfl⟩
  · rw [htext, List.length_append, List.length_cons] at hlength
    have hline := Position.line_endOf_le before
    have hcolumn := Position.column_endOf_le before
    rw [Position.after_eq_endOf (by omega)]
    omega

/-- A text with characters of several bytes, a run of invalid characters, a comment and a last line that is empty. -/
theorem token_positions_exact_lines :
    "var é→?? //😀\n\t x;\n".utf8ByteSize < maxOffset ∧
      ∃ out, lex "var é→?? //😀\n\t x;\n" = .ok out ∧
        (∀ t ∈ out.tokens.toList, ∃ before, takeBytes? t.span.start "var é→?? //😀\n\t x;\n".toList = some before ∧
          t.position.line = 1 + before.count '\n' ∧ t.position.column = 1 + (before.rtakeWhile (· != '\n')).length) ∧
        (∀ before c more, "var é→?? //😀\n\t x;\n".toList = before ++ c :: more →
          (Position.first.after before).line + 1 ≤ maxOffset ∧ (Position.first.after before).column + 1 ≤ maxOffset) ∧
        out.tokens.PositionsIncrease := by
  have hsize : "var é→?? //😀\n\t x;\n".utf8ByteSize < maxOffset := by decide
  exact ⟨hsize, token_positions_exact _ hsize⟩

end QuillFrontEnd
