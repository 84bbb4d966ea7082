import QuillFrontEnd.Proofs.TokenOrder

/-!
# Lexing line by line

No piece of a text goes on past a line feed: white space is cut off character by character, and a comment, a word, a number and a
run of invalid characters all stop before one. So a text can be cut at any line feed, and its tokens are those of what stands
before the line feed and then those of what stands after it, moved down by as many bytes and lines as stand before them.
-/

namespace QuillFrontEnd

open QuillFrontEnd.Text

/-! ## Moving down a text -/

/-- The span this many bytes further on. -/
def Span.moved (bytes : Nat) (s : Span) : Span := ⟨s.start + bytes, s.stop + bytes⟩

/-- The position this many lines further down, at the same column. -/
def Position.moved (lines : Nat) (p : Position) : Position := ⟨p.line + lines, p.column⟩

/-- The token this many bytes further on and this many lines further down. -/
def Token.moved (bytes lines : Nat) (t : Token) : Token :=
  { t with span := t.span.moved bytes, position := t.position.moved lines }

/-- The diagnostic this many bytes further on and this many lines further down, as is the token that it blames. -/
def Diagnostic.moved (bytes lines : Nat) (d : Diagnostic) : Diagnostic :=
  { d with
    span := d.span.moved bytes
    position := d.position.moved lines
    found := d.found.map (Token.moved bytes lines) }

namespace Position

theorem next_moved (lines : Nat) (p : Position) (c : Char) : (p.moved lines).next c = (p.next c).moved lines := by
  unfold next moved
  split
  · rw [Nat.add_right_comm]
  · rfl

theorem after_moved (lines : Nat) (p : Position) (text : List Char) :
    (p.moved lines).after text = (p.after text).moved lines := by
  induction text generalizing p with
  | nil => rfl
  | cons c text ih =>
    change ((p.moved lines).next c).after text = ((p.next c).after text).moved lines
    rw [next_moved, ih]

theorem line_after (p : Position) (text : List Char) : (p.after text).line = p.line + text.count '\n' := by
  induction text generalizing p with
  | nil => rfl
  | cons c text ih =>
    change ((p.next c).after text).line = _
    rw [ih, List.count_cons]
    by_cases hc : c = '\n'
    · simp only [next, hc, if_true, beq_self_eq_true]
      omega
    · simp [next, hc]

/-- A line feed leads to the start of a line, as many lines down as there are line feeds. -/
theorem after_line (text more : List Char) :
    first.after (text ++ '\n' :: more) = (first.after more).moved (1 + text.count '\n') := by
  have hstart : (first.after text).next '\n' = first.moved (1 + text.count '\n') := by
    have hline : (first.after text).line = 1 + text.count '\n' := line_after first text
    rw [next, if_pos rfl, hline, Nat.add_comm]
    rfl
  rw [after_append, ← after_moved, ← hstart]
  rfl

end Position

namespace Lexing

/-! ## Pieces stop at line feeds -/

variable {p : Char → Bool}

theorem takeWhile_line (hp : p '\n' = false) (cs ds : List Char) :
    (cs ++ '\n' :: ds).takeWhile p = cs.takeWhile p := by
  induction cs with
  | nil => simp [hp]
  | cons c cs ih => simp only [List.cons_append, List.takeWhile_cons, ih]

theorem dropWhile_line (hp : p '\n' = false) (cs ds : List Char) :
    (cs ++ '\n' :: ds).dropWhile p = cs.dropWhile p ++ '\n' :: ds := by
  induction cs with
  | nil => simp [hp]
  | cons c cs ih =>
    simp only [List.cons_append, List.dropWhile_cons, ih]
    split <;> rfl

theorem startsComment_line (c : Char) (cs ds : List Char) :
    startsComment (c :: (cs ++ '\n' :: ds)) = startsComment (c :: cs) := by
  cases cs with
  | nil => simp [startsComment]
  | cons d cs =>
    by_cases hc : c = '/' <;> by_cases hd : d = '/' <;> simp [startsComment, hc, hd]

theorem startsInvalid_line (c : Char) (cs ds : List Char) :
    startsInvalid (c :: (cs ++ '\n' :: ds)) = startsInvalid (c :: cs) := by
  rw [startsInvalid, startsInvalid, startsComment_line]

theorem spanInvalid_line (cs ds : List Char) :
    spanInvalid (cs ++ '\n' :: ds) = ((spanInvalid cs).1, (spanInvalid cs).2 ++ '\n' :: ds) := by
  induction cs with
  | nil => rfl
  | cons c cs ih =>
    simp only [List.cons_append, spanInvalid, startsInvalid_line, ih]
    split <;> rfl

/-- What comes after a line feed does not change what is read before it. -/
theorem nextRaw_line (c : Char) (cs ds : List Char) :
    nextRaw c (cs ++ '\n' :: ds) = ((nextRaw c cs).1, (nextRaw c cs).2 ++ '\n' :: ds) := by
  have hword : isWordPart '\n' = false := by decide
  have hdigit : isDigit '\n' = false := by decide
  simp only [nextRaw, startsComment_line, takeWhile_line hword, dropWhile_line hword, takeWhile_line hdigit,
    dropWhile_line hdigit, takeWhile_line (p := (· != '\n')) rfl, dropWhile_line (p := (· != '\n')) rfl]
  repeat' split
  all_goals rfl

/-- What comes after a line feed does not change the piece that is cut off before it. -/
theorem nextPiece_line (c : Char) (cs ds : List Char) :
    nextPiece c (cs ++ '\n' :: ds) = ((nextPiece c cs).1, (nextPiece c cs).2 ++ '\n' :: ds) := by
  rw [nextPiece, nextPiece, startsInvalid_line, spanInvalid_line, nextRaw_line]
  split <;> rfl

/-- The pieces of a text that is cut at a line feed; the line feed is a piece of its own. -/
theorem pieces_line (cs ds : List Char) : pieces (cs ++ '\n' :: ds) = pieces cs ++ ⟨none, ['\n']⟩ :: pieces ds := by
  fun_induction pieces cs with
  | case1 =>
    rw [List.nil_append, pieces]
    rfl
  | case2 c cs ih => rw [List.cons_append, pieces, nextPiece_line, ih, List.cons_append]

/-! ## Tokens of moved pieces -/

theorem locate_append (offset : Nat) (position : Position) (ps qs : List Piece) :
    locate offset position (ps ++ qs) = locate offset position ps ++
      locate (offset + byteLength (ps.flatMap Piece.text)) (position.after (ps.flatMap Piece.text)) qs := by
  induction ps generalizing offset position with
  | nil => rfl
  | cons piece ps ih =>
    rw [List.cons_append, locate, locate, ih, List.flatMap_cons, byteLength_append, Position.after_append, Nat.add_assoc]
    cases piece.kind <;> rfl

theorem locate_moved (bytes lines offset : Nat) (position : Position) (ps : List Piece) :
    locate (offset + bytes) (position.moved lines) ps = (locate offset position ps).map (Token.moved bytes lines) := by
  induction ps generalizing offset position with
  | nil => rfl
  | cons piece ps ih =>
    rw [locate, locate, Nat.add_right_comm, Position.after_moved, ih]
    cases piece.kind <;> rfl

/-- The tokens of a text that is cut at a line feed. -/
theorem locate_line (cs ds : List Char) :
    locate 0 .first (pieces (cs ++ '\n' :: ds)) = locate 0 .first (pieces cs) ++
      (locate 0 .first (pieces ds)).map (Token.moved (byteLength cs + 1) (1 + cs.count '\n')) := by
  have hbreak (offset : Nat) (p : Position) (qs : List Piece) :
      locate offset p (⟨none, ['\n']⟩ :: qs) = locate (offset + 1) (p.after ['\n']) qs := rfl
  have hafter : (Position.first.after cs).after ['\n'] = Position.first.moved (1 + cs.count '\n') := by
    rw [← Position.after_append, Position.after_line]
    rfl
  rw [pieces_line, locate_append, flatMap_pieces, hbreak, hafter, Nat.add_assoc, locate_moved]

end Lexing

open QuillFrontEnd.Lexing

/-- A text that is cut at a line feed is lexed part by part. -/
theorem lex_line_by_line (above below : String) (h : (above ++ "\n" ++ below).utf8ByteSize < maxOffset) :
    ∃ outAbove outBelow out, lex above = .ok outAbove ∧ lex below = .ok outBelow ∧
      lex (above ++ "\n" ++ below) = .ok out ∧
      out.tokens.toList = outAbove.tokens.body ++
        outBelow.tokens.toList.map (Token.moved (above.utf8ByteSize + 1) (1 + above.toList.count '\n')) ∧
      out.diagnostics = outAbove.diagnostics ++
        outBelow.diagnostics.map (Diagnostic.moved (above.utf8ByteSize + 1) (1 + above.toList.count '\n')) := by
  have hsize : (above ++ "\n" ++ below).utf8ByteSize = above.utf8ByteSize + 1 + below.utf8ByteSize := by
    rw [String.utf8ByteSize_append, String.utf8ByteSize_append]
    rfl
  have htext : (above ++ "\n" ++ below).toList = above.toList ++ '\n' :: below.toList := by simp
  have hsizeAbove : above.utf8ByteSize ≤ maxOffset := by omega
  have hsizeBelow : below.utf8ByteSize ≤ maxOffset := by omega
  obtain ⟨outAbove, hlexAbove, -, -, hdiagAbove⟩ := exists_tiled_of_lex hsizeAbove
  obtain ⟨outBelow, hlexBelow, -, hsentinelBelow, hdiagBelow⟩ := exists_tiled_of_lex hsizeBelow
  obtain ⟨out, hlex, -, hsentinel, hdiag⟩ := exists_tiled_of_lex (Nat.le_of_lt h)
  have hbody : out.tokens.body = outAbove.tokens.body ++
      outBelow.tokens.body.map (Token.moved (above.utf8ByteSize + 1) (1 + above.toList.count '\n')) := by
    rw [body_of_lex hlex, body_of_lex hlexAbove, body_of_lex hlexBelow, htext, locate_line, byteLength_toList]
  refine ⟨outAbove, outBelow, out, hlexAbove, hlexBelow, hlex, ?_, ?_⟩
  · have hend : out.tokens.sentinel =
        outBelow.tokens.sentinel.moved (above.utf8ByteSize + 1) (1 + above.toList.count '\n') := by
      rw [hsentinel, hsentinelBelow, htext, Position.after_line, byteLength_append, byteLength_toList]
      have hbytes : above.utf8ByteSize + byteLength ('\n' :: below.toList) =
          byteLength below.toList + (above.utf8ByteSize + 1) := by
        change above.utf8ByteSize + (1 + byteLength below.toList) = _
        omega
      rw [hbytes]
      rfl
    rw [TokenList.toList, TokenList.toList, hbody, hend, List.map_append, List.append_assoc, List.map_singleton]
  · -- The message about an invalid token says nothing of its place, so it moves with the token.
    rw [hdiag, hdiagAbove, hdiagBelow, hbody, List.filter_append, List.map_append, List.filter_map, List.map_map, List.map_map]
    rfl

/-- Two slashes with a line feed between them are no comment: each is the end or the start of a run of invalid characters. -/
theorem lex_line_by_line_slashes :
    ("v\né?/" ++ "\n" ++ "/? //c").utf8ByteSize < maxOffset ∧
      ∃ outAbove outBelow out, lex "v\né?/" = .ok outAbove ∧ lex "/? //c" = .ok outBelow ∧
        lex ("v\né?/" ++ "\n" ++ "/? //c") = .ok out ∧
        out.tokens.toList = outAbove.tokens.body ++ outBelow.tokens.toList.map (Token.moved 7 2) ∧
        out.diagnostics = outAbove.diagnostics ++ outBelow.diagnostics.map (Diagnostic.moved 7 2) := by
  have hsize : ("v\né?/" ++ "\n" ++ "/? //c").utf8ByteSize < maxOffset := by decide
  exact ⟨hsize, lex_line_by_line _ _ hsize⟩

end QuillFrontEnd
