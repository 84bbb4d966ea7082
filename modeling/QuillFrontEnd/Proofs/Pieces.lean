import QuillFrontEnd.Lexing

/-!
# What the loop over a text reads

The loop reads invalid characters one by one and glues those that touch. What it makes of a text is told here without it: the text
is cut into pieces, a run of invalid characters is one piece that goes as far as it can, and every piece stands where the ones
before it end. `readAll_eq_locate` says that the tokens of the loop are the ones among the pieces.
-/

namespace QuillFrontEnd

open QuillFrontEnd.Text

namespace Lexing

variable {c : Char} {cs text : List Char} {offset : Nat} {p : Position}

/-! ## Pieces -/

/-- Whether a text starts with an invalid character: one that neither white space nor any token starts with, unless it is a slash
that starts a comment. -/
def startsInvalid : List Char → Bool
  | [] => false
  | c :: cs => !isSpace c && !isWordPart c && (markKind? c).isNone && !startsComment (c :: cs)

/-- The invalid characters at the start of a text, as far as they go, and what comes after them. -/
def spanInvalid : List Char → List Char × List Char
  | [] => ([], [])
  | c :: cs =>
    if startsInvalid (c :: cs) then
      let more := spanInvalid cs
      (c :: more.1, more.2)
    else ([], c :: cs)

/-- The first piece of a text that is not empty, given its first character and the others, and the rest of the text. -/
def nextPiece (c : Char) (cs : List Char) : Piece × List Char :=
  if startsInvalid (c :: cs) then (⟨some .invalid, c :: (spanInvalid cs).1⟩, (spanInvalid cs).2) else nextRaw c cs

/-- No character is lost between the invalid characters and what comes after them. -/
theorem spanInvalid_append (cs : List Char) : (spanInvalid cs).1 ++ (spanInvalid cs).2 = cs := by
  induction cs with
  | nil => rfl
  | cons c cs ih =>
    unfold spanInvalid
    split
    · simp [ih]
    · rfl

/-- Invalid characters go as far as they can. -/
theorem startsInvalid_rest (cs : List Char) : startsInvalid (spanInvalid cs).2 = false := by
  induction cs with
  | nil => rfl
  | cons c cs ih =>
    unfold spanInvalid
    split
    case isTrue => exact ih
    case isFalse h => exact Bool.eq_false_iff.2 h

/-- No character is lost between a piece and the rest of the text. -/
theorem nextPiece_append (c : Char) (cs : List Char) : (nextPiece c cs).1.text ++ (nextPiece c cs).2 = c :: cs := by
  unfold nextPiece
  split
  · simp [spanInvalid_append]
  · exact nextRaw_append c cs

/-- A piece is never empty. -/
theorem nextPiece_ne_nil (c : Char) (cs : List Char) : (nextPiece c cs).1.text ≠ [] := by
  unfold nextPiece
  split
  · simp
  · exact nextRaw_ne_nil c cs

/-- The rest of a text after its first piece is shorter than the text. -/
theorem nextPiece_rest_lt (c : Char) (cs : List Char) : (nextPiece c cs).2.length < (c :: cs).length := by
  have happ := congrArg List.length (nextPiece_append c cs)
  have hpos := List.length_pos_iff.2 (nextPiece_ne_nil c cs)
  rw [List.length_append] at happ
  omega

/-- The pieces of a text, in order. -/
def pieces : List Char → List Piece
  | [] => []
  | c :: cs => (nextPiece c cs).1 :: pieces (nextPiece c cs).2
termination_by text => text.length
decreasing_by exact nextPiece_rest_lt c cs

/-- The pieces of a text put together again are the text. -/
theorem flatMap_pieces (text : List Char) : (pieces text).flatMap Piece.text = text := by
  fun_induction pieces text with
  | case1 => rfl
  | case2 c cs ih => rw [List.flatMap_cons, ih, nextPiece_append]

/-- The tokens among pieces that follow one another from an offset and a position on. -/
def locate (offset : Nat) (position : Position) : List Piece → List Token
  | [] => []
  | piece :: pieces =>
    let stop := offset + byteLength piece.text
    let later := locate stop (position.after piece.text) pieces
    match piece.kind with
    | some kind => ⟨kind, String.ofList piece.text, ⟨offset, stop⟩, position⟩ :: later
    | none => later

theorem locate_cons (offset : Nat) (p : Position) (piece : Piece) (ps : List Piece) :
    locate offset p (piece :: ps) = locate offset p [piece] ++ locate (offset + byteLength piece.text) (p.after piece.text) ps := by
  obtain ⟨kind, w⟩ := piece
  cases kind <;> rfl

/-- An invalid character is read alone. -/
theorem nextRaw_of_invalid (h : startsInvalid (c :: cs) = true) : nextRaw c cs = (⟨some .invalid, [c]⟩, cs) := by
  simp only [startsInvalid, isWordPart, Bool.and_eq_true, Bool.not_eq_true', Bool.or_eq_false_iff, Option.isNone_iff_eq_none] at h
  obtain ⟨⟨⟨hspace, hstart, hdigit⟩, hmark⟩, hcomment⟩ := h
  simp only [nextRaw, hspace, hcomment, hstart, hdigit, hmark, Bool.false_eq_true, if_false, Option.getD_none]

/-- Nothing else is read as invalid. -/
theorem kind_nextRaw_ne (h : startsInvalid (c :: cs) = false) : (nextRaw c cs).1.kind ≠ some .invalid := by
  unfold nextRaw
  by_cases hspace : isSpace c = true
  · rw [if_pos hspace]
    simp
  rw [if_neg hspace]
  by_cases hcomment : startsComment (c :: cs) = true
  · rw [if_pos hcomment]
    simp
  rw [if_neg hcomment]
  by_cases hstart : isWordStart c = true
  · rw [if_pos hstart]
    exact fun hk => wordKind_ne rfl (by decide) _ (Option.some.inj hk)
  rw [if_neg hstart]
  by_cases hdigit : isDigit c = true
  · rw [if_pos hdigit]
    simp
  rw [if_neg hdigit]
  cases hmark : markKind? c with
  | none => simp [startsInvalid, isWordPart, hspace, hcomment, hstart, hdigit, hmark] at h
  | some k =>
    intro hk
    obtain rfl : k = .invalid := Option.some.inj hk
    cases (spelling_of_markKind? hmark).2

/-! ## Following the line and column -/

namespace LineTracker

/-- The tracker has walked no further than to an offset of the text, which is at a position and has `text` after it. -/
def Behind (t : LineTracker) (offset : Nat) (p : Position) (text : List Char) : Prop :=
  ∃ gap, t.ahead = gap ++ text ∧ t.offset + byteLength gap = offset ∧ t.position.after gap = p

variable {t : LineTracker}

theorem behind_start (text : List Char) : (start text).Behind 0 .first text := ⟨[], rfl, rfl, rfl⟩

/-- A tracker at the start of a token is behind after the token. -/
theorem behind_append (offset : Nat) (p : Position) (w text : List Char) :
    (⟨w ++ text, offset, p⟩ : LineTracker).Behind (offset + byteLength w) (p.after w) text :=
  ⟨w, rfl, rfl, rfl⟩

/-- A tracker stays behind when more of the text has been read. -/
theorem Behind.append {w : List Char} (h : t.Behind offset p (w ++ text)) :
    t.Behind (offset + byteLength w) (p.after w) text := by
  obtain ⟨gap, hahead, rfl, rfl⟩ := h
  refine ⟨gap ++ w, ?_, ?_, Position.after_append _ _ _⟩
  · rw [hahead, List.append_assoc]
  · rw [byteLength_append, Nat.add_assoc]

theorem walk_append (gap text : List Char) (offset : Nat) (p : Position) :
    walk (offset + byteLength gap) (gap ++ text) offset p = ⟨text, offset + byteLength gap, p.after gap⟩ := by
  induction gap generalizing offset p with
  | nil =>
    rw [List.nil_append, byteLength, Nat.add_zero]
    cases text with
    | nil => rfl
    | cons c cs =>
      rw [walk, if_neg (Nat.lt_irrefl offset)]
      rfl
  | cons c gap ih =>
    have hc := c.utf8Size_pos
    rw [byteLength, List.cons_append, walk, if_pos (by omega), ← Nat.add_assoc, ih]
    rfl

/-- A tracker that is moved on to an offset is at its position. -/
theorem Behind.moveTo (h : t.Behind offset p text) : t.moveTo offset = ⟨text, offset, p⟩ := by
  obtain ⟨gap, hahead, rfl, rfl⟩ := h
  rw [LineTracker.moveTo, hahead, walk_append]

end LineTracker

/-! ## One step of the loop -/

section Steps

variable {k : TokenKind} {w : List Char} {s : Progress} {t : LineTracker}

/-- The loop has come to an offset of the text: the tracker is behind it, and if the last token is invalid, it stops before the
offset, or at the offset with no invalid character after it. -/
structure Progress.At (s : Progress) (offset : Nat) (p : Position) (text : List Char) : Prop where
  behind : s.tracker.Behind offset p text
  apart : ∀ last ∈ s.tokens.head?, last.kind = .invalid →
    last.span.stop < offset ∨ last.span.stop = offset ∧ startsInvalid text = false

/-- After a token the loop is where the token stops. -/
theorem Progress.at_token (ht : t.Behind offset p text) (hk : k = .invalid → startsInvalid text = false) (lexeme : String)
    (start : Nat) (q : Position) (before : List Token) :
    (⟨⟨k, lexeme, ⟨start, offset⟩, q⟩ :: before, t⟩ : Progress).At offset p text where
  behind := ht
  apart := by
    rintro _ ⟨⟩ hinvalid
    exact .inr ⟨rfl, hk hinvalid⟩

/-- After white space or a comment the loop is apart from the last token. -/
theorem Progress.At.skip (h : s.At offset p (w ++ text)) (hw : w ≠ []) : s.At (offset + byteLength w) (p.after w) text where
  behind := h.behind.append
  apart := fun last hlast hinvalid => by
    have hpos := byteLength_pos hw
    rcases h.apart last hlast hinvalid with hlt | ⟨heq, -⟩
    · exact .inl (by omega)
    · exact .inl (by omega)

theorem Progress.read_none (offset : Nat) (w : List Char) : s.read offset ⟨none, w⟩ = .ok s := rfl

/-- A token is put where it stands, and glued if it is invalid. -/
theorem Progress.read_some (h : s.tracker.Behind offset p (w ++ text)) (hfits : offset + byteLength w ≤ maxOffset) (k : TokenKind) :
    s.read offset ⟨some k, w⟩ =
      let token : Token := ⟨k, String.ofList w, ⟨offset, offset + byteLength w⟩, p⟩
      .ok ⟨if k == .invalid then glue token s.tokens else token :: s.tokens, ⟨w ++ text, offset, p⟩⟩ := by
  have hrange : Span.ofRange offset (offset + byteLength w) = .ok ⟨offset, offset + byteLength w⟩ :=
    Span.ofRange_eq_ok_iff.2 ⟨by omega, hfits, rfl⟩
  simp only [Progress.read, hrange, h.moveTo]
  rfl

theorem readAll_cons {s' : Progress} (h : s.read offset (nextRaw c cs).1 = .ok s') :
    readAll offset s (c :: cs) = readAll (offset + byteLength (nextRaw c cs).1.text) s' (nextRaw c cs).2 := by
  rw [readAll, h]
  rfl

/-- An invalid character is read and glued. -/
theorem readAll_invalid (hs : s.tracker.Behind offset p (c :: cs)) (hfits : offset + byteLength (c :: cs) ≤ maxOffset)
    (hc : startsInvalid (c :: cs) = true) :
    readAll offset s (c :: cs) = readAll (offset + byteLength [c])
      ⟨glue ⟨.invalid, String.ofList [c], ⟨offset, offset + byteLength [c]⟩, p⟩ s.tokens, ⟨c :: cs, offset, p⟩⟩ cs := by
  have hone : offset + byteLength [c] ≤ maxOffset := by
    rw [byteLength_cons] at hfits
    omega
  have hread := Progress.read_some (w := [c]) hs hone .invalid
  have hraw := nextRaw_of_invalid hc
  rw [readAll_cons (by rw [hraw]; exact hread), hraw]
  rfl

/-- What is glued to an invalid token that stops where it starts goes into that token. -/
theorem glue_touching (lexeme more : String) {start stop : Nat} (hstart : start ≤ offset) (hstop : offset ≤ stop) (q p : Position)
    (before : List Token) :
    glue ⟨.invalid, more, ⟨offset, stop⟩, p⟩ (⟨.invalid, lexeme, ⟨start, offset⟩, q⟩ :: before) =
      ⟨.invalid, lexeme ++ more, ⟨start, stop⟩, q⟩ :: before := by
  rw [glue, if_pos (by simp), Span.merge, Nat.min_eq_left hstart, Nat.max_eq_right hstop]

theorem glue_apart {token : Token} {tokens : List Token}
    (h : ∀ last ∈ tokens.head?, last.kind = .invalid → last.span.stop ≠ token.span.start) : glue token tokens = token :: tokens := by
  cases tokens with
  | nil => rfl
  | cons last before =>
    have hapart : ¬(last.kind == .invalid && last.span.stop == token.span.start) = true := by
      rw [Bool.and_eq_true, beq_iff_eq, beq_iff_eq]
      rintro ⟨hinvalid, hstop⟩
      exact h last rfl hinvalid hstop
    rw [glue, if_neg hapart]

end Steps

/-! ## The tokens of the loop -/

section Loop

variable {s : Progress} {t : LineTracker}

/-- Invalid characters right after an invalid token are glued to it, as far as they go. -/
theorem readAll_run (lexeme : String) (start : Nat) (q : Position) (before : List Token) (hstart : start ≤ offset)
    (hfits : offset + byteLength cs ≤ maxOffset) (ht : t.Behind offset p cs) :
    ∃ t' : LineTracker,
      t'.Behind (offset + byteLength (spanInvalid cs).1) (p.after (spanInvalid cs).1) (spanInvalid cs).2 ∧
      readAll offset ⟨⟨.invalid, lexeme, ⟨start, offset⟩, q⟩ :: before, t⟩ cs =
        readAll (offset + byteLength (spanInvalid cs).1)
          ⟨⟨.invalid, lexeme ++ String.ofList (spanInvalid cs).1, ⟨start, offset + byteLength (spanInvalid cs).1⟩, q⟩ :: before, t'⟩
          (spanInvalid cs).2 := by
  induction cs generalizing offset p lexeme t with
  | nil => exact ⟨t, ht, by simp [spanInvalid, byteLength]⟩
  | cons c cs ih =>
    rw [spanInvalid]
    split
    case isFalse => exact ⟨t, ht, by simp [byteLength]⟩
    case isTrue hc =>
      have hnext := LineTracker.behind_append offset p [c] cs
      have hstop : offset ≤ offset + byteLength [c] := Nat.le_add_right _ _
      have hread := readAll_invalid (s := ⟨⟨.invalid, lexeme, ⟨start, offset⟩, q⟩ :: before, t⟩) ht hfits hc
      rw [glue_touching lexeme _ hstart hstop] at hread
      rw [byteLength_cons, ← Nat.add_assoc] at hfits
      obtain ⟨t', hbehind, hrun⟩ := ih (lexeme ++ String.ofList [c]) (Nat.le_trans hstart hstop) hfits hnext
      -- The character and the rest of the run are put together again: their bytes, and their texts in the lexeme.
      rw [Nat.add_assoc, ← byteLength_cons] at hbehind hrun
      rw [String.append_assoc, ← String.ofList_append, List.singleton_append] at hrun
      exact ⟨t', hbehind, hread.trans hrun⟩

/-- The loop takes the next piece of the text: it comes to the end of the piece, with the token that the piece is, if it is one. -/
def Takes (s : Progress) (offset : Nat) (p : Position) (text : List Char) (piece : Piece) (rest : List Char) : Prop :=
  ∃ s' : Progress, s'.At (offset + byteLength piece.text) (p.after piece.text) rest ∧
    s'.tokens = (locate offset p [piece]).reverse ++ s.tokens ∧
    readAll offset s text = readAll (offset + byteLength piece.text) s' rest

/-- A run of invalid characters is taken as one token: its first character is apart from the last token, and the others are glued
to it. -/
theorem takes_invalid (hs : s.At offset p (c :: cs)) (hfits : offset + byteLength (c :: cs) ≤ maxOffset)
    (hc : startsInvalid (c :: cs) = true) :
    Takes s offset p (c :: cs) ⟨some .invalid, c :: (spanInvalid cs).1⟩ (spanInvalid cs).2 := by
  have happart : ∀ last ∈ s.tokens.head?, last.kind = .invalid → last.span.stop ≠ offset := by
    intro last hlast hinvalid
    rcases hs.apart last hlast hinvalid with hlt | ⟨-, hvalid⟩
    · exact Nat.ne_of_lt hlt
    · rw [hc] at hvalid
      cases hvalid
  have hnext := LineTracker.behind_append offset p [c] cs
  have hread := readAll_invalid hs.behind hfits hc
  rw [glue_apart happart] at hread
  rw [byteLength_cons, ← Nat.add_assoc] at hfits
  obtain ⟨t, ht, hrun⟩ := readAll_run (String.ofList [c]) offset p s.tokens (Nat.le_add_right offset _) hfits hnext
  rw [Nat.add_assoc, ← byteLength_cons] at ht hrun
  rw [← String.ofList_append, List.singleton_append] at hrun
  exact ⟨_, Progress.at_token ht (fun _ => startsInvalid_rest cs) _ offset p s.tokens, rfl, hread.trans hrun⟩

/-- Any other piece is taken as it is read. -/
theorem takes_raw (hs : s.At offset p (c :: cs)) (hfits : offset + byteLength (c :: cs) ≤ maxOffset)
    (hc : startsInvalid (c :: cs) = false) : Takes s offset p (c :: cs) (nextRaw c cs).1 (nextRaw c cs).2 := by
  have hkind := kind_nextRaw_ne hc
  have hne := nextRaw_ne_nil c cs
  have happ := nextRaw_append c cs
  have hread := @readAll_cons c cs offset s
  rw [← happ, byteLength_append, ← Nat.add_assoc] at hfits
  rw [← happ] at hs
  generalize (nextRaw c cs).1 = piece at *
  obtain ⟨kind, w⟩ := piece
  cases kind with
  | none => exact ⟨s, hs.skip hne, rfl, hread (Progress.read_none offset w)⟩
  | some k =>
    have hvalid : k ≠ .invalid := fun hk => hkind (congrArg some hk)
    have hstep := Progress.read_some hs.behind (Nat.le_of_add_right_le hfits) k
    dsimp only at hstep
    rw [if_neg (by simpa using hvalid)] at hstep
    exact ⟨_, Progress.at_token (LineTracker.behind_append _ _ _ _) (fun hk => absurd hk hvalid) _ _ _ _, rfl, hread hstep⟩

/-- The loop reads the tokens among the pieces of the text. -/
theorem readAll_eq_locate (hs : s.At offset p text) (hfits : offset + byteLength text ≤ maxOffset) :
    ∃ t : LineTracker, t.Behind (offset + byteLength text) (p.after text) [] ∧
      readAll offset s text = .ok ⟨(locate offset p (pieces text)).reverse ++ s.tokens, t⟩ := by
  fun_induction pieces text generalizing offset p s with
  | case1 => exact ⟨s.tracker, hs.behind, by simp [readAll, locate]⟩
  | case2 c cs ih =>
    have htakes : Takes s offset p (c :: cs) (nextPiece c cs).1 (nextPiece c cs).2 := by
      unfold nextPiece
      split
      case isTrue hc => exact takes_invalid hs hfits hc
      case isFalse hc => exact takes_raw hs hfits (Bool.eq_false_iff.2 hc)
    obtain ⟨s', hs', htokens, hread⟩ := htakes
    have happ := nextPiece_append c cs
    rw [← happ, byteLength_append, ← Nat.add_assoc] at hfits
    obtain ⟨t, ht, hrest⟩ := ih hs' hfits
    refine ⟨t, ?_, ?_⟩
    · rwa [← happ, Position.after_append, byteLength_append, ← Nat.add_assoc]
    · rw [hread, hrest, htokens, locate_cons _ _ _ (pieces _), List.reverse_append, List.append_assoc]

/-- Lexing gives the tokens among the pieces of a text and the sentinel after them. -/
theorem lex_eq (source : String) : lex source =
    (Span.ofRange (byteLength source.toList) (byteLength source.toList)).map fun stop =>
      let tokens := locate 0 .first (pieces source.toList)
      { tokens := TokenList.ofTokens (tokens ++ [⟨.endOfInput, "", stop, Position.first.after source.toList⟩])
        diagnostics := (tokens.filter fun t => t.kind == .invalid).map invalidCharacters } := by
  cases hrange : Span.ofRange (byteLength source.toList) (byteLength source.toList) with
  | error e =>
    rw [lex]
    dsimp only
    rw [hrange]
    rfl
  | ok stop =>
    have hfits : 0 + byteLength source.toList ≤ maxOffset := by
      rw [Nat.zero_add]
      exact (Span.ofRange_eq_ok_iff.1 hrange).1
    have hstart : (⟨[], .start source.toList⟩ : Progress).At 0 .first source.toList := ⟨LineTracker.behind_start _, by simp⟩
    obtain ⟨t, hbehind, hread⟩ := readAll_eq_locate hstart hfits
    rw [Nat.zero_add] at hbehind
    rw [List.append_nil] at hread
    rw [lex]
    dsimp only
    rw [hrange]
    dsimp only [bind, Except.bind]
    rw [hread]
    dsimp only
    rw [hbehind.moveTo, List.reverse_reverse]
    rfl

/-- Lexing succeeds exactly for the texts that are not too large. -/
theorem lex_eq_ok_iff {source : String} {out : LexOutput} : lex source = .ok out ↔
    byteLength source.toList ≤ maxOffset ∧
      out = {
        tokens := TokenList.ofTokens (locate 0 .first (pieces source.toList) ++
          [⟨.endOfInput, "", .point (byteLength source.toList), Position.first.after source.toList⟩])
        diagnostics := ((locate 0 .first (pieces source.toList)).filter fun t => t.kind == .invalid).map invalidCharacters } := by
  rw [lex_eq]
  cases hrange : Span.ofRange (byteLength source.toList) (byteLength source.toList) with
  | error e =>
    have hlarge : ¬byteLength source.toList ≤ maxOffset := by
      intro h
      rw [Span.ofRange_eq_ok_iff.2 ⟨h, h, rfl⟩] at hrange
      cases hrange
    simp [Except.map, hlarge]
  | ok stop =>
    obtain ⟨h, -, rfl⟩ := Span.ofRange_eq_ok_iff.1 hrange
    rw [Except.map, Except.ok.injEq, eq_comm]
    exact (and_iff_right h).symm

end Loop

end Lexing

end QuillFrontEnd
