import QuillFrontEnd.Proofs.TokenOrder

/-!
# Lexing undoes printing

Tokens are printed by writing their texts one after the other with separators between them. A separator starts with white space and
goes on with white space and comments, so no token runs into the next one, and no invalid text runs into a comment. Lexing what was
printed gives the tokens back, whatever the comments say.
-/

namespace QuillFrontEnd

open QuillFrontEnd.Text

namespace Lexing

variable {c : Char} {cs w g after : List Char} {k : TokenKind}

/-! ## Printed tokens -/

/-- A text that is a token of a kind where nothing comes after it: the spelling of the kind, a word that is no keyword, digits, or
foreign characters without two slashes in a row. -/
def IsLexeme (k : TokenKind) (w : List Char) : Prop := k ≠ .endOfInput ∧ Spells w [] k

/-- White space and comments, each comment with a line feed at its end. -/
inductive Padding : List Char → Prop where
  | nil : Padding []
  | space {c : Char} {cs : List Char} : isSpace c = true → Padding cs → Padding (c :: cs)
  | comment {body cs : List Char} : '\n' ∉ body → Padding cs → Padding ('/' :: '/' :: (body ++ '\n' :: cs))

/-- What may stand between two tokens: a white space character, and then white space and comments. -/
def Separator (gap : List Char) : Prop := ∃ c cs, gap = c :: cs ∧ isSpace c = true ∧ Padding cs

/-- A token to be printed: its kind and text, and what is printed after it. -/
structure Entry where
  kind : TokenKind
  lexeme : String
  gap : String

/-- Entries that can be read back: the text of each is a lexeme of its kind, and a separator comes after it. After the last one the
separator may be left out. -/
def Printable : List Entry → Prop
  | [] => True
  | e :: es => IsLexeme e.kind e.lexeme.toList ∧ (Separator e.gap.toList ∨ e.gap = "" ∧ es = []) ∧ Printable es

/-- The texts of entries and what comes after them, one after the other. -/
def print (es : List Entry) : String := String.join (es.map fun e => e.lexeme ++ e.gap)

/-! ## The first piece of a text -/

theorem startsComment_of_ne (hc : c ≠ '/') (cs : List Char) : startsComment (c :: cs) = false := by
  unfold startsComment
  split
  · rename_i heq
    exact absurd (List.cons.inj heq).1 hc
  · rfl

/-- No comment starts with the first of some characters in which none starts. -/
theorem NoComment.startsComment (h : NoComment (c :: cs) after) : Lexing.startsComment (c :: (cs ++ after)) = false := by
  unfold Lexing.startsComment
  split
  · rename_i v heq
    have hlen := h [] v heq
    simp at hlen
  · rfl

theorem NoComment.tail (h : NoComment (c :: cs) after) : NoComment cs after := by
  intro u v huv
  have hlen := h (c :: u) v (by rw [List.cons_append, huv, List.cons_append])
  simpa using hlen

/-- A run of characters that pass a test ends where a character does not pass it. -/
theorem takeWhile_of_stop {p : Char → Bool} (hw : ∀ d ∈ w, p d = true) (hafter : ∀ d ∈ after.head?, p d = false) :
    (w ++ after).takeWhile p = w ∧ (w ++ after).dropWhile p = after := by
  rw [List.takeWhile_append_of_pos hw, List.dropWhile_append_of_pos hw]
  cases after with
  | nil => exact ⟨List.append_nil w, rfl⟩
  | cons d ds =>
    have hd : ¬p d = true := by simp [hafter d rfl]
    rw [List.takeWhile_cons_of_neg hd, List.dropWhile_cons_of_neg hd, List.append_nil]
    exact ⟨rfl, rfl⟩

theorem nextPiece_word (hc : isWordStart c = true) (hcs : ∀ d ∈ cs, isWordPart d = true)
    (hafter : ∀ d ∈ after.head?, isWordPart d = false) :
    nextPiece c (cs ++ after) = (⟨some (wordKind (String.ofList (c :: cs))), c :: cs⟩, after) := by
  obtain ⟨hspace, hslash⟩ := not_isSpace_of_isWordPart (c := c) (by rw [isWordPart, hc, Bool.true_or])
  obtain ⟨htake, hdrop⟩ := takeWhile_of_stop hcs hafter
  have hvalid : startsInvalid (c :: (cs ++ after)) = false := by simp [startsInvalid, isWordPart, hc]
  simp only [nextPiece, hvalid, nextRaw, hspace, startsComment_of_ne hslash, hc, htake, hdrop, if_true, Bool.false_eq_true, if_false]

theorem nextPiece_number (hc : isDigit c = true) (hcs : ∀ d ∈ cs, isDigit d = true)
    (hafter : ∀ d ∈ after.head?, isDigit d = false) :
    nextPiece c (cs ++ after) = (⟨some .integer, c :: cs⟩, after) := by
  obtain ⟨hspace, hslash⟩ := not_isSpace_of_isWordPart (c := c) (by rw [isWordPart, hc, Bool.or_true])
  obtain ⟨htake, hdrop⟩ := takeWhile_of_stop hcs hafter
  have hvalid : startsInvalid (c :: (cs ++ after)) = false := by simp [startsInvalid, isWordPart, hc]
  simp only [nextPiece, hvalid, nextRaw, hspace, startsComment_of_ne hslash, isWordStart_of_isDigit hc, hc, htake, hdrop, if_true,
    Bool.false_eq_true, if_false]

theorem nextPiece_mark (hk : markKind? c = some k) (after : List Char) : nextPiece c after = (⟨some k, [c]⟩, after) := by
  obtain ⟨hspace, hslash, hstart, hdigit⟩ := classes_of_markKind? hk
  have hvalid : startsInvalid (c :: after) = false := by simp [startsInvalid, hk]
  simp only [nextPiece, hvalid, nextRaw, hspace, startsComment_of_ne hslash, hstart, hdigit, hk, Option.getD_some,
    Bool.false_eq_true, if_false]

/-- Invalid characters in which no comment starts go on up to a character that is valid or starts a comment. -/
theorem spanInvalid_of_stop (hcs : ∀ d ∈ cs, IsForeign d) (hnone : NoComment cs after)
    (hafter : ∀ d ∈ after.head?, IsForeign d → startsComment after = true) : spanInvalid (cs ++ after) = (cs, after) := by
  induction cs with
  | nil =>
    cases after with
    | nil => rfl
    | cons d ds =>
      have hstop : ¬startsInvalid (d :: ds) = true := by
        rw [startsInvalid_iff]
        rintro ⟨hforeign, hno⟩
        rw [hafter d rfl hforeign] at hno
        cases hno
      rw [List.nil_append, spanInvalid, if_neg hstop]
  | cons c cs ih =>
    rw [List.forall_mem_cons] at hcs
    have hgo : startsInvalid (c :: (cs ++ after)) = true := startsInvalid_iff.2 ⟨hcs.1, hnone.startsComment⟩
    rw [List.cons_append, spanInvalid, if_pos hgo, ih hcs.2 hnone.tail]

theorem nextPiece_invalid (hc : IsForeign c) (hcs : ∀ d ∈ cs, IsForeign d) (hnone : NoComment (c :: cs) after)
    (hafter : ∀ d ∈ after.head?, IsForeign d → startsComment after = true) :
    nextPiece c (cs ++ after) = (⟨some .invalid, c :: cs⟩, after) := by
  rw [nextPiece, if_pos (startsInvalid_iff.2 ⟨hc, hnone.startsComment⟩), spanInvalid_of_stop hcs hnone.tail hafter]

/-- What is cut as it should be is the first piece of the text. -/
theorem nextPiece_of_cut (h : Cut k (c :: cs) after) : nextPiece c (cs ++ after) = (⟨some k, c :: cs⟩, after) := by
  have hkind := kindOf_of_spells h.spells
  have hword : IsWord (c :: cs) → (k.isKeyword = true ∨ k = .identifier) →
      nextPiece c (cs ++ after) = (⟨some k, c :: cs⟩, after) := by
    rintro ⟨_, _, heq, hc, hcs⟩ hk
    obtain ⟨rfl, rfl⟩ := List.cons.inj heq
    rw [kindOf, if_pos hc] at hkind
    rw [nextPiece_word hc hcs (h.word hk), hkind]
  cases k with
  | identifier => exact hword h.spells.1 (.inr rfl)
  | integer =>
    obtain ⟨-, hdigits⟩ := h.spells
    rw [List.forall_mem_cons] at hdigits
    exact nextPiece_number hdigits.1 hdigits.2 (h.number rfl)
  | invalid =>
    obtain ⟨-, hforeign, hnone⟩ := h.spells
    rw [List.forall_mem_cons] at hforeign
    exact nextPiece_invalid hforeign.1 hforeign.2 hnone (h.invalid rfl)
  | endOfInput => cases h.spells
  | _ =>
    rcases keyword_or_mark h.spells with ⟨hkey, hw⟩ | ⟨_, heq, hmark⟩
    · exact hword hw (.inl hkey)
    · obtain ⟨rfl, rfl⟩ := List.cons.inj heq
      exact nextPiece_mark hmark after

/-! ## The tokens among the pieces of a text -/

/-- The kinds and texts of the tokens among pieces. -/
def spellings (ps : List Piece) : List (TokenKind × String) :=
  ps.filterMap fun p => p.kind.map fun k => (k, String.ofList p.text)

theorem map_locate (offset : Nat) (position : Position) (ps : List Piece) :
    (locate offset position ps).map (fun t => (t.kind, t.lexeme)) = spellings ps := by
  induction ps generalizing offset position with
  | nil => rfl
  | cons p ps ih =>
    rw [locate, spellings, List.filterMap_cons]
    cases hkind : p.kind with
    | none => exact ih _ _
    | some k => exact congrArg (List.cons _) (ih _ _)

/-- What is cut as it should be is the first piece, and the others are those of what comes after it. -/
theorem pieces_of_cut (hend : k ≠ .endOfInput) (h : Cut k w after) : pieces (w ++ after) = ⟨some k, w⟩ :: pieces after := by
  obtain ⟨c, cs, rfl⟩ := List.exists_cons_of_ne_nil (h.ne_nil hend)
  rw [List.cons_append, pieces, nextPiece_of_cut h]

theorem pieces_space (hc : isSpace c = true) (after : List Char) : pieces (c :: after) = ⟨none, [c]⟩ :: pieces after := by
  have hvalid : ¬startsInvalid (c :: after) = true := by simp [startsInvalid, hc]
  rw [pieces, nextPiece, if_neg hvalid, nextRaw, if_pos hc]

theorem spellings_token (hend : k ≠ .endOfInput) (h : Cut k w after) :
    spellings (pieces (w ++ after)) = (k, String.ofList w) :: spellings (pieces after) := by
  rw [pieces_of_cut hend h]
  rfl

theorem spellings_blank (h : Blank w after) : spellings (pieces (w ++ after)) = spellings (pieces after) := by
  cases h with
  | space hc =>
    rw [List.singleton_append, pieces_space hc]
    rfl
  | @comment body _ hbody hafter =>
    obtain ⟨htake, hdrop⟩ := takeWhile_of_stop (p := (· != '\n')) (w := '/' :: body)
      (fun d hd => by rw [bne_iff_ne]; rintro rfl; simp [hbody] at hd) (by simpa using hafter)
    have hnext : nextPiece '/' ('/' :: (body ++ after)) = (⟨none, '/' :: '/' :: body⟩, after) := by
      rw [List.cons_append] at htake hdrop
      rw [nextPiece, if_neg (by simp [startsInvalid, startsComment]), nextRaw, if_neg (by decide), if_pos (by rfl), htake, hdrop]
    rw [List.cons_append, List.cons_append, pieces, hnext]
    rfl

/-- No token is made of a gap. -/
theorem spellings_gap (h : Gap g after) : spellings (pieces (g ++ after)) = spellings (pieces after) := by
  induction h with
  | nil => rfl
  | cons hblank _ ih => rw [List.append_assoc, spellings_blank hblank, ih]

/-- White space and comments that end with their lines are a gap before any text. -/
theorem Padding.gap (h : Padding g) (after : List Char) : Gap g after := by
  induction h with
  | nil => exact .nil
  | @space c cs hc _ ih => exact @Gap.cons [c] cs after (.space hc) ih
  | @comment body cs hbody _ ih =>
    have hline : Gap ('\n' :: cs) after := @Gap.cons ['\n'] cs after (.space rfl) ih
    exact @Gap.cons ('/' :: '/' :: body) ('\n' :: cs) after (.comment hbody (by simp)) hline

theorem Separator.gap (h : Separator g) (after : List Char) : Gap g after := by
  obtain ⟨c, cs, rfl, hc, hcs⟩ := h
  exact (Padding.space hc hcs).gap after

/-! ## Printed tokens read back -/

/-- Two slashes that are not in a text are not at its end either, where white space or nothing comes after it. -/
theorem NoComment.of_alone (h : NoComment w []) (hafter : ∀ c ∈ after.head?, isSpace c = true) : NoComment w after := by
  intro u v huv
  rcases List.append_eq_append_iff.1 huv with ⟨z, rfl, -⟩ | ⟨z, rfl, hz⟩
  · simp
  · cases z with
    | nil => simp
    | cons c z =>
      obtain ⟨rfl, htail⟩ : '/' = c ∧ '/' :: v = z ++ after := List.cons.inj hz
      cases z with
      | nil =>
        rw [List.nil_append] at htail
        have hslash := hafter '/' (by rw [← htail]; rfl)
        exact absurd hslash (by decide)
      | cons d z =>
        obtain ⟨rfl, -⟩ := List.cons.inj htail
        exact absurd (h u z (List.append_nil _)) (by simp)

/-- White space ends every token. -/
theorem IsLexeme.cut (h : IsLexeme k w) (hafter : ∀ c ∈ after.head?, isSpace c = true) : Cut k w after := by
  have hpart : ∀ c ∈ after.head?, isWordPart c = false := by
    intro c hc
    rw [← Bool.not_eq_true]
    intro hword
    have hspace := (not_isSpace_of_isWordPart hword).1
    rw [hafter c hc] at hspace
    cases hspace
  refine ⟨?_, fun _ => hpart, fun _ c hc => ?_, fun _ c hc hforeign => ?_⟩
  · have hspells := h.2
    cases k with
    | invalid => exact ⟨hspells.1, hspells.2.1, hspells.2.2.of_alone hafter⟩
    | _ => exact hspells
  · exact (Bool.or_eq_false_iff.1 (hpart c hc)).2
  · exact absurd (hafter c hc) (by simp [hforeign.1])

/-- Characters that make one run of invalid characters are the text of an invalid token. -/
theorem isLexeme_of_spanInvalid (hne : w ≠ []) (h : spanInvalid w = (w, [])) : IsLexeme .invalid w := by
  have hspec := spanInvalid_spec w
  rw [h] at hspec
  exact ⟨by decide, hne, hspec.1, hspec.2.1⟩

/-- The tokens among the pieces of a printed text are the entries. -/
theorem spellings_print {es : List Entry} (h : Printable es) :
    spellings (pieces (print es).toList) = es.map fun e => (e.kind, e.lexeme) := by
  induction es with
  | nil => simp [print, pieces, spellings]
  | cons e es ih =>
    obtain ⟨hlexeme, hgap, hrest⟩ := h
    have htext : (print (e :: es)).toList = e.lexeme.toList ++ (e.gap.toList ++ (print es).toList) := by
      simp [print, String.join_cons]
    have hafter : ∀ c ∈ (e.gap.toList ++ (print es).toList).head?, isSpace c = true := by
      rcases hgap with ⟨c, cs, hgap, hc, -⟩ | ⟨hgap, rfl⟩
      · rw [hgap]
        simpa using hc
      · simp [hgap, print]
    have hskip : Gap e.gap.toList (print es).toList := by
      rcases hgap with hgap | ⟨hgap, -⟩
      · exact hgap.gap _
      · rw [hgap]
        exact .nil
    rw [htext, spellings_token hlexeme.1 (hlexeme.cut hafter), spellings_gap hskip, ih hrest, String.ofList_toList]
    rfl

end Lexing

open QuillFrontEnd.Lexing

/-- Lexing undoes printing. Let entries be printable, and white space and comments stand before them. Then lexing the text gives the
kinds and texts of the entries back, with the end of the input after them, and one report of invalid characters for each invalid
entry. -/
theorem lex_undoes_printing (start : String) (es : List Entry) (hstart : Padding start.toList) (hes : Printable es)
    (hsize : (start ++ print es).utf8ByteSize < maxOffset) :
    ∃ out, lex (start ++ print es) = .ok out ∧
      out.tokens.toList.map (fun t => (t.kind, t.lexeme)) = es.map (fun e => (e.kind, e.lexeme)) ++ [(.endOfInput, "")] ∧
      out.diagnostics.map (fun d => (d.code, d.found.map fun t => (t.kind, t.lexeme))) =
        (es.filter fun e => e.kind == .invalid).map fun e => (.invalidCharacter, some (e.kind, e.lexeme)) := by
  obtain ⟨out, hlex, -, hsentinel, hdiagnostics⟩ := exists_tiled_of_lex (Nat.le_of_lt hsize)
  have hbody : out.tokens.body.map (fun t => (t.kind, t.lexeme)) = es.map fun e => (e.kind, e.lexeme) := by
    rw [body_of_lex hlex, map_locate, String.toList_append, spellings_gap (hstart.gap _), spellings_print hes]
  refine ⟨out, hlex, ?_, ?_⟩
  · rw [TokenList.toList, List.map_append, hbody, hsentinel]
    rfl
  · have hinvalid : (out.tokens.body.filter fun t => t.kind == .invalid).map (fun t => (t.kind, t.lexeme)) =
        (es.filter fun e => e.kind == .invalid).map fun e => (e.kind, e.lexeme) := by
      have hfilter := congrArg (List.filter fun p => p.1 == .invalid) hbody
      rwa [List.filter_map, List.filter_map] at hfilter
    have hreports := congrArg (List.map fun p => (Code.invalidCharacter, some p)) hinvalid
    rw [List.map_map, List.map_map] at hreports
    rw [hdiagnostics, List.map_map]
    exact hreports

/-- A keyword, a name that starts like it, a number and invalid characters up to a slash, with comments that hold tokens between
them. -/
theorem lex_undoes_printing_comments :
    let es : List Entry := [⟨.var, "var", " //é main ;\n"⟩, ⟨.identifier, "varx", "\r\n"⟩, ⟨.integer, "007", "\t"⟩,
      ⟨.invalid, "é?/", " //?\n"⟩, ⟨.semicolon, ";", ""⟩]
    Padding "//var\n".toList ∧ Printable es ∧ ("//var\n" ++ print es).utf8ByteSize < maxOffset ∧
      ∃ out, lex ("//var\n" ++ print es) = .ok out ∧
        out.tokens.toList.map (fun t => (t.kind, t.lexeme)) = [(.var, "var"), (.identifier, "varx"), (.integer, "007"),
          (.invalid, "é?/"), (.semicolon, ";"), (.endOfInput, "")] ∧
        out.diagnostics.map (fun d => (d.code, d.found.map fun t => (t.kind, t.lexeme))) =
          [(.invalidCharacter, some (.invalid, "é?/"))] := by
  intro es
  have hstart : Padding "//var\n".toList := @Padding.comment "var".toList [] (by decide) .nil
  have hname : IsLexeme .identifier "varx".toList :=
    ⟨by decide, ⟨'v', _, rfl, rfl, List.all_eq_true.1 (by decide)⟩, fun k _ => by cases k <;> decide⟩
  have hinvalid : IsLexeme .invalid "é?/".toList := isLexeme_of_spanInvalid (by decide) (by decide)
  have hes : Printable es :=
    ⟨⟨by decide, rfl⟩, .inl ⟨' ', _, rfl, rfl, @Padding.comment "é main ;".toList [] (by decide) .nil⟩,
      hname, .inl ⟨'\r', _, rfl, rfl, .space rfl .nil⟩,
      ⟨by decide, by decide, List.all_eq_true.1 (by decide)⟩, .inl ⟨'\t', _, rfl, rfl, .nil⟩,
      hinvalid, .inl ⟨' ', _, rfl, rfl, @Padding.comment ['?'] [] (by decide) .nil⟩,
      ⟨by decide, rfl⟩, .inr ⟨rfl, rfl⟩, trivial⟩
  have hsize : ("//var\n" ++ print es).utf8ByteSize < maxOffset := by decide
  exact ⟨hstart, hes, hsize, lex_undoes_printing _ _ hstart hes hsize⟩

end QuillFrontEnd
