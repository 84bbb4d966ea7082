import QuillFrontEnd.Proofs.Labels
import QuillFrontEnd.Proofs.TextLines
import QuillFrontEnd.Proofs.Tiling
import QuillFrontEnd.Summary

/-!
# What a token dump shows

The dump of the tokens of a source has a headline, and then a line for each token with its position, its kind and its text. The line
is trimmed at its end, where the column of the kind is filled up for a token without text. But the text of an invalid token can end
with white space that is none to the lexer, such as a no-break space, and that is trimmed too. So a dump tells the positions, the
kinds, and the texts up to white space at their ends, and nothing more.
-/

namespace QuillFrontEnd

open QuillFrontEnd.Text QuillFrontEnd.Lexing

/-! ## White space at the end -/

namespace Text

/-- If any text is left of the second part of a line, the first part is left as it is. -/
theorem trimEnd_append (as bs : List Char) : trimEnd (as ++ bs) = if trimEnd bs = [] then trimEnd as else as ++ trimEnd bs := by
  unfold trimEnd
  rw [List.reverse_append, List.dropWhile_append]
  by_cases h : bs.reverse.dropWhile isBlank = []
  · rw [h]
    rfl
  · rw [if_neg (by simpa using h), if_neg (by simpa using h), List.reverse_append, List.reverse_reverse]

theorem trimEnd_eq_nil_iff {cs : List Char} : trimEnd cs = [] ↔ ∀ c ∈ cs, isBlank c = true := List.rdropWhile_eq_nil_iff

/-- A text without white space is left as it is. -/
theorem trimEnd_of_not_isBlank {cs : List Char} (h : ∀ c ∈ cs, isBlank c = false) : trimEnd cs = cs :=
  List.rdropWhile_eq_self_iff.2 fun hne => by rw [h _ (List.getLast_mem hne)]; decide

theorem trimEnd_append_blank (as : List Char) {bs : List Char} (h : ∀ c ∈ bs, isBlank c = true) :
    trimEnd (as ++ bs) = trimEnd as := by
  rw [trimEnd_append, if_pos (trimEnd_eq_nil_iff.2 h)]

theorem mem_of_mem_trimEnd {cs : List Char} {c : Char} (h : c ∈ trimEnd cs) : c ∈ cs := (List.rdropWhile_prefix isBlank cs).subset h

theorem isBlank_of_isWordPart {c : Char} (h : isWordPart c = true) : isBlank c = false := by
  have hrange : 33 ≤ c.toNat ∧ c.toNat ≤ 126 := by
    simp only [isWordPart, isWordStart, isDigit, Bool.or_eq_true, Bool.and_eq_true, decide_eq_true_eq, beq_iff_eq, Char.le_def,
      UInt32.le_iff_toNat_le] at h
    rcases h with ((h | h) | rfl) | h
    · exact ⟨Nat.le_trans (by decide) h.1, Nat.le_trans h.2 (by decide)⟩
    · exact ⟨Nat.le_trans (by decide) h.1, Nat.le_trans h.2 (by decide)⟩
    · decide
    · exact ⟨Nat.le_trans (by decide) h.1, Nat.le_trans h.2 (by decide)⟩
  have houtside : ∀ range ∈ blankRanges, range.2 < 33 ∨ 126 < range.1 := by decide
  rw [isBlank, List.any_eq_false]
  intro range hmem
  have hapart := houtside range hmem
  rw [Bool.and_eq_true, decide_eq_true_eq, decide_eq_true_eq]
  omega

theorem isBlank_of_markKind? {c : Char} {k : TokenKind} (h : markKind? c = some k) : isBlank c = false := by
  have hall : ∀ k ∈ TokenKind.all, k.isKeyword = false → ∀ s ∈ k.spelling?, s.toList.all (fun d => !isBlank d) = true := by decide
  obtain ⟨hkey, hs⟩ := spelling_of_markKind? h
  simpa using hall k (TokenKind.mem_all k) hkey _ hs

/-! ## Columns -/

theorem toList_padRight (width : Nat) (text : String) :
    (padRight width text).toList = text.toList ++ List.replicate (width - text.length) ' ' := by
  rw [padRight, spaces, String.toList_append, String.toList_ofList]

/-- A text without spaces is told from its column, and so is what comes after the column. -/
theorem padRight_append_inj {width : Nat} {s t : String} {as bs : List Char} (hs : ' ' ∉ s.toList) (ht : ' ' ∉ t.toList)
    (h : (padRight width s).toList ++ ' ' :: as = (padRight width t).toList ++ ' ' :: bs) : s = t ∧ as = bs := by
  have hshift : ∀ (n : Nat) (cs : List Char), List.replicate n ' ' ++ ' ' :: cs = ' ' :: (List.replicate n ' ' ++ cs) := by
    intro n cs
    rw [← List.singleton_append, ← List.append_assoc, ← List.replicate_succ', List.replicate_succ, List.cons_append]
  rw [toList_padRight, toList_padRight, List.append_assoc, List.append_assoc, hshift, hshift] at h
  obtain ⟨htext, hrest⟩ := append_cons_inj hs ht h
  obtain rfl := String.toList_inj.1 htext
  exact ⟨rfl, List.append_cancel_left hrest⟩

end Text

/-! ## The line of a token -/

namespace Token

/-- What a dump shows of a token: its position, its kind, and its text without the white space at its end. -/
def visible (t : Token) : Position × TokenKind × List Char := (t.position, t.kind, trimEnd t.lexeme.toList)

/-- A row of a dump: a position and a kind in their columns, and then a text, if there is any. -/
def row : Position × TokenKind × List Char → List Char
  | (position, kind, text) => ' ' :: ' ' :: ((padRight 8 position.text).toList ++ ' ' ::
      if text = [] then kind.name.toList else (padRight 12 kind.name).toList ++ ' ' :: text)

theorem toList_dumpLine (t : Token) : t.dumpLine.toList = row t.visible ++ ['\n'] := by
  have hname : trimEnd t.kind.name.toList = t.kind.name.toList ∧ t.kind.name.toList ≠ [] := by
    cases t.kind <;> exact ⟨rfl, List.cons_ne_nil _ _⟩
  have hgap : ∀ c ∈ List.replicate (12 - t.kind.name.length) ' ' ++ [' '], isBlank c = true := by
    intro c hc
    rw [← List.replicate_succ'] at hc
    rw [List.eq_of_mem_replicate hc]
    decide
  have hline : ("  " ++ padRight 8 t.position.text ++ " " ++ padRight 12 t.kind.name ++ " " ++ t.lexeme).toList =
      (' ' :: ' ' :: ((padRight 8 t.position.text).toList ++ [' ']) ++ t.kind.name.toList) ++
        (List.replicate (12 - t.kind.name.length) ' ' ++ [' ']) ++ t.lexeme.toList := by
    simp only [String.toList_append, toList_padRight, List.append_assoc, List.cons_append]
    rfl
  have hdump : t.dumpLine = String.ofList (trimEnd
      ("  " ++ padRight 8 t.position.text ++ " " ++ padRight 12 t.kind.name ++ " " ++ t.lexeme).toList) ++ "\n" := rfl
  rw [hdump, String.toList_append, String.toList_ofList, hline, trimEnd_append, trimEnd_append_blank _ hgap,
    trimEnd_append _ t.kind.name.toList, hname.1, if_neg hname.2, visible, row, toList_padRight 12]
  split <;> simp only [List.append_assoc, List.cons_append, List.nil_append] <;> rfl

theorem newline_notMem_row (p : Position) (k : TokenKind) {text : List Char} (htext : '\n' ∉ text) : '\n' ∉ row (p, k, text) := by
  have hpad : ∀ (width : Nat) {s : String}, '\n' ∉ s.toList → '\n' ∉ (padRight width s).toList := by
    intro width s hs
    simpa [toList_padRight, List.mem_replicate] using hs
  have hposition := hpad 8 (p.notMem_text (c := '\n') rfl (by decide))
  have hkind := hpad 12 k.notMem_name.2
  rw [row]
  split <;> simp [hposition, hkind, htext, k.notMem_name.2]

/-- No two positions, kinds and texts have the same row. -/
theorem row_inj : ∀ {a b}, row a = row b → a = b := by
  rintro ⟨p, j, text⟩ ⟨q, k, text'⟩ h
  have hspace : ∀ p : Position, ' ' ∉ p.text.toList := fun p => p.notMem_text rfl (by decide)
  obtain ⟨hposition, hrest⟩ := padRight_append_inj (hspace _) (hspace _) (List.cons.inj (List.cons.inj h).2).2
  obtain rfl := Position.text_inj hposition
  -- A kind without a text after it is not filled up, so there is a space after it in neither row or in both.
  have hfill : ∀ (j k : TokenKind) (cs : List Char), j.name.toList ≠ (padRight 12 k.name).toList ++ ' ' :: cs := by
    intro j k cs heq
    exact j.notMem_name.1 (heq ▸ List.mem_append_right _ List.mem_cons_self)
  split at hrest <;> split at hrest
  case isTrue.isTrue htext htext' => rw [TokenKind.name_inj (String.toList_inj.1 hrest), htext, htext']
  case isTrue.isFalse => exact absurd hrest (hfill _ _ _)
  case isFalse.isTrue => exact absurd hrest.symm (hfill _ _ _)
  case isFalse.isFalse =>
    obtain ⟨hname, htext⟩ := padRight_append_inj j.notMem_name.1 k.notMem_name.1 hrest
    rw [TokenKind.name_inj hname, htext]

end Token

/-! ## The dump -/

namespace TokenList

/-- The headline of a dump: the path, and the number of tokens. -/
def headline (path : String) (ts : TokenList) : String := "Tokens for '" ++ path ++ "' (" ++ ts.size.repr ++ " tokens):"

/-- The rows of a dump, one for each token. -/
def rows (ts : TokenList) : List (List Char) := ts.toList.map fun t => Token.row t.visible

theorem toList_headline (path : String) (ts : TokenList) : (ts.headline path).toList =
    "Tokens for '".toList ++ (path.toList ++ ("' (".toList ++ (ts.size.repr.toList ++ " tokens):".toList))) := by
  have hline : ts.headline path = "Tokens for '" ++ path ++ "' (" ++ ts.size.repr ++ " tokens):" := rfl
  simp only [hline, String.toList_append, List.append_assoc]

theorem toList_dump (path : String) (ts : TokenList) :
    (ts.dump path).toList = ((ts.headline path).toList :: ts.rows).flatMap fun line => line ++ ['\n'] := by
  have hrows : (String.join (ts.toList.map Token.dumpLine)).toList = ts.rows.flatMap fun line => line ++ ['\n'] := by
    rw [String.toList_join, List.flatMap_map, rows, List.flatMap_map]
    exact List.flatMap_congr fun t _ => t.toList_dumpLine
  have hdump : ts.dump path =
      "Tokens for '" ++ path ++ "' (" ++ ts.size.repr ++ " tokens):\n" ++ String.join (ts.toList.map Token.dumpLine) := rfl
  have htail : " tokens):\n".toList = " tokens):".toList ++ ['\n'] := by decide
  rw [hdump, String.toList_append, hrows, List.flatMap_cons, toList_headline]
  simp only [String.toList_append, htail, List.append_assoc]

variable {ts us : TokenList} {path path' : String}

theorem newline_notMem_headline (hpath : '\n' ∉ path.toList) : '\n' ∉ (ts.headline path).toList := by
  have hsize : '\n' ∉ ts.size.repr.toList := notMem_repr rfl _
  simp only [toList_headline, List.mem_append, not_or]
  exact ⟨by decide, hpath, by decide, hsize, by decide⟩

theorem headline_inj (hsize : ts.size = us.size) (h : ts.headline path = us.headline path') : path = path' := by
  have hlist := congrArg String.toList h
  rw [toList_headline, toList_headline, hsize] at hlist
  exact String.toList_inj.1 (List.append_cancel_right (List.append_cancel_left hlist))

/-- A dump is one headline and one row for each token, if no path and no token has a line feed. -/
theorem splitLines_dump (hpath : '\n' ∉ path.toList) (hts : ∀ t ∈ ts.toList, '\n' ∉ t.lexeme.toList) :
    splitLines (ts.dump path).toList = (ts.headline path).toList :: (ts.rows ++ [[]]) := by
  rw [toList_dump, splitLines_ended, List.cons_append]
  rw [List.forall_mem_cons, rows, List.forall_mem_map]
  exact ⟨newline_notMem_headline hpath,
    fun t ht => Token.newline_notMem_row _ _ fun hmem => hts t ht (mem_of_mem_trimEnd hmem)⟩

theorem rows_eq_iff : ts.rows = us.rows ↔ ts.toList.map Token.visible = us.toList.map Token.visible := by
  rw [rows, rows, ← Function.comp_def Token.row, ← List.map_map, ← List.map_map]
  exact List.map_inj_right fun _ _ => Token.row_inj

/-- Two dumps are alike exactly if the paths are, and what is shown of the tokens. -/
theorem dump_eq_iff (hpath : '\n' ∉ path.toList) (hpath' : '\n' ∉ path'.toList) (hts : ∀ t ∈ ts.toList, '\n' ∉ t.lexeme.toList)
    (hus : ∀ t ∈ us.toList, '\n' ∉ t.lexeme.toList) :
    ts.dump path = us.dump path' ↔ path = path' ∧ ts.toList.map Token.visible = us.toList.map Token.visible := by
  have hsize (h : ts.rows = us.rows) : ts.size = us.size := by simpa only [rows, size, List.length_map] using congrArg List.length h
  rw [← rows_eq_iff]
  constructor
  · intro h
    have hlines := splitLines_dump hpath hts
    rw [h, splitLines_dump hpath' hus] at hlines
    obtain ⟨hhead, htail⟩ := List.cons.inj hlines
    have hrows := List.append_cancel_right htail
    exact ⟨headline_inj (hsize hrows.symm) (String.toList_inj.1 hhead.symm), hrows.symm⟩
  · rintro ⟨rfl, hrows⟩
    rw [← String.toList_inj, toList_dump, toList_dump, hrows, toList_headline, toList_headline, hsize hrows]

end TokenList

/-- A dump shows every token, up to white space at the end of its text. The dump of a source has a headline and a row for each token,
the sentinel included, with its position, its kind and its text without the white space at its end, which no text has but that of an
invalid token. Two dumps are alike exactly if the paths are, and the positions, the kinds and the texts without that white space. -/
theorem dump_shows_tokens (path source : String) (hpath : '\n' ∉ path.toList) (hsize : source.utf8ByteSize < maxOffset) :
    ∃ out, lex source = .ok out ∧
      splitLines (out.tokens.dump path).toList =
        (out.tokens.headline path).toList ::
          ((out.tokens.toList.map fun t => Token.row (t.position, t.kind, trimEnd t.lexeme.toList)) ++ [[]]) ∧
      (∀ t ∈ out.tokens.toList, t.kind ≠ .invalid → trimEnd t.lexeme.toList = t.lexeme.toList) ∧
      ∀ path' source' out', '\n' ∉ path'.toList → source'.utf8ByteSize < maxOffset → lex source' = .ok out' →
        (out.tokens.dump path = out'.tokens.dump path' ↔
          path = path' ∧ out.tokens.toList.map Token.visible = out'.tokens.toList.map Token.visible) := by
  obtain ⟨out, hlex, -⟩ := exists_tiled_of_lex (Nat.le_of_lt hsize)
  have hlines := newline_notMem_lexeme (Nat.le_of_lt hsize) hlex
  refine ⟨out, hlex, TokenList.splitLines_dump hpath hlines, fun t ht hkind => trimEnd_of_not_isBlank ?_, ?_⟩
  · obtain ⟨after, hspells⟩ := exists_spells_of_lex (Nat.le_of_lt hsize) hlex t ht
    exact Spells.forall_mem (fun _ => isBlank_of_isWordPart) (fun _ _ => isBlank_of_markKind?) (fun heq => absurd heq hkind) hspells
  · intro path' source' out' hpath' hsize' hlex'
    exact TokenList.dump_eq_iff hpath hpath' hlines (newline_notMem_lexeme (Nat.le_of_lt hsize') hlex')

/-- An ideographic space is the text of an invalid token. The line of that token ends after its kind. -/
theorem dump_shows_tokens_blank :
    '\n' ∉ "t.q".toList ∧ "\u3000".utf8ByteSize < maxOffset ∧ ∃ out, lex "\u3000" = .ok out ∧
      splitLines (out.tokens.dump "t.q").toList =
        ["Tokens for 't.q' (2 tokens):".toList, "  1:1      Error".toList, "  1:2      Eof".toList, []] := by
  have hpath : '\n' ∉ "t.q".toList := by decide
  have hsize : "\u3000".utf8ByteSize < maxOffset := by decide
  obtain ⟨out, hlex, hlines, -⟩ := dump_shows_tokens "t.q" "\u3000" hpath hsize
  refine ⟨hpath, hsize, out, hlex, hlines.trans ?_⟩
  have hshown : (lex "\u3000").map (fun out => (out.tokens.size, out.tokens.toList.map Token.visible)) =
      .ok (2, [(⟨1, 1⟩, .invalid, []), (⟨1, 2⟩, .endOfInput, [])]) := by decide +kernel
  rw [hlex] at hshown
  obtain ⟨hcount, htokens⟩ := Prod.mk.inj (Except.ok.inj hshown)
  have hrows := congrArg (List.map Token.row) htokens
  rw [List.map_map] at hrows
  rw [TokenList.toList_headline, hcount]
  exact congrArg (_ :: · ++ [[]]) hrows

/-- The line of an invalid token does not show its whole text: an ideographic space and a no-break space are two texts with the same
dump. -/
theorem dump_hides_blanks : ∃ out out', lex "\u3000" = .ok out ∧ lex "\u00a0" = .ok out' ∧
    out.tokens.toList.map Token.lexeme = ["\u3000", ""] ∧ out'.tokens.toList.map Token.lexeme = ["\u00a0", ""] ∧
    out.tokens.dump "t.q" = "Tokens for 't.q' (2 tokens):\n  1:1      Error\n  1:2      Eof\n" ∧
    out'.tokens.dump "t.q" = out.tokens.dump "t.q" := by
  have hdumps : ∀ source ∈ ["\u3000", "\u00a0"],
      (lex source).map (fun out => (out.tokens.toList.map Token.lexeme, out.tokens.dump "t.q")) =
        .ok ([source, ""], "Tokens for 't.q' (2 tokens):\n  1:1      Error\n  1:2      Eof\n") := by decide +kernel
  have hout : ∀ source ∈ ["\u3000", "\u00a0"], ∃ out, lex source = .ok out ∧
      out.tokens.toList.map Token.lexeme = [source, ""] ∧
      out.tokens.dump "t.q" = "Tokens for 't.q' (2 tokens):\n  1:1      Error\n  1:2      Eof\n" := by
    intro source hsource
    have hdump := hdumps source hsource
    cases hlex : lex source with
    | error e => rw [hlex] at hdump; cases hdump
    | ok out =>
      rw [hlex] at hdump
      exact ⟨out, rfl, Prod.mk.inj (Except.ok.inj hdump)⟩
  obtain ⟨out, hlex, htexts, hdump⟩ := hout "\u3000" (by decide)
  obtain ⟨out', hlex', htexts', hdump'⟩ := hout "\u00a0" (by decide)
  exact ⟨out, out', hlex, hlex', htexts, htexts', hdump, hdump'.trans hdump.symm⟩

end QuillFrontEnd
