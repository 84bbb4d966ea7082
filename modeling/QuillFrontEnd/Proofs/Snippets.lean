import QuillFrontEnd.Proofs.MergedDiagnostics
import QuillFrontEnd.Proofs.TextLines
import QuillFrontEnd.Proofs.TokenPositions
import QuillFrontEnd.Report

/-!
# Carets under the text that is blamed

A report shows the line of the source that a diagnostic is about, and carets below it. Lexing counts lines by line feeds and columns
by characters, spans are ranges of bytes, and a line is shown without a carriage return before its line feed. These three agree: the
carets stand under the part of the line that the span of the diagnostic is, with one caret where the span is empty. No line is shown
only at the end of a source that is empty or ends with a line feed.
-/

namespace QuillFrontEnd

open QuillFrontEnd.Text QuillFrontEnd.Lexing

/-! ## The line of a token -/

/-- A token of a text stands between two parts of it, at the position counted from the first. Only the sentinel is empty, and it
stands at the end. -/
theorem exists_parts_of_lex {source : String} {out : LexOutput} (hsize : source.utf8ByteSize < maxOffset)
    (hlex : lex source = .ok out) {t : Token} (ht : t ∈ out.tokens.toList) :
    ∃ before after, source.toList = before ++ (t.lexeme.toList ++ after) ∧ t.position = .endOf before ∧
      t.span = ⟨byteLength before, byteLength before + byteLength t.lexeme.toList⟩ ∧
      (t = out.tokens.sentinel ∧ t.lexeme = "" ∧ after = [] ∨ t.lexeme.toList ≠ [] ∧ ∀ c ∈ t.lexeme.toList, isSpace c = false) := by
  obtain ⟨out', hlex', htiled, hsentinel, -⟩ := exists_tiled_of_lex (Nat.le_of_lt hsize)
  obtain rfl : out = out' := Except.ok.inj (hlex.symm.trans hlex')
  have hlength := length_le_byteLength source.toList
  rw [byteLength_toList] at hlength
  rcases List.mem_append.1 ht with hbody | hlast
  · obtain ⟨before, more, htext, hstart, hposition⟩ := exists_before_of_lex (Nat.le_of_lt hsize) hlex ht
    obtain ⟨front, after, hcut, hspan, hkind, hcuts⟩ := htiled.cut_of_mem hbody [] rfl
    rw [List.nil_append] at hcut
    -- Both ways to cut the text before the token leave as many bytes there.
    have hfront : before = front := by
      have hbytes : byteLength front = byteLength before := by rw [← hstart, hspan]
      have htake := takeBytes?_append front (t.lexeme.toList ++ after)
      rw [← hcut, htext, hbytes, takeBytes?_append] at htake
      exact Option.some.inj htake
    subst hfront
    refine ⟨before, after, hcut, ?_, hspan, .inr ⟨hcuts.ne_nil hkind, hcuts.spells.not_isSpace⟩⟩
    rw [hposition, Position.after_eq_endOf]
    rw [htext, List.length_append] at hlength
    omega
  · obtain rfl := List.mem_singleton.1 hlast
    refine ⟨source.toList, [], ?_, ?_, ?_, .inl ⟨rfl, ?_, rfl⟩⟩
    · simp [hsentinel]
    · rw [hsentinel, Position.after_eq_endOf (by omega)]
    · rw [hsentinel]
      rfl
    · rw [hsentinel]

/-! ## The line of a diagnostic -/

/-- The span of a diagnostic at a token is a part of the text that the token starts with: all of it, or nothing. -/
theorem Diagnostic.StandsAt.exists_blamed {d : Diagnostic} {t : Token} (hd : d.StandsAt t) {before : List Char}
    (hspan : t.span = ⟨byteLength before, byteLength before + byteLength t.lexeme.toList⟩) (after : List Char) :
    ∃ blamed rest, t.lexeme.toList = blamed ++ rest ∧
      slice? (before ++ (t.lexeme.toList ++ after)) d.span.start d.span.stop = some blamed := by
  have hcases : d.span = t.span ∨ d.span = .point t.span.start := by
    rw [hd.span]
    cases d.code with
    | missingToken | endOfInput => exact .inr rfl
    | _ => exact .inl rfl
  rcases hcases with hall | hnothing
  · exact ⟨_, [], (List.append_nil _).symm, by rw [hall, hspan, slice?_append]⟩
  · refine ⟨[], _, rfl, ?_⟩
    rw [hnothing, hspan]
    exact slice?_append before [] _

/-- The line that is shown for a diagnostic at a token is cut in three: the characters before its column, those of its span, and
others. No line is shown only at the end of a source that is empty or ends with a line feed. -/
theorem exists_excerpt {source : String} {out : LexOutput} (hsize : source.utf8ByteSize < maxOffset)
    (hlex : lex source = .ok out) {t : Token} (ht : t ∈ out.tokens.toList) {d : Diagnostic} (hd : d.StandsAt t) :
    0 < d.position.line ∧
      ((∃ front blamed rest, (lines source.toList)[d.position.line - 1]? = some (front ++ (blamed ++ rest)) ∧
        d.position.column = front.length + 1 ∧ slice? source.toList d.span.start d.span.stop = some blamed ∧ '\n' ∉ blamed) ∨
      t = out.tokens.sentinel ∧ (lines source.toList)[d.position.line - 1]? = none ∧
        (source = "" ∨ source.toList.getLast? = some '\n')) := by
  obtain ⟨before, after, htext, hposition, hspan, hends⟩ := exists_parts_of_lex hsize hlex ht
  obtain ⟨blamed, more, hlexeme, hslice⟩ := hd.exists_blamed hspan after
  rw [← htext] at hslice
  have hline : d.position.line - 1 = before.count '\n' := by
    rw [hd.position, hposition]
    exact Nat.add_sub_cancel_left 1 _
  have hcolumn : d.position.column = (before.rtakeWhile (· != '\n')).length + 1 := by
    rw [hd.position, hposition]
    exact Nat.add_comm _ _
  refine ⟨by rw [hd.position, hposition]; exact Nat.lt_add_right _ Nat.one_pos, ?_⟩
  rw [hline]
  rcases hends with ⟨ht, hempty, rfl⟩ | ⟨hne, hspaces⟩
  · rw [hempty, String.toList_empty] at htext hlexeme
    obtain ⟨rfl, -⟩ := List.append_eq_nil_iff.1 hlexeme.symm
    -- Nothing is blamed at the end of the input. The line shown there, if there is one, is what comes after the last line feed.
    obtain rfl : source.toList = before := htext.trans (List.append_nil _)
    by_cases hfront : source.toList.rtakeWhile (· != '\n') = []
    · refine .inr ⟨ht, by rw [getElem?_lines_count, if_pos hfront], ?_⟩
      rw [List.rtakeWhile_eq_nil_iff] at hfront
      by_cases hnil : source.toList = []
      · exact .inl (String.toList_eq_nil_iff.1 hnil)
      · rw [List.getLast?_eq_some_getLast hnil, Option.some.injEq]
        exact .inr (by simpa using hfront hnil)
    · refine .inl ⟨_, [], [], ?_, hcolumn, hslice, List.not_mem_nil⟩
      rw [getElem?_lines_count, if_neg hfront, List.append_nil, List.append_nil]
  · have hbreak : '\n' ∉ t.lexeme.toList := fun hmem => absurd (hspaces _ hmem) (by decide)
    have hreturn : '\r' ∉ t.lexeme.toList := fun hmem => absurd (hspaces _ hmem) (by decide)
    obtain ⟨rest, hshown⟩ := exists_getElem?_lines before hne hbreak hreturn after
    refine .inl ⟨_, blamed, more ++ rest, ?_, hcolumn, hslice, fun hmem => hbreak ?_⟩
    · rw [htext, hshown, hlexeme, List.append_assoc]
    · rw [hlexeme]
      exact List.mem_append_left more hmem

/-! ## The text of a report -/

namespace Report

variable {file : SourceFile} {d : Diagnostic}

/-- The blanks to the left of the lines without a number, as wide as the number of the line that a report is about. -/
def pad (d : Diagnostic) : String := spaces d.position.line.repr.length

/-- The headline of a report and the line with the place. -/
def heading (file : SourceFile) (d : Diagnostic) : String :=
  d.severity.text ++ "[" ++ d.code.text ++ "]: " ++ d.message ++ "\n" ++
    pad d ++ "--> " ++ file.path ++ ":" ++ d.position.text ++ "\n"

/-- A line of the source with its number, and below it blanks, carets and the label. -/
def picture (d : Diagnostic) (line blanks carets : List Char) : String :=
  pad d ++ " |\n" ++
    d.position.line.repr ++ " | " ++ String.ofList line ++ "\n" ++
    pad d ++ " | " ++ String.ofList blanks ++ String.ofList carets ++
    (match d.label with
      | some label => " " ++ label
      | none => "") ++ "\n"

/-- The label on a line of its own, if there is one. -/
def labelLine (d : Diagnostic) : String :=
  match d.label with
  | some label => pad d ++ " = " ++ label ++ "\n"
  | none => ""

/-- The notes, and an empty line. -/
def closing (d : Diagnostic) : String := String.join (d.notes.map fun note => pad d ++ " = note: " ++ note ++ "\n") ++ "\n"

theorem paint_append (colors : Bool) (cs ds : List Chunk) : paint colors (cs ++ ds) = paint colors cs ++ paint colors ds := by
  rw [paint, paint, paint, List.map_append, String.join_append]

theorem paint_noteLine (d : Diagnostic) (note : String) :
    paint false (noteLine d.position.line.repr.length note) = pad d ++ " = note: " ++ note ++ "\n" := by
  have hnote : " = note: " = " =" ++ (" " ++ ("note" ++ ": ")) := rfl
  simp only [paint, noteLine, margin, plain, pad, Chunk.paint, hnote, List.map_cons, List.map_nil, String.join_cons, String.join_nil,
    String.append_assoc, String.append_empty]

theorem paint_notes (d : Diagnostic) : paint false (d.notes.flatMap (noteLine d.position.line.repr.length) ++ [plain "\n"]) =
    closing d := by
  rw [closing]
  induction d.notes with
  | nil => rfl
  | cons note notes ih =>
    rw [List.flatMap_cons, List.append_assoc, paint_append, ih, paint_noteLine, List.map_cons, String.join_cons, ← String.append_assoc]

/-- A report without colours: the headline and the place, the excerpt, and the notes. -/
theorem paint_ofDiagnostic (file : SourceFile) (d : Diagnostic) : paint false (ofDiagnostic (some file) d) =
    heading file d ++ paint false (excerpt (some file) d d.position.line.repr.length) ++ closing d := by
  have hmark : "]: " = "]" ++ ": " := rfl
  have harrow : "--> " = "-->" ++ " " := rfl
  rw [← paint_notes, String.append_assoc, ← paint_append, ofDiagnostic, List.append_assoc, List.append_assoc, paint_append]
  simp only [heading, pad, paint, margin, plain, place, Chunk.paint, hmark, harrow, List.map_cons, List.map_nil, String.join_cons,
    String.join_nil, String.append_assoc, String.append_empty]

/-- The excerpt where the source has the line. -/
theorem paint_snippet (source : String) (d : Diagnostic) (line : List Char) :
    paint false (snippet source d d.position.line.repr.length line) =
      picture d line (indent line d.position.column) (List.replicate (max 1 (spanWidth source d.span)) '^') := by
  have hmargin : " |\n" = " |" ++ "\n" := rfl
  have hgutter : " | " = " |" ++ " " := rfl
  cases hlabel : d.label <;>
    simp only [picture, snippet, carets, pad, paint, margin, plain, Chunk.paint, hlabel, hmargin, hgutter, List.map_append,
      String.join_append, List.map_cons, List.map_nil, String.join_cons, String.join_nil, String.append_assoc, String.append_empty]

theorem paint_bareLabel (d : Diagnostic) : paint false (bareLabel d d.position.line.repr.length) = labelLine d := by
  have hmark : " = " = " =" ++ " " := rfl
  cases hlabel : d.label with
  | none => simp only [labelLine, bareLabel, paint, hlabel, List.map_nil, String.join_nil]
  | some label =>
    simp only [labelLine, bareLabel, pad, paint, margin, plain, Chunk.paint, hlabel, hmark, List.map_cons, List.map_nil,
      String.join_cons, String.join_nil, String.append_assoc, String.append_empty]

theorem sourceLine?_of_pos (source : String) {number : Nat} (h : 0 < number) :
    sourceLine? source number = (lines source.toList)[number - 1]? := by
  obtain ⟨n, rfl⟩ := Nat.exists_eq_succ_of_ne_zero (Nat.ne_of_gt h)
  rfl

/-- A report shows a line of the source, and carets under the text that the diagnostic blames: the line has the number of the
diagnostic; under all of it that is before the column of the diagnostic there are blanks, tabs under tabs; and then there are as many
carets as the blamed text has characters, which are those above the carets, or one if it has none. -/
structure Points (file : SourceFile) (d : Diagnostic) (line blanks blamed : List Char) : Prop where
  number_pos : 0 < d.position.line
  line_eq : (lines file.text.toList)[d.position.line - 1]? = some line
  blamed_eq : slice? file.text.toList d.span.start d.span.stop = some blamed
  blanks_eq : blanks = (line.take (d.position.column - 1)).map fun c => if c = '\t' then '\t' else ' '
  blanks_length : blanks.length = d.position.column - 1
  under_blanks : (line.drop (d.position.column - 1)).take blamed.length = blamed
  text_eq : paint false (ofDiagnostic (some file) d) =
    heading file d ++ picture d line blanks (List.replicate (max 1 blamed.length) '^') ++ closing d

/-- A report shows no line of the source, but the label of the diagnostic on a line of its own. -/
def ShowsNoLine (file : SourceFile) (d : Diagnostic) : Prop :=
  paint false (ofDiagnostic (some file) d) = heading file d ++ labelLine d ++ closing d

/-- A line that is cut before the column of a diagnostic and after the text that it blames is shown with carets under that text. -/
theorem points_of_line {file : SourceFile} {d : Diagnostic} (hnumber : 0 < d.position.line) {front blamed rest : List Char}
    (hline : (lines file.text.toList)[d.position.line - 1]? = some (front ++ (blamed ++ rest)))
    (hcolumn : d.position.column = front.length + 1)
    (hblamed : slice? file.text.toList d.span.start d.span.stop = some blamed) (hbreak : '\n' ∉ blamed) :
    Points file d (front ++ (blamed ++ rest)) (indent (front ++ (blamed ++ rest)) d.position.column) blamed where
  number_pos := hnumber
  line_eq := hline
  blamed_eq := hblamed
  blanks_eq := rfl
  blanks_length := by rw [indent, hcolumn, Nat.add_sub_cancel, List.take_left, List.length_map]
  under_blanks := by rw [hcolumn, Nat.add_sub_cancel, List.drop_left, List.take_left]
  text_eq := by
    have hwidth : spanWidth file.text d.span = blamed.length := by
      have htake : blamed.takeWhile (· != '\n') = blamed := List.takeWhile_eq_self_iff.2 (ne_of_notMem hbreak)
      simp only [spanWidth, hblamed, htake]
    simp only [paint_ofDiagnostic, excerpt, sourceLine?_of_pos _ hnumber, hline, paint_snippet, hwidth]

theorem showsNoLine_of_none {file : SourceFile} {d : Diagnostic} (hnumber : 0 < d.position.line)
    (hline : (lines file.text.toList)[d.position.line - 1]? = none) : ShowsNoLine file d := by
  simp only [ShowsNoLine, paint_ofDiagnostic, excerpt, sourceLine?_of_pos _ hnumber, hline, paint_bareLabel]

end Report

open QuillFrontEnd.Report

/-- Carets point at the text that is blamed. The report of a diagnostic of an analysis, without colours and with the source at hand,
shows the line of the diagnostic with carets under the text of its span. It shows no line only if the diagnostic stands at the end
of the input and the source is empty or ends with a line feed. -/
theorem carets_under_blamed_text (path source : String) (hsize : source.utf8ByteSize < maxOffset) :
    ∃ analysis, analyze source = .ok analysis ∧ ∀ d ∈ analysis.diagnostics,
      (∃ line blanks blamed, Points ⟨path, source⟩ d line blanks blamed) ∨
      (ShowsNoLine ⟨path, source⟩ d ∧ d.span = .point source.utf8ByteSize ∧ d.position = analysis.tokens.sentinel.position ∧
        (source = "" ∨ source.toList.getLast? = some '\n')) := by
  obtain ⟨lexed, hlex, -, hsentinel, -⟩ := exists_tiled_of_lex (Nat.le_of_lt hsize)
  refine ⟨_, by rw [analyze, hlex], fun d hd => ?_⟩
  obtain ⟨-, i, t, ht, hstands⟩ := standsIn_queue (Nat.le_of_lt hsize) hlex d (Queue.mem_sorted.1 hd)
  obtain ⟨hnumber, ⟨front, blamed, rest, hline, hcolumn, hblamed, hbreak⟩ | ⟨rfl, hline, hend⟩⟩ :=
    exists_excerpt hsize hlex (List.mem_of_getElem? ht) hstands
  · exact .inl ⟨_, _, _, points_of_line hnumber hline hcolumn hblamed hbreak⟩
  · refine .inr ⟨showsNoLine_of_none hnumber hline, ?_, hstands.position, hend⟩
    rw [hstands.span, hsentinel, byteLength_toList]
    cases d.code <;> rfl

/-- A tab, characters of several bytes and a carriage return at the end of the line: the carets stand under the two characters that
are blamed. The report at the end of the input, after the line feed, shows no line. -/
theorem carets_under_blamed_text_tab :
    "\té?\r\n".utf8ByteSize < maxOffset ∧ ∃ analysis, analyze "\té?\r\n" = .ok analysis ∧
      ∃ d ∈ analysis.diagnostics, ∃ e ∈ analysis.diagnostics,
        (∃ line blanks, Points ⟨"p.quill", "\té?\r\n"⟩ d line blanks "é?".toList) ∧ ShowsNoLine ⟨"p.quill", "\té?\r\n"⟩ e := by
  have hsize : "\té?\r\n".utf8ByteSize < maxOffset := by decide
  obtain ⟨analysis, hanalysis, hreports⟩ := carets_under_blamed_text "p.quill" "\té?\r\n" hsize
  obtain ⟨lexed, hlex, -⟩ := exists_tiled_of_lex (Nat.le_of_lt hsize)
  have hqueue : (lex "\té?\r\n").map (fun lexed => (Analysis.queue lexed (parse lexed.tokens)).kept.map
      fun d => (d.position, d.span)) = .ok [(⟨1, 2⟩, ⟨1, 4⟩), (⟨2, 1⟩, ⟨6, 6⟩)] := by decide +kernel
  rw [hlex] at hqueue
  obtain ⟨d, e, hkept, ⟨-, hspan⟩, hposition, -⟩ : ∃ d e, (Analysis.queue lexed (parse lexed.tokens)).kept = [d, e] ∧
      (d.position = ⟨1, 2⟩ ∧ d.span = ⟨1, 4⟩) ∧ e.position = ⟨2, 1⟩ ∧ e.span = ⟨6, 6⟩ := by
    simpa [List.map_eq_cons_iff] using Except.ok.inj hqueue
  have hmem : ∀ f ∈ [d, e], f ∈ analysis.diagnostics := by
    intro f hf
    rw [analyze, hlex] at hanalysis
    rw [← Except.ok.inj hanalysis]
    exact Queue.mem_sorted.2 (hkept ▸ hf)
  have hd := hmem d (by simp)
  have he := hmem e (by simp)
  refine ⟨hsize, analysis, hanalysis, d, hd, e, he, ?_, ?_⟩
  · obtain ⟨line, blanks, blamed, hpoints⟩ | ⟨-, hend, -⟩ := hreports d hd
    · have hslice : slice? "\té?\r\n".toList 1 4 = some "é?".toList := by decide
      have hblamed := hpoints.blamed_eq
      rw [hspan, hslice] at hblamed
      obtain rfl := Option.some.inj hblamed
      exact ⟨line, blanks, hpoints⟩
    · rw [hspan] at hend
      exact absurd hend (by decide)
  · obtain ⟨line, blanks, blamed, hpoints⟩ | ⟨hnone, -⟩ := hreports e he
    · have hlines : (lines "\té?\r\n".toList)[1]? = none := by decide
      have hline := hpoints.line_eq
      rw [hposition] at hline
      cases hlines.symm.trans hline
    · exact hnone

end QuillFrontEnd
