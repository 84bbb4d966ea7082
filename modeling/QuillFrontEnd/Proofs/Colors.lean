import QuillFrontEnd.Proofs.Labels
import QuillFrontEnd.Proofs.TextLines
import QuillFrontEnd.Report

/-!
# Colours add only escape sequences

An emitter is asked for the reports of diagnostics and for the closing lines, and writes them with or without colours. The two texts
differ by escape sequences only: deleting them from the one gives the other. This needs a source and diagnostics that have no escape
character in their texts, as a sequence that stands there would be deleted too.
-/

namespace QuillFrontEnd.Report

open QuillFrontEnd.Text

/-! ## Deleting escape sequences -/

/-- A character between the bracket and the letter of an escape sequence. -/
def isParameter (c : Char) : Bool := c.isDigit || c == ';'

/-- What comes after the escape sequence at the start of a text, if there is one. -/
def afterSequence? : List Char → Option (List Char)
  | '\x1b' :: '[' :: cs =>
    match cs.dropWhile isParameter with
    | 'm' :: rest => some rest
    | _ => none
  | _ => none

theorem length_lt_of_afterSequence? {text rest : List Char} (h : afterSequence? text = some rest) : rest.length < text.length := by
  unfold afterSequence? at h
  split at h
  · rename_i cs
    have hlength := (List.dropWhile_sublist isParameter (l := cs)).length_le
    split at h
    · rename_i more hdrop
      obtain rfl := Option.some.inj h
      rw [hdrop] at hlength
      simp only [List.length_cons] at hlength ⊢
      omega
    · cases h
  · cases h

/-- A text without the escape sequences in it. -/
def withoutSequences : List Char → List Char
  | [] => []
  | c :: cs =>
    match _ : afterSequence? (c :: cs) with
    | some rest => withoutSequences rest
    | none => c :: withoutSequences cs
termination_by text => text.length
decreasing_by
  · exact length_lt_of_afterSequence? ‹_›
  · exact Nat.lt_succ_self _

theorem withoutSequences_of_some {text rest : List Char} (h : afterSequence? text = some rest) :
    withoutSequences text = withoutSequences rest := by
  cases text with
  | nil => cases h
  | cons c cs =>
    rw [withoutSequences]
    split
    · rename_i more hmore
      rw [Option.some.inj (hmore.symm.trans h)]
    · rename_i hnone
      cases hnone.symm.trans h

theorem withoutSequences_of_none {c : Char} {cs : List Char} (h : afterSequence? (c :: cs) = none) :
    withoutSequences (c :: cs) = c :: withoutSequences cs := by
  rw [withoutSequences]
  split
  · rename_i hsome
    cases h.symm.trans hsome
  · rfl

/-- Sequences with and without parameters are deleted. One that has no letter at its end is none. -/
example : withoutSequences "\x1b[1;31merror\x1b[0m \x1b[;x\x1b[m".toList = "error \x1b[;x".toList := by decide +kernel

/-- A text is another one with escape sequences added to it, whatever comes after the two. -/
def AddsSequences (colored bare : String) : Prop :=
  ∀ rest, withoutSequences (colored.toList ++ rest) = bare.toList ++ withoutSequences rest

namespace AddsSequences

variable {colored bare : String}

theorem eq (h : AddsSequences colored bare) : withoutSequences colored.toList = bare.toList := by
  have hend := h []
  rwa [withoutSequences, List.append_nil, List.append_nil] at hend

theorem append {colored' bare' : String} (h : AddsSequences colored bare) (h' : AddsSequences colored' bare') :
    AddsSequences (colored ++ colored') (bare ++ bare') := fun rest => by
  rw [String.toList_append, String.toList_append, List.append_assoc, List.append_assoc, h, h']

/-- Nothing is deleted from a text without escape characters. -/
theorem of_notMem {text : String} (h : '\x1b' ∉ text.toList) : AddsSequences text text := fun rest => by
  generalize text.toList = cs at h
  induction cs with
  | nil => rfl
  | cons c cs ih =>
    obtain ⟨hc, hcs⟩ := not_or.1 (mt List.mem_cons.2 h)
    have hnone : afterSequence? (c :: (cs ++ rest)) = none := by
      unfold afterSequence?
      split
      · rename_i heq
        exact absurd (List.cons.inj heq).1.symm hc
      · rfl
    rw [List.cons_append, withoutSequences_of_none hnone, ih hcs, List.cons_append]

/-- An escape sequence is deleted as a whole. -/
theorem sequence {parameters : String} (h : parameters.toList.all isParameter = true) :
    AddsSequences (escapeSequence parameters) "" := fun rest => by
  have hlist : (escapeSequence parameters).toList ++ rest = '\x1b' :: '[' :: (parameters.toList ++ 'm' :: rest) := by
    simp only [escapeSequence, String.toList_append, List.append_assoc]
    rfl
  refine hlist ▸ withoutSequences_of_some ?_
  rw [afterSequence?, List.dropWhile_append_of_pos (List.all_eq_true.1 h)]
  rfl

end AddsSequences

/-! ## Chunks -/

/-- A text has no escape character. -/
def EscapeFree (text : String) : Prop := '\x1b' ∉ text.toList

instance (text : String) : Decidable (EscapeFree text) := inferInstanceAs (Decidable ('\x1b' ∉ text.toList))

@[simp] theorem escapeFree_append {s t : String} : EscapeFree (s ++ t) ↔ EscapeFree s ∧ EscapeFree t := by
  rw [EscapeFree, String.toList_append, List.mem_append, not_or]
  rfl

@[simp] theorem escapeFree_repr (n : Nat) : EscapeFree n.repr := notMem_repr rfl n

theorem escapeFree_ofList {cs : List Char} (h : '\x1b' ∉ cs) : EscapeFree (String.ofList cs) := by
  rwa [EscapeFree, String.toList_ofList]

theorem escapeFree_replicate {c : Char} (hc : c ≠ '\x1b') (n : Nat) : EscapeFree (String.ofList (List.replicate n c)) :=
  escapeFree_ofList fun hmem => hc (List.eq_of_mem_replicate hmem).symm

theorem paint_cons (colors : Bool) (c : Chunk) (cs : List Chunk) : paint colors (c :: cs) = c.paint colors ++ paint colors cs := by
  rw [paint, paint, List.map_cons, String.join_cons]

theorem Chunk.paint_false (c : Chunk) : c.paint false = c.text := rfl

theorem Chunk.paint_true {c : Chunk} {parameters : String} (h : c.style.parameters? = some parameters) :
    c.paint true = escapeSequence parameters ++ c.text ++ escapeSequence "0" := by
  simp only [paint, h]

theorem Chunk.addsSequences_paint {c : Chunk} (h : EscapeFree c.text) : AddsSequences (c.paint true) (c.paint false) := by
  have hparameters {style : Style} {parameters : String} (h : style.parameters? = some parameters) :
      parameters.toList.all isParameter = true := by
    cases style <;> cases h <;> decide
  cases hstyle : c.style.parameters? with
  | none =>
    simp only [paint, hstyle]
    exact .of_notMem h
  | some parameters =>
    have hreset : AddsSequences (escapeSequence "0") "" := .sequence (by decide)
    have hpainted := ((AddsSequences.sequence (hparameters hstyle)).append (.of_notMem h)).append hreset
    rwa [String.empty_append, String.append_empty, ← paint_true hstyle] at hpainted

/-- Painting chunks in colours adds escape sequences to their texts. -/
theorem addsSequences_paint {chunks : List Chunk} (h : ∀ c ∈ chunks, EscapeFree c.text) :
    AddsSequences (paint true chunks) (paint false chunks) := by
  induction chunks with
  | nil => exact .of_notMem List.not_mem_nil
  | cons c cs ih =>
    obtain ⟨hc, hcs⟩ := List.forall_mem_cons.1 h
    rw [paint_cons, paint_cons]
    exact (Chunk.addsSequences_paint hc).append (ih hcs)

theorem escapeFree_paint {chunks : List Chunk} (h : ∀ c ∈ chunks, EscapeFree c.text) : EscapeFree (paint false chunks) := by
  induction chunks with
  | nil => exact List.not_mem_nil
  | cons c cs ih =>
    obtain ⟨hc, hcs⟩ := List.forall_mem_cons.1 h
    rw [paint_cons]
    exact escapeFree_append.2 ⟨hc, ih hcs⟩

/-- Chunks of which the first has a style and a text are shown, and in colours there is an escape sequence before them. -/
theorem paint_of_styled {c : Chunk} (hstyle : c.style ≠ .plain) (htext : c.text ≠ "") (cs : List Chunk) :
    '\x1b' ∈ (paint true (c :: cs)).toList ∧ paint false (c :: cs) ≠ "" := by
  obtain ⟨parameters, hparameters⟩ : ∃ parameters, c.style.parameters? = some parameters := by
    cases hcase : c.style with
    | plain => exact absurd hcase hstyle
    | _ => exact ⟨_, rfl⟩
  constructor
  · rw [paint_cons, Chunk.paint_true hparameters]
    simp [escapeSequence]
  · rw [paint_cons, Chunk.paint_false]
    exact fun hempty => htext (String.append_eq_empty_iff.1 hempty).1

/-! ## Reports -/

/-- The texts that a diagnostic was given: its sentence, what was expected, the text of the token that was found, and the notes. -/
def textsOf (d : Diagnostic) : List String := d.message :: d.expected.toList ++ d.found.toList.map Token.lexeme ++ d.notes

section EscapeFree

variable {source : Option SourceFile} (hsource : ∀ file ∈ source, EscapeFree file.path ∧ EscapeFree file.text)
variable {d : Diagnostic} (hd : ∀ text ∈ textsOf d, EscapeFree text)

include hd in
theorem escapeFree_label : ∀ label ∈ d.label, EscapeFree label := by
  have hexpected : ∀ expected ∈ d.expected, EscapeFree expected := fun expected h => hd _ (by simp [textsOf, Option.mem_def.1 h])
  have hfound : ∀ found ∈ d.found, EscapeFree found.describe := by
    intro found h
    rw [Token.describe]
    split
    · decide
    · exact escapeFree_append.2 ⟨escapeFree_append.2 ⟨by decide, hd _ (by simp [textsOf, Option.mem_def.1 h])⟩, by decide⟩
  intro label hlabel
  rw [Diagnostic.label] at hlabel
  split at hlabel <;> cases hlabel
  · rename_i expected found he hf
    simp only [escapeFree_append]
    exact ⟨⟨⟨by decide, hexpected _ he⟩, by decide⟩, hfound _ hf⟩
  · rename_i expected he _
    exact escapeFree_append.2 ⟨by decide, hexpected _ he⟩
  · rename_i found _ hf
    exact escapeFree_append.2 ⟨by decide, hfound _ hf⟩

@[simp] theorem escapeFree_position (p : Position) : EscapeFree p.text := p.notMem_text rfl (by decide)

@[simp] theorem escapeFree_margin {gutter : Nat} {mark : String} : EscapeFree (margin gutter mark).text ↔ EscapeFree mark :=
  escapeFree_append.trans (and_iff_right (escapeFree_replicate (by decide) gutter))

include hd in
theorem escapeFree_bareLabel (gutter : Nat) : ∀ c ∈ bareLabel d gutter, EscapeFree c.text := by
  rw [bareLabel]
  split
  · rename_i label hlabel
    simp +decide [plain, escapeFree_label hd label hlabel]
  · exact nofun

include hd in
theorem escapeFree_snippet {text : String} (gutter : Nat) {line : List Char} (hline : '\x1b' ∉ line) :
    ∀ c ∈ snippet text d gutter line, EscapeFree c.text := by
  have hindent : '\x1b' ∉ indent line d.position.column := by
    rw [indent, List.mem_map]
    rintro ⟨c, -, hc⟩
    split at hc <;> cases hc
  have hcarets : EscapeFree (carets text d.span) := escapeFree_replicate (by decide) _
  rw [snippet, List.forall_mem_append, List.forall_mem_append]
  refine ⟨⟨?_, ?_⟩, ?_⟩
  · simp +decide [plain, escapeFree_ofList hline, escapeFree_ofList hindent, hcarets]
  · split
    · rename_i label hlabel
      simp +decide [plain, escapeFree_label hd label hlabel]
    · exact nofun
  · decide

include hsource hd in
theorem escapeFree_excerpt (gutter : Nat) : ∀ c ∈ excerpt source d gutter, EscapeFree c.text := by
  unfold excerpt
  split
  · exact escapeFree_bareLabel hd gutter
  · rename_i file
    split
    · rename_i line hline
      refine escapeFree_snippet hd gutter fun hmem => (hsource file rfl).2 ?_
      unfold sourceLine? at hline
      split at hline
      · cases hline
      · exact mem_of_mem_lines (List.mem_of_getElem? hline) hmem
    · exact escapeFree_bareLabel hd gutter

include hsource hd in
/-- There is no escape character in the report of a diagnostic, before it is painted. -/
theorem escapeFree_ofDiagnostic : ∀ c ∈ ofDiagnostic source d, EscapeFree c.text := by
  have hseverity : ∀ s : Severity, EscapeFree s.text := by
    intro s
    cases s <;> decide
  have hcode : ∀ c : Code, EscapeFree c.text := by
    intro c
    cases c <;> decide
  have hplace : EscapeFree (place source d) := by
    unfold place
    split
    · rename_i file
      simp +decide [(hsource file rfl).1]
    · exact escapeFree_position _
  have hnotes : ∀ gutter, ∀ c ∈ d.notes.flatMap (noteLine gutter), EscapeFree c.text := by
    intro gutter
    rw [List.forall_mem_flatMap]
    intro note hnote
    have htext : EscapeFree note := hd note (by simp [textsOf, hnote])
    simp +decide [noteLine, plain, htext]
  have hmessage : EscapeFree d.message := hd _ List.mem_cons_self
  rw [ofDiagnostic, List.forall_mem_append, List.forall_mem_append, List.forall_mem_append]
  refine ⟨⟨⟨?_, escapeFree_excerpt hsource hd _⟩, hnotes _⟩, ?_⟩
  · simp +decide [plain, hseverity, hcode, hplace, hmessage]
  · decide

end EscapeFree

theorem escapeFree_tally (errors warnings : Nat) : ∀ c ∈ tally errors warnings, EscapeFree c.text := by
  have hcounted : ∀ (n : Nat) {thing : String}, EscapeFree thing → EscapeFree (counted n thing) := by
    intro n thing h
    have hplural : EscapeFree (if n = 1 then "" else "s") := by split <;> decide
    simp +decide [counted, h, hplural]
  have hboth : EscapeFree (if 0 < warnings then " and " ++ counted warnings "warning" else "") := by
    split
    · exact escapeFree_append.2 ⟨by decide, hcounted _ (by decide)⟩
    · decide
  have herrors : EscapeFree (counted errors "error") := hcounted _ (by decide)
  have hwarnings : EscapeFree (counted warnings "warning") := hcounted _ (by decide)
  rw [tally]
  split
  · simp +decide [plain, herrors, hboth]
  · split
    · simp +decide [plain, hwarnings]
    · exact nofun

/-! ## Emitters -/

/-- What an emitter can be asked to do. -/
inductive Request where
  | emit (d : Diagnostic)
  | emitAll (ds : List Diagnostic)
  | summary (errors warnings : Nat)
  | flush

namespace Request

/-- The diagnostics that a request is about. -/
def diagnostics : Request → List Diagnostic
  | emit d => [d]
  | emitAll ds => ds
  | summary _ _ | flush => []

/-- The report that a request asks for. Nothing is held back, so there is nothing to write when an emitter is flushed. -/
def chunks (source : Option SourceFile) : Request → List Chunk
  | emit d => ofDiagnostic source d
  | emitAll ds => ofDiagnostics source ds
  | summary errors warnings => tally errors warnings
  | flush => []

end Request

/-- All that an emitter has written after one more request. -/
def write (colors : Bool) (source : Option SourceFile) (written : String) (r : Request) : String :=
  written ++ paint colors (r.chunks source)

/-- What an emitter writes for requests, one after the other. -/
def written (colors : Bool) (source : Option SourceFile) (requests : List Request) : String :=
  requests.foldl (write colors source) ""

/-- What one emitter has written is what another has, without any escape character, with escape sequences added; and there is one,
unless nothing was written. -/
structure Colored (colored bare : String) : Prop where
  adds : AddsSequences colored bare
  escapeFree : EscapeFree bare
  shown : '\x1b' ∈ colored.toList ↔ bare ≠ ""

theorem Colored.append {colored bare colored' bare' : String} (h : Colored colored bare) (h' : Colored colored' bare') :
    Colored (colored ++ colored') (bare ++ bare') where
  adds := h.adds.append h'.adds
  escapeFree := escapeFree_append.2 ⟨h.escapeFree, h'.escapeFree⟩
  shown := by rw [String.toList_append, List.mem_append, h.shown, h'.shown, Ne, Ne, Ne, String.append_eq_empty_iff, not_and_or]

theorem colored_empty : Colored "" "" := ⟨.of_notMem (by decide), by decide, by decide⟩

theorem shown_ofDiagnostic (source : Option SourceFile) (d : Diagnostic) (cs : List Chunk) :
    '\x1b' ∈ (paint true (ofDiagnostic source d ++ cs)).toList ∧ paint false (ofDiagnostic source d ++ cs) ≠ "" := by
  have hstyle : styleOf d.severity ≠ .plain := by cases d.severity <;> decide
  have htext : d.severity.text ++ "[" ++ d.code.text ++ "]" ≠ "" := by simp [String.append_eq_empty_iff]
  exact paint_of_styled hstyle htext _

/-- The report for a request is in colours exactly if there is one. -/
theorem shown_chunks (source : Option SourceFile) (r : Request) :
    '\x1b' ∈ (paint true (r.chunks source)).toList ↔ paint false (r.chunks source) ≠ "" := by
  have hnone : '\x1b' ∈ (paint true []).toList ↔ paint false [] ≠ "" := by decide
  have hstyled {cs : List Chunk} (h : '\x1b' ∈ (paint true cs).toList ∧ paint false cs ≠ "") :
      '\x1b' ∈ (paint true cs).toList ↔ paint false cs ≠ "" := iff_of_true h.1 h.2
  cases r with
  | emit d =>
    have hreport := shown_ofDiagnostic source d []
    rw [List.append_nil] at hreport
    exact hstyled hreport
  | emitAll ds =>
    cases ds with
    | nil => exact hnone
    | cons d ds => exact hstyled (shown_ofDiagnostic source d _)
  | summary errors warnings =>
    rw [Request.chunks, tally]
    split
    · exact hstyled (paint_of_styled (by decide) (by decide) _)
    · split
      · exact hstyled (paint_of_styled (by decide) (by decide) _)
      · exact hnone
  | flush => exact hnone

section Run

variable {source : Option SourceFile} (hsource : ∀ file ∈ source, EscapeFree file.path ∧ EscapeFree file.text)

include hsource in
theorem escapeFree_chunks {r : Request} (hr : ∀ d ∈ r.diagnostics, ∀ text ∈ textsOf d, EscapeFree text) :
    ∀ c ∈ r.chunks source, EscapeFree c.text := by
  cases r with
  | emit d => exact escapeFree_ofDiagnostic hsource (hr d List.mem_cons_self)
  | emitAll ds =>
    rw [Request.chunks, ofDiagnostics, List.forall_mem_flatMap]
    exact fun d hd => escapeFree_ofDiagnostic hsource (hr d hd)
  | summary errors warnings => exact escapeFree_tally errors warnings
  | flush => exact nofun

include hsource in
/-- Two emitters, one with colours, are asked for the same: what they have written still differs by escape sequences only. -/
theorem Colored.write {colored bare : String} (h : Colored colored bare) {r : Request}
    (hr : ∀ d ∈ r.diagnostics, ∀ text ∈ textsOf d, EscapeFree text) :
    Colored (write true source colored r) (write false source bare r) :=
  h.append ⟨addsSequences_paint (escapeFree_chunks hsource hr), escapeFree_paint (escapeFree_chunks hsource hr),
    shown_chunks source r⟩

include hsource in
theorem colored_written {requests : List Request}
    (hrequests : ∀ r ∈ requests, ∀ d ∈ r.diagnostics, ∀ text ∈ textsOf d, EscapeFree text) :
    Colored (written true source requests) (written false source requests) := by
  induction requests using List.reverseRecOn with
  | nil => exact colored_empty
  | append_singleton requests r ih =>
    obtain ⟨hbefore, hr⟩ := List.forall_mem_append.1 hrequests
    rw [written, written, List.foldl_append, List.foldl_append]
    exact (ih hbefore).write hsource (hr r List.mem_cons_self)

end Run

/-- Colours add only escape sequences. Whatever an emitter is asked to write, about a source and diagnostics that have no escape
character in their texts: deleting the escape sequences from what it writes with colours gives what it writes without. That has no
escape character, and what is written with colours has one, unless nothing is written. -/
theorem colors_add_only_sequences (source : Option SourceFile) (requests : List Request)
    (hsource : ∀ file ∈ source, EscapeFree file.path ∧ EscapeFree file.text)
    (hrequests : ∀ r ∈ requests, ∀ d ∈ r.diagnostics, ∀ text ∈ textsOf d, EscapeFree text) :
    withoutSequences (written true source requests).toList = (written false source requests).toList ∧
      '\x1b' ∉ (written false source requests).toList ∧
      ('\x1b' ∈ (written true source requests).toList ↔ written false source requests ≠ "") := by
  have hcolored := colored_written hsource hrequests
  exact ⟨hcolored.adds.eq, hcolored.escapeFree, hcolored.shown⟩

/-- A report with a line of the source, a label and a note, and a summary of both counts. -/
theorem colors_add_only_sequences_note :
    let file : SourceFile := ⟨"p.quill", "\t?\n"⟩
    let d := (Diagnostic.unexpected ⟨.invalid, "?", ⟨1, 2⟩, ⟨1, 2⟩⟩ "a statement").noting "while parsing a block"
    let requests := [.emit d, .emitAll [d, d], .summary 3 1, .flush]
    (EscapeFree file.path ∧ EscapeFree file.text) ∧ (∀ text ∈ textsOf d, EscapeFree text) ∧
      withoutSequences (written true (some file) requests).toList = (written false (some file) requests).toList ∧
      '\x1b' ∈ (written true (some file) requests).toList := by
  intro file d requests
  have hfile : EscapeFree file.path ∧ EscapeFree file.text := by decide
  have htexts : ∀ text ∈ textsOf d, EscapeFree text := by decide
  have hrequests : ∀ r ∈ requests, ∀ e ∈ r.diagnostics, ∀ text ∈ textsOf e, EscapeFree text := by decide
  obtain ⟨heq, -, hshown⟩ := colors_add_only_sequences (some file) requests (by rintro _ ⟨⟩; exact hfile) hrequests
  exact ⟨hfile, htexts, heq, hshown.2 (by decide)⟩

end QuillFrontEnd.Report
