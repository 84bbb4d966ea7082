import QuillFrontEnd.Proofs.FirstAndFollow
import QuillFrontEnd.Proofs.Labels
import QuillFrontEnd.Proofs.Leaves
import QuillFrontEnd.Tree.Outline

/-!
# The lines of an outline

The outline of a tree has a line for every element of the tree, in the order in which each element comes before its children. A line
is indented by two spaces for each level of nesting, and what stands in it says exactly which node or terminal it is about. No text
of a terminal breaks a line, since lexemes are quoted.
-/

namespace QuillFrontEnd

/-! ## What a line says -/

/-- What is said of an element in the line about it. -/
inductive Inscription where
  | node (rule : Rule) (span : Span)
  | taken (kind : TokenKind) (lexeme : String) (position : Position)
  | missing (kind : TokenKind)
deriving DecidableEq

/-- What the line about an element says of it. -/
def Element.inscription : Element → Inscription
  | leaf t => if t.missing then .missing t.kind else .taken t.kind t.lexeme t.position
  | node rule span _ => .node rule span

namespace Inscription

/-- How it is said: a rule and a span; a kind, a quoted lexeme and a position; or a kind that is missing. -/
def text : Inscription → String
  | node rule span => rule.name ++ " " ++ span.text
  | taken kind lexeme position => kind.name ++ " " ++ Text.quoted lexeme ++ " @ " ++ position.text
  | missing kind => "<missing " ++ kind.displayName ++ ">"

/-- The first word of what is said. -/
def word : Inscription → String
  | node rule _ => rule.name
  | taken kind _ _ => kind.name
  | missing _ => "<missing"

/-- What comes after the first word and a space. -/
def others : Inscription → List Char
  | node _ span => span.text.toList
  | taken _ lexeme position => '"' :: (lexeme.toList.flatMap Text.escapeChar ++ '"' :: ' ' :: '@' :: ' ' :: position.text.toList)
  | missing kind => kind.displayName.toList ++ ['>']

theorem toList_text (i : Inscription) : i.text.toList = i.word.toList ++ ' ' :: i.others := by
  cases i with
  | node rule span => simp [text, word, others]
  | taken kind lexeme position => simp [text, word, others, Text.quoted]
  | missing kind => simp [text, word, others]

theorem space_notMem_word (i : Inscription) : ' ' ∉ i.word.toList := by
  cases i with
  | node rule span => exact rule.notMem_name.1
  | taken kind lexeme position => exact kind.notMem_name.1
  | missing kind =>
    show ' ' ∉ "<missing".toList
    decide

/-- What is said in two lines is the same only if it is said of the same. -/
theorem text_inj {i j : Inscription} (h : i.text = j.text) : i = j := by
  have hrules : ∀ r ∈ Rule.all, r.name ≠ "<missing" ∧ ∀ k ∈ TokenKind.all, r.name ≠ k.name := by decide
  have hkinds : ∀ k ∈ TokenKind.all, k.name ≠ "<missing" := by decide
  have hlist := congrArg String.toList h
  rw [toList_text, toList_text] at hlist
  obtain ⟨hword, hothers⟩ := append_cons_inj i.space_notMem_word j.space_notMem_word hlist
  rw [String.toList_inj] at hword
  cases i with
  | node rule span =>
    cases j with
    | node rule' span' => rw [Rule.name_inj hword, Span.text_inj (String.toList_inj.1 hothers)]
    | taken kind _ _ => exact absurd hword ((hrules rule rule.mem_all).2 kind kind.mem_all)
    | missing kind => exact absurd hword (hrules rule rule.mem_all).1
  | taken kind lexeme position =>
    cases j with
    | node rule _ => exact absurd hword.symm ((hrules rule rule.mem_all).2 kind kind.mem_all)
    | taken kind' lexeme' position' =>
      obtain ⟨hlexeme, hposition⟩ := Text.escaped_inj (List.cons.inj hothers).2
      simp only [List.cons.injEq, true_and, String.toList_inj] at hlexeme hposition
      rw [TokenKind.name_inj hword, hlexeme, Position.text_inj hposition]
    | missing kind' => exact absurd hword (hkinds kind kind.mem_all)
  | missing kind =>
    cases j with
    | node rule _ => exact absurd hword.symm (hrules rule rule.mem_all).1
    | taken kind' _ _ => exact absurd hword.symm (hkinds kind' kind'.mem_all)
    | missing kind' =>
      rw [TokenKind.displayName_inj (String.toList_inj.1 (List.append_cancel_right hothers))]

/-- What is said fits on a line. -/
theorem newline_notMem_text (i : Inscription) : '\n' ∉ i.text.toList := by
  cases i with
  | node rule span => simp [text, rule.notMem_name.2, span.notMem_text]
  | taken kind lexeme position => simp [text, kind.notMem_name.2, Text.newline_notMem_quoted, position.notMem_text]
  | missing kind => simp [text, kind.newline_notMem_displayName]

end Inscription

namespace Element

theorem outlineText_eq (e : Element) : e.outlineText = e.inscription.text := by
  cases e with
  | leaf t =>
    rw [outlineText, Terminal.outlineText, inscription]
    split <;> rfl
  | node rule span children => rfl

/-! ## Levels of nesting -/

mutual

/-- An element at a level of nesting and all elements below it, each before its children, with their levels. -/
def nested (level : Nat) : Element → List (Nat × Element)
  | leaf t => [(level, leaf t)]
  | node rule span children => (level, node rule span children) :: nestedAll (level + 1) children

/-- Several elements at a level of nesting and all elements below them, each before its children, with their levels. -/
def nestedAll (level : Nat) : List Element → List (Nat × Element)
  | [] => []
  | e :: es => e.nested level ++ nestedAll level es

end

mutual

theorem map_snd_nested (level : Nat) (e : Element) : (e.nested level).map Prod.snd = e.preorder := by
  cases e with
  | leaf t => rfl
  | node rule span children => exact congrArg (_ :: ·) (map_snd_nestedAll (level + 1) children)

theorem map_snd_nestedAll (level : Nat) (es : List Element) : (nestedAll level es).map Prod.snd = preorderOfAll es := by
  cases es with
  | nil => rfl
  | cons e es => rw [nestedAll, List.map_append, map_snd_nested level e, map_snd_nestedAll level es, preorderOfAll]

end

mutual

/-- An outline is put together of the lines of the elements. -/
theorem outline_eq (level : Nat) (e : Element) :
    e.outline level = String.join ((e.nested level).map fun le => outlineLine le.1 le.2.outlineText) := by
  cases e with
  | leaf t => simp [outline, nested]
  | node rule span children => rw [outline, nested, outlineOfAll_eq (level + 1) children, List.map_cons, String.join_cons]

theorem outlineOfAll_eq (level : Nat) (es : List Element) :
    outlineOfAll level es = String.join ((nestedAll level es).map fun le => outlineLine le.1 le.2.outlineText) := by
  cases es with
  | nil => rfl
  | cons e es => rw [outlineOfAll, nestedAll, List.map_append, String.join_append, outline_eq level e, outlineOfAll_eq level es]

end

/-- An element is a node or a terminal. -/
theorem length_preorder (e : Element) : e.preorder.length = e.nodeCount + e.leaves.length := by
  rw [nodeCount, nodes, ← filterMap_preorder]
  induction e.preorder with
  | nil => rfl
  | cons a as ih =>
    rw [List.length_cons, ih]
    cases a with
    | leaf t => exact Nat.add_assoc _ _ 1
    | node rule span children => exact Nat.add_right_comm _ _ 1

end Element

/-- An outline has a line for each element. It consists of lines that are each ended with a line feed and hold no other, as many as
the tree has nodes and terminals, with those that are missing. The lines are about the elements of the tree in order, each before its
children. Each is indented by two spaces for each level of nesting, and what stands in it after that is the same for two elements
exactly if they are nodes of one rule and span, terminals of one kind, lexeme and position, or missing terminals of one kind. -/
theorem outline_line_per_element (t : Program) :
    ∃ lines : List String,
      t.outline = String.join (lines.map fun line => line ++ "\n") ∧ (∀ line ∈ lines, '\n' ∉ line.toList) ∧
      lines.length = t.element.nodeCount + t.element.leaves.length ∧
      lines = ((t.element.nested 0).map fun le => Text.spaces (2 * le.1) ++ le.2.outlineText) ∧
      (t.element.nested 0).map Prod.snd = t.element.preorder ∧
      ∀ e e' : Element, e.outlineText = e'.outlineText ↔ e.inscription = e'.inscription := by
  refine ⟨_, ?_, ?_, ?_, rfl, Element.map_snd_nested 0 _, fun e e' => ?_⟩
  · rw [Program.outline, Element.outline_eq, List.map_map]
    rfl
  · intro line hline
    obtain ⟨⟨level, e⟩, -, rfl⟩ := List.mem_map.1 hline
    rw [e.outlineText_eq, String.toList_append, List.mem_append]
    rintro (hindent | htext)
    · exact absurd (List.eq_of_mem_replicate (by rwa [Text.spaces, String.toList_ofList] at hindent)) (by decide)
    · exact e.inscription.newline_notMem_text htext
  · rw [List.length_map, ← Element.length_preorder, ← Element.map_snd_nested 0, List.length_map]
  · rw [e.outlineText_eq, e'.outlineText_eq]
    exact ⟨Inscription.text_inj, fun h => by rw [h]⟩

end QuillFrontEnd
