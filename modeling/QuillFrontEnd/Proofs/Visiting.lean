import QuillFrontEnd.Proofs.Leaves
import QuillFrontEnd.Proofs.WellFormedTree
import QuillFrontEnd.Tree.Visit

/-!
# Visits and children

There are two ways to go through a tree: to visit it, and to take the children of each of its elements. A visit leaves out the
separators that have no item before them, and it does not enter the nodes of array dimensions. Beyond that the two ways are the
same, so they meet the same terminals exactly in the trees without such separators, and the tree of every parse is one.

The two ways are compared part by part: `GoesThrough` says how they relate in a part of a tree, and is kept when parts are put
together.
-/

namespace QuillFrontEnd

/-! ## What there is to meet -/

/-- Whether a step of a visit enters a node. -/
def Visit.entersNode : Visit → Bool
  | enter _ _ => true
  | terminal _ => false

namespace Element

/-- The step of a visit at an element. -/
def visit : Element → Visit
  | leaf t => .terminal t
  | node rule span _ => .enter rule span

/-- Whether an element is the node of an array dimension, which a visit goes through without entering it. -/
def isDimension (e : Element) : Bool := e.rule? == some .typeDim1 || e.rule? == some .typeDim2

/-- The steps at an element and at all elements below it, each before its children, but for the nodes of array dimensions. -/
def steps (e : Element) : List Visit := (e.preorder.filter fun e => !e.isDimension).map visit

theorem map_visit_preorderOfAll (es : List Element) :
    ((preorderOfAll es).filter fun e => !e.isDimension).map visit = es.flatMap steps := by
  rw [preorderOfAll_eq_flatMap, List.filter_flatMap, List.map_flatMap]
  rfl

theorem steps_node {rule : Rule} (hrule : rule ≠ .typeDim1 ∧ rule ≠ .typeDim2) (span : Span) (children : List Element) :
    (node rule span children).steps = .enter rule span :: children.flatMap steps := by
  have hentered : (node rule span children).isDimension = false := by simp [isDimension, rule?, hrule]
  rw [steps, preorder, List.filter_cons_of_pos (by rw [hentered]; rfl), List.map_cons, map_visit_preorderOfAll]
  rfl

theorem steps_dimension {rule : Rule} (hrule : rule = .typeDim1 ∨ rule = .typeDim2) (span : Span) (children : List Element) :
    (node rule span children).steps = children.flatMap steps := by
  have hpassed : (node rule span children).isDimension = true := by rcases hrule with rfl | rfl <;> rfl
  rw [steps, preorder, List.filter_cons_of_neg (by simp [hpassed]), map_visit_preorderOfAll]

/-- The terminals among the steps are all terminals of the element. -/
theorem terminals_steps (e : Element) : Visit.terminals e.steps = e.leaves := by
  rw [← filterMap_preorder, steps, Visit.terminals]
  induction e.preorder with
  | nil => rfl
  | cons a as ih =>
    rw [List.filter_cons]
    cases a with
    | leaf t => exact congrArg (t :: ·) ih
    | node rule span children => split <;> exact ih

/-- The nodes among the steps are all nodes of the element but those of array dimensions. -/
theorem entered_steps (e : Element) :
    e.steps.filter Visit.entersNode = (e.nodes.filter fun e => !e.isDimension).map visit := by
  have hkind : (Visit.entersNode ∘ visit : Element → Bool) = fun e => e.rule?.isSome := funext fun e => by cases e <;> rfl
  rw [steps, List.filter_map, hkind, nodes, List.filter_filter, List.filter_filter]
  simp only [Bool.and_comm]

end Element

/-! ## Going through a part of a tree -/

/-- Each separator has an item before it. -/
def Separated.Paired {α : Type} (x : Separated α) : Prop := x.separators.length ≤ x.items.length

namespace Visit

variable {vs vs' ws ws' : List Visit} {P Q : Prop}

/-- Of what there is to meet in a part of a tree, a visit leaves out nothing but terminals, and nothing at all exactly under a
condition. -/
structure GoesThrough (vs ws : List Visit) (whole : Prop) : Prop where
  sublist : vs.Sublist ws
  entered_eq : vs.filter entersNode = ws.filter entersNode
  eq_iff : vs = ws ↔ whole

/-- A step enters a node or meets a terminal. -/
theorem length_eq (vs : List Visit) : vs.length = (vs.filter entersNode).length + (terminals vs).length := by
  induction vs with
  | nil => rfl
  | cons v vs ih =>
    cases v with
    | enter rule span => exact (congrArg (· + 1) ih).trans (Nat.add_right_comm _ _ 1)
    | terminal t => exact congrArg (· + 1) ih

namespace GoesThrough

theorem refl (vs : List Visit) : GoesThrough vs vs True := ⟨.refl vs, rfl, iff_of_true rfl trivial⟩

theorem congr (h : GoesThrough vs ws P) (hP : P ↔ Q) : GoesThrough vs ws Q := { h with eq_iff := h.eq_iff.trans hP }

theorem append (h : GoesThrough vs ws P) (h' : GoesThrough vs' ws' Q) : GoesThrough (vs ++ vs') (ws ++ ws') (P ∧ Q) where
  sublist := h.sublist.append h'.sublist
  entered_eq := by rw [List.filter_append, List.filter_append, h.entered_eq, h'.entered_eq]
  eq_iff := by
    rw [← h.eq_iff, ← h'.eq_iff]
    refine ⟨fun heq => ?_, fun ⟨heq, heq'⟩ => by rw [heq, heq']⟩
    -- In neither part are there more steps than things to meet, so in both there are as many.
    have hlength := congrArg List.length heq
    have hle := h.sublist.length_le
    have hle' := h'.sublist.length_le
    rw [List.length_append, List.length_append] at hlength
    exact List.append_inj heq (by omega)

theorem prepend (us : List Visit) (h : GoesThrough vs ws P) : GoesThrough (us ++ vs) (us ++ ws) P :=
  ((refl us).append h).congr (iff_of_eq (true_and P))

theorem cons (v : Visit) (h : GoesThrough vs ws P) : GoesThrough (v :: vs) (v :: ws) P := h.prepend [v]

theorem concat (h : GoesThrough vs ws P) (us : List Visit) : GoesThrough (vs ++ us) (ws ++ us) P :=
  (h.append (refl us)).congr (iff_of_eq (and_true P))

theorem flatMap {α : Type} {f g : α → List Visit} {R : α → Prop} (h : ∀ x, GoesThrough (f x) (g x) (R x)) (xs : List α) :
    GoesThrough (xs.flatMap f) (xs.flatMap g) (∀ x ∈ xs, R x) := by
  induction xs with
  | nil => exact (refl []).congr (iff_of_true trivial (List.forall_mem_nil R))
  | cons x xs ih =>
    rw [List.flatMap_cons, List.flatMap_cons]
    exact ((h x).append ih).congr List.forall_mem_cons.symm

/-- Since a visit enters all nodes, it meets all terminals only if it leaves out nothing. -/
theorem terminals_eq_iff (h : GoesThrough vs ws P) : terminals vs = terminals ws ↔ P := by
  rw [← h.eq_iff]
  refine ⟨fun heq => h.sublist.eq_of_length ?_, fun heq => by rw [heq]⟩
  rw [length_eq, length_eq ws, h.entered_eq, heq]

/-- Separators are left out exactly where there are more of them than items. -/
theorem pairUp {α : Type} (item : α → List Visit) (as : List α) (ss : List Terminal) :
    GoesThrough (Separated.pairUp item .terminal as ss) (Separated.interleave item .terminal as ss) (ss.length ≤ as.length) := by
  fun_induction Separated.interleave item .terminal as ss with
  | case1 ss =>
    have hnone : (ss.map terminal).filter entersNode = [] := by simp [List.filter_map, Function.comp_def, entersNode]
    refine ⟨List.nil_sublist _, hnone.symm, ?_⟩
    cases ss <;> simp [Separated.pairUp]
  | case2 a as ih => exact (ih.prepend _).congr (by simp)
  | case3 a as s ss ih => exact ((ih.cons _).prepend _).congr (by simp)

end GoesThrough

end Visit

open QuillFrontEnd.Visit QuillFrontEnd.Parser

/-! ## Going through each type of node -/

theorem BasicType.visits_eq (n : BasicType) : n.visits = n.element.steps := rfl

theorem Extent.visits_eq (n : Extent) : n.visits = n.element.steps := rfl

theorem Dimension.steps_element {rule : Rule} (hrule : rule = .typeDim1 ∨ rule = .typeDim2) (n : Dimension) :
    (n.element rule).steps = n.extent.visits := by
  rw [Dimension.element, Element.steps_dimension hrule, List.flatMap_singleton, Extent.visits_eq]

theorem TypeSpec.visits_eq (n : TypeSpec) : n.visits = n.element.steps := by
  rw [TypeSpec.visits, TypeSpec.element, Element.steps_node (by decide), List.flatMap_cons, BasicType.visits_eq]
  cases n.first <;> cases n.second <;> simp [Dimension.steps_element]

theorem VarDecl.goesThrough (n : VarDecl) :
    GoesThrough n.visits n.element.steps n.names.Paired := by
  rw [VarDecl.visits, VarDecl.element, Element.steps_node (by decide), List.flatMap_cons, List.flatMap_cons, List.flatMap_append,
    Separated.flatMap_interleave _ _ _ Visit.terminal fun _ => rfl, TypeSpec.visits_eq, List.append_assoc]
  exact ((((GoesThrough.pairUp _ _ _).concat _).prepend _).cons _).cons _

theorem VarDecls.goesThrough {rule : Rule} (hrule : rule ≠ .typeDim1 ∧ rule ≠ .typeDim2) (n : VarDecls) :
    GoesThrough (n.visits rule) (n.element rule).steps
      (∀ d ∈ n.decls, d.names.Paired) := by
  rw [VarDecls.visits, VarDecls.element, Element.steps_node hrule, List.flatMap_map]
  exact (GoesThrough.flatMap VarDecl.goesThrough _).cons _

theorem ParamList.goesThrough (n : ParamList) :
    GoesThrough n.visits n.element.steps n.params.Paired := by
  rw [ParamList.visits, ParamList.element, Element.steps_node (by decide),
    Separated.flatMap_interleave _ _ _ Visit.terminal fun _ => rfl]
  exact (GoesThrough.pairUp _ _ _).cons _

theorem Statement.visits_eq (n : Statement) : n.visits = n.element.steps := rfl

theorem Block.visits_eq (n : Block) : n.visits = n.element.steps := by
  rw [Block.visits, Block.element, Element.steps_node (by decide), List.flatMap_cons, List.flatMap_append, List.flatMap_map]
  rfl

theorem FunctionDecl.goesThrough (n : FunctionDecl) :
    GoesThrough n.visits n.element.steps
      ((∀ ps ∈ n.params.toList, ps.params.Paired) ∧
        ∀ d ∈ n.locals.decls, d.names.Paired) := by
  have hparams : (n.params.map ParamList.element).toList.flatMap Element.steps =
      n.params.toList.flatMap fun ps => ps.element.steps := by
    cases n.params <;> rfl
  have hends : [Element.leaf n.right, n.locals.element .localVars, n.body.element].flatMap Element.steps =
      .terminal n.right :: ((n.locals.element .localVars).steps ++ n.body.element.steps) := by
    rw [List.flatMap_cons, List.flatMap_cons, List.flatMap_singleton]
    rfl
  rw [FunctionDecl.visits, FunctionDecl.element, Element.steps_node (by decide), List.flatMap_append, List.flatMap_append, hparams,
    hends, Block.visits_eq]
  simp only [List.append_assoc]
  exact ((GoesThrough.flatMap ParamList.goesThrough _).append
    (((VarDecls.goesThrough (by decide) _).concat _).cons _)).prepend _

theorem Functions.goesThrough (n : Functions) :
    GoesThrough n.visits n.element.steps (∀ f ∈ n.decls,
      (∀ ps ∈ f.params.toList, ps.params.Paired) ∧
        ∀ d ∈ f.locals.decls, d.names.Paired) := by
  rw [Functions.visits, Functions.element, Element.steps_node (by decide), List.flatMap_map]
  exact (GoesThrough.flatMap FunctionDecl.goesThrough _).cons _

theorem MainBlock.visits_eq (n : MainBlock) : n.visits = n.element.steps := by
  rw [MainBlock.visits, MainBlock.element, Element.steps_node (by decide), List.flatMap_cons, List.flatMap_singleton,
    Block.visits_eq]
  rfl

/-! ## Going through a program -/

namespace Program

/-- All declarations of variables in a program. -/
def varDecls (n : Program) : List VarDecl := n.globals.decls ++ n.functions.decls.flatMap fun f => f.locals.decls

/-- All parameter lists in a program. -/
def paramLists (n : Program) : List ParamList := n.functions.decls.flatMap fun f => f.params.toList

/-- Nowhere in a program are there more separators than items. -/
structure WellSeparated (n : Program) : Prop where
  names : ∀ d ∈ n.varDecls, d.names.Paired
  params : ∀ ps ∈ n.paramLists, ps.params.Paired

theorem wellSeparated_iff (n : Program) : n.WellSeparated ↔ (∀ d ∈ n.globals.decls, d.names.Paired) ∧
    ∀ f ∈ n.functions.decls, (∀ ps ∈ f.params.toList, ps.params.Paired) ∧ ∀ d ∈ f.locals.decls, d.names.Paired := by
  constructor
  · intro h
    refine ⟨fun d hd => h.names d (List.mem_append_left _ hd), fun f hf => ⟨fun ps hps => ?_, fun d hd => ?_⟩⟩
    · exact h.params ps (List.mem_flatMap.2 ⟨f, hf, hps⟩)
    · exact h.names d (List.mem_append_right _ (List.mem_flatMap.2 ⟨f, hf, hd⟩))
  · rintro ⟨hglobals, hfunctions⟩
    refine ⟨fun d hd => ?_, fun ps hps => ?_⟩
    · rcases List.mem_append.1 hd with hd | hd
      · exact hglobals d hd
      · obtain ⟨f, hf, hd⟩ := List.mem_flatMap.1 hd
        exact (hfunctions f hf).2 d hd
    · obtain ⟨f, hf, hps⟩ := List.mem_flatMap.1 hps
      exact (hfunctions f hf).1 ps hps

theorem goesThrough (n : Program) : GoesThrough n.visits n.element.steps n.WellSeparated := by
  have hsteps : n.element.steps = [.enter .start n.span, .terminal n.keyword, .terminal n.name, .terminal n.colon] ++
      ((n.globals.element .globalVars).steps ++ (n.functions.element.steps ++ (n.main.element.steps ++ [.terminal n.eof]))) := by
    rw [Program.element, Element.steps_node (by decide)]
    simp only [List.flatMap_cons, List.flatMap_nil, List.append_nil]
    rfl
  rw [hsteps, Program.visits, MainBlock.visits_eq]
  simp only [List.append_assoc]
  have hglobals : GoesThrough (n.globals.visits .globalVars) (n.globals.element .globalVars).steps _ :=
    VarDecls.goesThrough (by decide) n.globals
  have hparts := hglobals.append (n.functions.goesThrough.concat (n.main.element.steps ++ [.terminal n.eof]))
  exact (hparts.prepend _).congr n.wellSeparated_iff.symm

/-- In the tree of every parse each separator has an item before it. -/
theorem wellSeparated_parse (ts : TokenList) : (parse ts).tree.WellSeparated := by
  obtain ⟨-, -, -, -, -, -, hv, -, -⟩ := parseWith_run Table.standard_orderly ts
  obtain ⟨-, hverdict, span, hnode⟩ := program_eq .standard (.initial ts)
  have hparts := forms_programSteps {} ((State.initial ts).attempt (.rule .start)) Program.wellFormed_blank
    (by rw [← hverdict]; exact hv)
  have htree : (parse ts).tree = (program .standard (.initial ts)).node := rfl
  rw [htree, hnode, wellSeparated_iff]
  refine ⟨fun d hd => (hparts.globals d hd).names.le_length, fun f hf => ⟨fun ps hps => ?_, fun d hd => ?_⟩⟩
  · have hparams := (hparts.functions f hf).params ps (Option.mem_toList.1 hps)
    exact Nat.le_of_succ_le hparams.params.le_length
  · exact ((hparts.functions f hf).locals d hd).names.le_length

end Program

/-- Visits and children agree on well-separated trees. A visit of a program meets all its terminals, with those that are missing,
exactly if nowhere in it are there more separators than items, and then the visit is, step by step, what there is to meet at the
elements of the tree, each before its children, but for the nodes of array dimensions. In any case the visit enters the other nodes
in that order. The tree of every parse is well separated. -/
theorem visits_agree_with_children :
    (∀ t : Program,
      (Visit.terminals t.visits = t.element.leaves ↔ t.WellSeparated) ∧
      (t.visits = (t.element.preorder.filter fun e => !e.isDimension).map Element.visit ↔ t.WellSeparated) ∧
      t.visits.filter Visit.entersNode = (t.element.nodes.filter fun e => !e.isDimension).map Element.visit) ∧
    ∀ ts : TokenList, (parse ts).tree.WellSeparated := by
  refine ⟨fun t => ⟨?_, t.goesThrough.eq_iff, ?_⟩, Program.wellSeparated_parse⟩
  · rw [← Element.terminals_steps]
    exact t.goesThrough.terminals_eq_iff
  · rw [t.goesThrough.entered_eq, Element.entered_steps]

end QuillFrontEnd
