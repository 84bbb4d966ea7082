import QuillFrontEnd.Tree.Element

/-!
# The terminals of each type of node

The terminals of a node from left to right, in terms of its parts, and the tokens among them that were taken.
-/

namespace QuillFrontEnd

/-! ## The tokens among terminals -/

/-- The token that was taken for a terminal, unless it is missing. -/
def Terminal.token? (t : Terminal) : Option Token := if t.missing then none else some t.toToken

@[simp] theorem Terminal.token?_ofToken (t : Token) : (ofToken t).token? = some t := rfl
@[simp] theorem Terminal.token?_inserted (k : TokenKind) (t : Token) : (inserted k t).token? = none := rfl
@[simp] theorem Terminal.token?_absent (k : TokenKind) : (absent k).token? = none := rfl

/-- The tokens that were taken for terminals, in order. -/
def takenTokens (ts : List Terminal) : List Token := ts.filterMap Terminal.token?

@[simp] theorem takenTokens_nil : takenTokens [] = [] := rfl

@[simp] theorem takenTokens_append (ts us : List Terminal) : takenTokens (ts ++ us) = takenTokens ts ++ takenTokens us :=
  List.filterMap_append

@[simp] theorem takenTokens_cons (t : Terminal) (ts : List Terminal) :
    takenTokens (t :: ts) = t.token?.toList ++ takenTokens ts := by
  cases h : t.token? <;> simp [takenTokens, h]

/-! ## Items and separators -/

namespace Separated

variable {α β γ : Type}

/-- The terminals of items with separators between them. -/
def leaves (item : α → List Terminal) (x : Separated α) : List Terminal := interleave item id x.items x.separators

theorem interleave_nil_right (item : α → List β) (separator : Terminal → β) (as : List α) :
    interleave item separator as [] = as.flatMap item := by
  induction as with
  | nil => rfl
  | cons a as ih => rw [interleave, ih, List.flatMap_cons]

/-- Going through items and separators after they have been put in order is going through each of them before. -/
theorem flatMap_interleave (item : α → List β) (separator : Terminal → β) (f : β → List γ) (g : Terminal → γ)
    (h : ∀ s, f (separator s) = [g s]) (as : List α) (ss : List Terminal) :
    (interleave item separator as ss).flatMap f = interleave (fun a => (item a).flatMap f) g as ss := by
  fun_induction interleave item separator as ss with
  | case1 ss =>
    rw [interleave, List.flatMap_map, List.map_eq_flatMap]
    simp only [h]
  | case2 a as ih => rw [interleave, List.flatMap_append, ih]
  | case3 a as s ss ih => rw [interleave, List.flatMap_append, List.flatMap_cons, h, ih, List.singleton_append]

end Separated

/-! ## Nodes -/

@[simp] theorem BasicType.leaves_element (n : BasicType) : n.element.leaves = [n.keyword] := rfl

@[simp] theorem Extent.leaves_element (n : Extent) : n.element.leaves = [n.left, n.size, n.right] := rfl

@[simp] theorem Dimension.leaves_element (rule : Rule) (n : Dimension) :
    (n.element rule).leaves = n.extent.element.leaves := by
  rw [Dimension.element, Element.leaves_node, List.flatMap_singleton]

/-- The terminals of a dimension that may be left out. -/
def Dimension.leaves? (d : Option Dimension) : List Terminal := d.toList.flatMap fun d => d.extent.element.leaves

@[simp] theorem Dimension.leaves?_none : leaves? none = [] := rfl
@[simp] theorem Dimension.leaves?_some (d : Dimension) : leaves? (some d) = d.extent.element.leaves := List.flatMap_singleton ..

theorem TypeSpec.leaves_element (n : TypeSpec) :
    n.element.leaves = n.basic.element.leaves ++ (Dimension.leaves? n.first ++ Dimension.leaves? n.second) := by
  rw [TypeSpec.element, Element.leaves_node, List.flatMap_cons, List.flatMap_append]
  cases n.first <;> cases n.second <;> simp

theorem VarDecl.leaves_element (n : VarDecl) :
    n.element.leaves = n.keyword :: (n.type.element.leaves ++ (n.names.leaves (fun t => [t]) ++ [n.semicolon])) := by
  rw [VarDecl.element, Element.leaves_node, List.flatMap_cons, List.flatMap_cons, List.flatMap_append,
    Separated.flatMap_interleave _ _ _ id fun _ => rfl]
  simp [Element.leaves, Separated.leaves]

theorem VarDecls.leaves_element (rule : Rule) (n : VarDecls) :
    (n.element rule).leaves = n.decls.flatMap fun d => d.element.leaves := by
  rw [VarDecls.element, Element.leaves_node, List.flatMap_map]

/-- The terminals of a parameter. -/
def Param.leaves (n : Param) : List Terminal := n.type.element.leaves ++ [n.name]

theorem ParamList.leaves_element (n : ParamList) : n.element.leaves = n.params.leaves Param.leaves := by
  rw [ParamList.element, Element.leaves_node, Separated.flatMap_interleave _ _ _ id fun _ => rfl]
  rfl

@[simp] theorem Expression.leaves_element (n : Expression) : n.element.leaves = [] := rfl

@[simp] theorem Statement.leaves_element (n : Statement) : n.element.leaves = [n.semicolon] := rfl

theorem Block.leaves_element (n : Block) :
    n.element.leaves = n.left :: (n.statements.flatMap (fun t => t.element.leaves) ++ [n.right]) := by
  rw [Block.element, Element.leaves_node, List.flatMap_cons, List.flatMap_append, List.flatMap_map]
  rfl

/-- The terminals of a parameter list that may be left out. -/
def ParamList.leaves? (ps : Option ParamList) : List Terminal := ps.toList.flatMap fun ps => ps.element.leaves

@[simp] theorem ParamList.leaves?_none : leaves? none = [] := rfl
@[simp] theorem ParamList.leaves?_some (ps : ParamList) : leaves? (some ps) = ps.element.leaves := List.flatMap_singleton ..

theorem FunctionDecl.leaves_element (n : FunctionDecl) :
    n.element.leaves = n.keyword :: n.name :: n.left :: (ParamList.leaves? n.params ++
      n.right :: ((n.locals.element .localVars).leaves ++ n.body.element.leaves)) := by
  rw [FunctionDecl.element, Element.leaves_node]
  cases n.params <;> simp [Element.leaves]

theorem Functions.leaves_element (n : Functions) : n.element.leaves = n.decls.flatMap fun d => d.element.leaves := by
  rw [Functions.element, Element.leaves_node, List.flatMap_map]

theorem MainBlock.leaves_element (n : MainBlock) : n.element.leaves = n.keyword :: n.block.element.leaves := by
  simp [MainBlock.element, Element.leaves_node, Element.leaves]

theorem Program.leaves_element (n : Program) :
    n.element.leaves = n.keyword :: n.name :: n.colon :: ((n.globals.element .globalVars).leaves ++
      (n.functions.element.leaves ++ (n.main.element.leaves ++ [n.eof]))) := by
  simp [Program.element, Element.leaves_node, Element.leaves]

/-! ## Elements in order -/

namespace Element

/-- The terminal that an element is, if it is one. -/
def terminal? : Element → Option Terminal
  | leaf t => some t
  | node _ _ _ => none

mutual

/-- The terminals among an element and all elements below it are those of the element, from left to right. -/
theorem filterMap_preorder (e : Element) : e.preorder.filterMap terminal? = e.leaves := by
  cases e with
  | leaf t => rfl
  | node rule span children => exact filterMap_preorderOfAll children

theorem filterMap_preorderOfAll (es : List Element) : (preorderOfAll es).filterMap terminal? = leavesOfAll es := by
  cases es with
  | nil => rfl
  | cons e es =>
    rw [preorderOfAll, List.filterMap_append, filterMap_preorder e, filterMap_preorderOfAll es, leavesOfAll]

end

end Element

/-- The tokens of an element that were taken are those of its terminals. -/
theorem Element.map_toToken_terminals (e : Element) : e.terminals.map Terminal.toToken = takenTokens e.leaves := by
  unfold terminals
  induction e.leaves with
  | nil => rfl
  | cons t ts ih =>
    rw [List.filter_cons, takenTokens_cons, ← ih, Terminal.token?]
    cases t.missing <;> rfl

theorem Program.map_toToken_terminals (n : Program) : n.terminals.map Terminal.toToken = takenTokens n.element.leaves :=
  n.element.map_toToken_terminals

end QuillFrontEnd
