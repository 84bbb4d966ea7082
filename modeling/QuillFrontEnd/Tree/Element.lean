import QuillFrontEnd.Tree
import QuillFrontEnd.Grammar.Rule

/-!
# Trees without types

Seen as an element, a node is its rule, its span and its children, which are terminals and nodes in the order of the phrase. All
that is said of a whole tree at once (its terminals, the number of its nodes, its outline) is said of elements.
-/

namespace QuillFrontEnd

/-- A terminal, or a node of a rule with its span and children. -/
inductive Element where
  | leaf (terminal : Terminal)
  | node (rule : Rule) (span : Span) (children : List Element)

namespace Element

/-- The span of an element. -/
def span : Element → Span
  | leaf t => t.span
  | node _ span _ => span

/-- The children of an element; a terminal has none. -/
def children : Element → List Element
  | leaf _ => []
  | node _ _ children => children

/-- The rule of an element that is a node. -/
def rule? : Element → Option Rule
  | leaf _ => none
  | node rule _ _ => some rule

mutual

/-- The terminals of an element from left to right, with those that are missing. -/
def leaves : Element → List Terminal
  | leaf t => [t]
  | node _ _ children => leavesOfAll children

/-- The terminals of several elements from left to right, with those that are missing. -/
def leavesOfAll : List Element → List Terminal
  | [] => []
  | e :: es => e.leaves ++ leavesOfAll es

end

theorem leavesOfAll_eq_flatMap (es : List Element) : leavesOfAll es = es.flatMap leaves := by
  induction es with
  | nil => rfl
  | cons e es ih => rw [leavesOfAll, ih, List.flatMap_cons]

/-- The terminals of a node are those of its children, one child after the other. -/
theorem leaves_node (rule : Rule) (span : Span) (children : List Element) :
    (node rule span children).leaves = children.flatMap leaves := by
  rw [leaves, leavesOfAll_eq_flatMap]

/-- The terminals of an element that were taken, from left to right. -/
def terminals (e : Element) : List Terminal := e.leaves.filter fun t => !t.missing

mutual

/-- The element itself and all elements below it, each before its children. -/
def preorder : Element → List Element
  | leaf t => [leaf t]
  | node rule span children => node rule span children :: preorderOfAll children

/-- Several elements and all elements below them, each before its children. -/
def preorderOfAll : List Element → List Element
  | [] => []
  | e :: es => e.preorder ++ preorderOfAll es

end

theorem preorderOfAll_eq_flatMap (es : List Element) : preorderOfAll es = es.flatMap preorder := by
  induction es with
  | nil => rfl
  | cons e es ih => rw [preorderOfAll, ih, List.flatMap_cons]

/-- The nodes of an element, each before the nodes below it. -/
def nodes (e : Element) : List Element := e.preorder.filter fun e => e.rule?.isSome

/-- The number of nodes of an element. -/
def nodeCount (e : Element) : Nat := e.nodes.length

end Element

/-- A basic type as an element. -/
def BasicType.element (n : BasicType) : Element := .node .basicType n.span [.leaf n.keyword]

/-- A size between brackets as an element. -/
def Extent.element (n : Extent) : Element := .node .dimDecl n.span [.leaf n.left, .leaf n.size, .leaf n.right]

/-- A dimension as an element of one of the two rules for dimensions. -/
def Dimension.element (rule : Rule) (n : Dimension) : Element := .node rule n.span [n.extent.element]

/-- A type as an element. -/
def TypeSpec.element (n : TypeSpec) : Element :=
  .node .type n.span
    (n.basic.element :: ((n.first.map (Dimension.element .typeDim1)).toList ++
      (n.second.map (Dimension.element .typeDim2)).toList))

/-- A declaration as an element. -/
def VarDecl.element (n : VarDecl) : Element :=
  .node .varDecl n.span
    (.leaf n.keyword :: n.type.element ::
      (Separated.interleave (fun t => [.leaf t]) .leaf n.names.items n.names.separators ++ [.leaf n.semicolon]))

/-- The declarations of a program or of a function as an element of the rule for either. -/
def VarDecls.element (rule : Rule) (n : VarDecls) : Element := .node rule n.span (n.decls.map VarDecl.element)

/-- A parameter as two elements. -/
def Param.elements (n : Param) : List Element := [n.type.element, .leaf n.name]

/-- A parameter list as an element. -/
def ParamList.element (n : ParamList) : Element :=
  .node .paramList n.span (Separated.interleave Param.elements .leaf n.params.items n.params.separators)

/-- An expression as an element without children. -/
def Expression.element (n : Expression) : Element := .node .expression n.span []

/-- A statement as an element. -/
def Statement.element (n : Statement) : Element := .node .statement n.span [n.expression.element, .leaf n.semicolon]

/-- A block as an element. -/
def Block.element (n : Block) : Element :=
  .node .block n.span (.leaf n.left :: (n.statements.map Statement.element ++ [.leaf n.right]))

/-- A function as an element. -/
def FunctionDecl.element (n : FunctionDecl) : Element :=
  .node .functionDecls n.span
    ([.leaf n.keyword, .leaf n.name, .leaf n.left] ++ (n.params.map ParamList.element).toList ++
      [.leaf n.right, n.locals.element .localVars, n.body.element])

/-- The functions of a program as an element. -/
def Functions.element (n : Functions) : Element := .node .functions n.span (n.decls.map FunctionDecl.element)

/-- The main block as an element. -/
def MainBlock.element (n : MainBlock) : Element := .node .main n.span [.leaf n.keyword, n.block.element]

/-- A program as an element. -/
def Program.element (n : Program) : Element :=
  .node .start n.span
    [.leaf n.keyword, .leaf n.name, .leaf n.colon, n.globals.element .globalVars, n.functions.element, n.main.element,
     .leaf n.eof]

/-- The terminals of a program that were taken, from left to right. -/
def Program.terminals (n : Program) : List Terminal := n.element.terminals

end QuillFrontEnd
