import QuillFrontEnd.Tree
import QuillFrontEnd.Grammar.Rule

/-!
# Visiting a tree

A visit of a node passes through its phrase from left to right: it enters the node, then visits its parts and meets its
terminals, with those that are missing. A visit meets a separator only together with the item before it, and goes through the
dimension of an array type without entering it.
-/

namespace QuillFrontEnd

/-- What a visit meets: a node that it enters, or a terminal. -/
inductive Visit where
  | enter (rule : Rule) (span : Span)
  | terminal (terminal : Terminal)

/-- The visit of a basic type. -/
def BasicType.visits (n : BasicType) : List Visit := [.enter .basicType n.span, .terminal n.keyword]

/-- The visit of a size between brackets. -/
def Extent.visits (n : Extent) : List Visit :=
  [.enter .dimDecl n.span, .terminal n.left, .terminal n.size, .terminal n.right]

/-- The visit of a type. -/
def TypeSpec.visits (n : TypeSpec) : List Visit :=
  .enter .type n.span :: (n.basic.visits ++ (n.first.toList ++ n.second.toList).flatMap fun d => d.extent.visits)

/-- The visit of a declaration. -/
def VarDecl.visits (n : VarDecl) : List Visit :=
  .enter .varDecl n.span :: .terminal n.keyword :: (n.type.visits ++
    Separated.pairUp (fun t => [.terminal t]) .terminal n.names.items n.names.separators ++ [.terminal n.semicolon])

/-- The visit of the declarations of a program or of a function. -/
def VarDecls.visits (rule : Rule) (n : VarDecls) : List Visit := .enter rule n.span :: n.decls.flatMap VarDecl.visits

/-- The visit of a parameter. -/
def Param.visits (n : Param) : List Visit := n.type.visits ++ [.terminal n.name]

/-- The visit of a parameter list. -/
def ParamList.visits (n : ParamList) : List Visit :=
  .enter .paramList n.span :: Separated.pairUp Param.visits .terminal n.params.items n.params.separators

/-- The visit of an expression. -/
def Expression.visits (n : Expression) : List Visit := [.enter .expression n.span]

/-- The visit of a statement. -/
def Statement.visits (n : Statement) : List Visit :=
  .enter .statement n.span :: (n.expression.visits ++ [.terminal n.semicolon])

/-- The visit of a block. -/
def Block.visits (n : Block) : List Visit :=
  .enter .block n.span :: .terminal n.left :: (n.statements.flatMap Statement.visits ++ [.terminal n.right])

/-- The visit of a function. -/
def FunctionDecl.visits (n : FunctionDecl) : List Visit :=
  [.enter .functionDecls n.span, .terminal n.keyword, .terminal n.name, .terminal n.left] ++
    n.params.toList.flatMap ParamList.visits ++ [.terminal n.right] ++ n.locals.visits .localVars ++ n.body.visits

/-- The visit of the functions of a program. -/
def Functions.visits (n : Functions) : List Visit := .enter .functions n.span :: n.decls.flatMap FunctionDecl.visits

/-- The visit of the main block. -/
def MainBlock.visits (n : MainBlock) : List Visit := .enter .main n.span :: .terminal n.keyword :: n.block.visits

/-- The visit of a program. -/
def Program.visits (n : Program) : List Visit :=
  [.enter .start n.span, .terminal n.keyword, .terminal n.name, .terminal n.colon] ++ n.globals.visits .globalVars ++
    n.functions.visits ++ n.main.visits ++ [.terminal n.eof]

namespace Visit

/-- The terminals that a visit meets. -/
def terminals (vs : List Visit) : List Terminal :=
  vs.filterMap fun
    | terminal t => some t
    | enter _ _ => none

/-- The nodes of a rule that a visit enters. -/
def countOf (rule : Rule) (vs : List Visit) : Nat :=
  vs.countP fun
    | terminal _ => false
    | enter r _ => r == rule

end Visit

end QuillFrontEnd
