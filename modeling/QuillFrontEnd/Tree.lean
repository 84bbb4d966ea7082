import QuillFrontEnd.Token

/-!
# Parse trees

There is a type of node for each rule of the grammar (one for both kinds of declaration list, and one for both array
dimensions). A node holds the terminals and nodes of its phrase in order, and its span. The default value of each type is the node
of a phrase of which nothing has been read: its terminals are missing and its lists are empty.
-/

namespace QuillFrontEnd

/-- A terminal of a phrase: a token, or the mark that one is missing there. -/
structure Terminal extends Token where
  /-- Whether no token was taken for the terminal. -/
  missing : Bool
deriving DecidableEq

namespace Terminal

/-- The terminal of a token that was taken. -/
def ofToken (t : Token) : Terminal := { t with missing := false }

/-- The terminal of a kind that was put in before a token, without taking anything. -/
def inserted (kind : TokenKind) (before : Token) : Terminal where
  kind := kind
  lexeme := ""
  span := .point before.span.start
  position := before.position
  missing := true

/-- The terminal of a kind that was not reached. -/
def absent (kind : TokenKind) : Terminal where
  kind := kind
  lexeme := ""
  span := .zero
  position := .first
  missing := true

/-- The text of a terminal, unless it is missing. -/
def text? (t : Terminal) : Option String := if t.missing then none else some t.lexeme

end Terminal

/-- Items with separators between them: each separator comes after the item at its place. -/
structure Separated (α : Type) where
  items : List α := []
  separators : List Terminal := []
deriving DecidableEq

namespace Separated

variable {α β : Type}

/-- The items and separators by turns, beginning with an item; what is left of either comes at the end. -/
def interleave (item : α → List β) (separator : Terminal → β) : List α → List Terminal → List β
  | [], ss => ss.map separator
  | a :: as, [] => item a ++ interleave item separator as []
  | a :: as, s :: ss => item a ++ separator s :: interleave item separator as ss

/-- The items and separators by turns, beginning with an item; separators without an item before them are left out. -/
def pairUp (item : α → List β) (separator : Terminal → β) : List α → List Terminal → List β
  | [], _ => []
  | a :: as, [] => item a ++ pairUp item separator as []
  | a :: as, s :: ss => item a ++ separator s :: pairUp item separator as ss

end Separated

/-- The keyword of a type without dimensions. -/
structure BasicType where
  keyword : Terminal := .absent .numberType
  span : Span := .zero
deriving DecidableEq

/-- A size between brackets. -/
structure Extent where
  left : Terminal := .absent .leftBracket
  size : Terminal := .absent .integer
  right : Terminal := .absent .rightBracket
  span : Span := .zero
deriving DecidableEq

/-- The first or the second dimension of an array type. -/
structure Dimension where
  extent : Extent := {}
  span : Span := .zero
deriving DecidableEq

/-- A type: a basic type with up to two dimensions. -/
structure TypeSpec where
  basic : BasicType := {}
  first : Option Dimension := none
  second : Option Dimension := none
  span : Span := .zero
deriving DecidableEq

/-- A declaration of variables of one type. -/
structure VarDecl where
  keyword : Terminal := .absent .var
  type : TypeSpec := {}
  names : Separated Terminal := {}
  semicolon : Terminal := .absent .semicolon
  span : Span := .zero
deriving DecidableEq

/-- The declarations of a program or of a function. -/
structure VarDecls where
  decls : List VarDecl := []
  span : Span := .zero
deriving DecidableEq

/-- A parameter: a basic type and a name. It is part of its parameter list and no phrase of its own. -/
structure Param where
  type : BasicType := {}
  name : Terminal := .absent .identifier
deriving DecidableEq

/-- The parameters of a function. -/
structure ParamList where
  params : Separated Param := {}
  span : Span := .zero
deriving DecidableEq

/-- An expression, which is always empty: the node only says where it is. -/
structure Expression where
  span : Span := .zero
deriving DecidableEq

/-- A statement: an expression and a semicolon. -/
structure Statement where
  expression : Expression := {}
  semicolon : Terminal := .absent .semicolon
  span : Span := .zero
deriving DecidableEq

/-- Statements between braces. -/
structure Block where
  left : Terminal := .absent .leftBrace
  statements : List Statement := []
  right : Terminal := .absent .rightBrace
  span : Span := .zero
deriving DecidableEq

/-- A declaration of a function. -/
structure FunctionDecl where
  keyword : Terminal := .absent .function
  name : Terminal := .absent .identifier
  left : Terminal := .absent .leftParen
  params : Option ParamList := none
  right : Terminal := .absent .rightParen
  locals : VarDecls := {}
  body : Block := {}
  span : Span := .zero
deriving DecidableEq

/-- The functions of a program. -/
structure Functions where
  decls : List FunctionDecl := []
  span : Span := .zero
deriving DecidableEq

/-- The main block of a program. -/
structure MainBlock where
  keyword : Terminal := .absent .main
  block : Block := {}
  span : Span := .zero
deriving DecidableEq

/-- A whole program. -/
structure Program where
  keyword : Terminal := .absent .program
  name : Terminal := .absent .identifier
  colon : Terminal := .absent .colon
  globals : VarDecls := {}
  functions : Functions := {}
  main : MainBlock := {}
  eof : Terminal := .absent .endOfInput
  span : Span := .zero
deriving DecidableEq

/-- The sizes of the dimensions of a type that were written, the first dimension first. -/
def TypeSpec.sizes (t : TypeSpec) : List String :=
  (t.first.toList ++ t.second.toList).filterMap fun d => d.extent.size.text?

/-- The names in a declaration that were written. -/
def VarDecl.nameTexts (d : VarDecl) : List String := d.names.items.filterMap Terminal.text?

/-- The parameters of a function, of which there are none where the list was left out. -/
def FunctionDecl.paramItems (f : FunctionDecl) : List Param :=
  match f.params with
  | some list => list.params.items
  | none => []

end QuillFrontEnd
