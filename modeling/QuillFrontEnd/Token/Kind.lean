/-!
# Kinds of token

The nineteen kinds of token: six keywords, nine punctuation marks, identifiers, integer constants, invalid text, and the end
of the input. `TokenKind.all` fixes their order, which is also the order in which sets of kinds are listed.
-/

namespace QuillFrontEnd

/-- What a token is, apart from its text. -/
inductive TokenKind where
  | program | var | numberType | booleanType | function | main
  | colon | comma | semicolon | leftBracket | rightBracket | leftParen | rightParen | leftBrace | rightBrace
  | identifier | integer | invalid | endOfInput
deriving DecidableEq

namespace TokenKind

/-- Every kind, in order. -/
def all : List TokenKind :=
  [program, var, numberType, booleanType, function, main,
   colon, comma, semicolon, leftBracket, rightBracket, leftParen, rightParen, leftBrace, rightBrace,
   identifier, integer, invalid, endOfInput]

theorem mem_all (k : TokenKind) : k ∈ all := by cases k <;> decide

/-- The place of a kind in `all`, counted from 0. -/
def index (k : TokenKind) : Nat := all.idxOf k

/-- The kind at a place of `all`, if there is one. -/
def ofIndex? (i : Nat) : Option TokenKind := all[i]?

theorem ofIndex?_index (k : TokenKind) : ofIndex? k.index = some k := by cases k <;> decide

/-- The short name of a kind that token lists and tree outlines show. -/
def name : TokenKind → String
  | program => "Program"
  | var => "Var"
  | numberType => "NumberType"
  | booleanType => "BooleanType"
  | function => "Function"
  | main => "Main"
  | colon => "Colon"
  | comma => "Comma"
  | semicolon => "Semicolon"
  | leftBracket => "LBracket"
  | rightBracket => "RBracket"
  | leftParen => "LParen"
  | rightParen => "RParen"
  | leftBrace => "LBrace"
  | rightBrace => "RBrace"
  | identifier => "Ident"
  | integer => "Int"
  | invalid => "Error"
  | endOfInput => "Eof"

/-- The kinds that are reserved words. -/
def isKeyword : TokenKind → Bool
  | program | var | numberType | booleanType | function | main => true
  | _ => false

/-- The text of every token of a kind, for the kinds whose tokens all have the same text. -/
def spelling? : TokenKind → Option String
  | program => some "program"
  | var => some "var"
  | numberType => some "number"
  | booleanType => some "boolean"
  | function => some "function"
  | main => some "main"
  | colon => some ":"
  | comma => some ","
  | semicolon => some ";"
  | leftBracket => some "["
  | rightBracket => some "]"
  | leftParen => some "("
  | rightParen => some ")"
  | leftBrace => some "\x7b"
  | rightBrace => some "\x7d"
  | identifier | integer | invalid | endOfInput => none

/-- What a kind without a fixed spelling is called in a sentence. -/
def category : TokenKind → String
  | identifier => "identifier"
  | integer => "integer constant"
  | invalid => "invalid token"
  | endOfInput => "end of input"
  | _ => "token"

/-- The spelling of a kind, or what it is called where it has none. -/
def friendlyName (k : TokenKind) : String := k.spelling?.getD k.category

/-- Whether all tokens of a kind have the same text. -/
def hasFixedSpelling (k : TokenKind) : Bool := k.spelling?.isSome

/-- A kind as it stands in a sentence: a fixed spelling is put between backticks. -/
def displayName (k : TokenKind) : String :=
  match k.spelling? with
  | some spelling => "`" ++ spelling ++ "`"
  | none => k.category

/-- A shortest text of a token of a kind: its spelling, or one character that lexes to that kind. -/
def sample : TokenKind → String
  | identifier => "x"
  | integer => "0"
  | invalid => "?"
  | endOfInput => ""
  | k => k.friendlyName

end TokenKind

end QuillFrontEnd
