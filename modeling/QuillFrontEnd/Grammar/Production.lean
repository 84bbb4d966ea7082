import QuillFrontEnd.Grammar.Rule

/-!
# The language of the grammar

The production of a rule is a pattern of tokens and phrases, and `Derives` says which sequences of kinds a pattern stands for. The
programs of the language are the sequences that the start rule derives. The parser is not mentioned here: this is the language
that it is there to read.
-/

namespace QuillFrontEnd

/-- The right-hand side of a production. -/
inductive Pattern where
  /-- A token of a kind. -/
  | token (kind : TokenKind)
  /-- A phrase of a rule. -/
  | phrase (rule : Rule)
  /-- Nothing. -/
  | empty
  /-- One pattern and then another. -/
  | append (p q : Pattern)
  /-- One of two patterns. -/
  | either (p q : Pattern)
  /-- A pattern any number of times. -/
  | repeated (p : Pattern)
deriving DecidableEq

namespace Pattern

/-- The patterns of a list, one after the other. -/
def inOrder : List Pattern → Pattern
  | [] => empty
  | [p] => p
  | p :: ps => append p (inOrder ps)

/-- A pattern, or nothing. -/
def optional (p : Pattern) : Pattern := either p empty

end Pattern

open Pattern in
/-- The production of a rule. -/
def Rule.production : Rule → Pattern
  | .start =>
    inOrder [token .program, token .identifier, token .colon, phrase .globalVars, phrase .functions, phrase .main,
      token .endOfInput]
  | .globalVars => repeated (phrase .varDecl)
  | .varDecl =>
    inOrder [token .var, phrase .type, token .identifier, repeated (append (token .comma) (token .identifier)),
      token .semicolon]
  | .type => inOrder [phrase .basicType, optional (phrase .typeDim1), optional (phrase .typeDim2)]
  | .basicType => either (token .numberType) (token .booleanType)
  | .typeDim1 => phrase .dimDecl
  | .typeDim2 => phrase .dimDecl
  | .dimDecl => inOrder [token .leftBracket, token .integer, token .rightBracket]
  | .functions => repeated (phrase .functionDecls)
  | .functionDecls =>
    inOrder [token .function, token .identifier, token .leftParen, optional (phrase .paramList), token .rightParen,
      phrase .localVars, phrase .block]
  | .paramList =>
    inOrder [phrase .basicType, token .identifier,
      repeated (inOrder [token .comma, phrase .basicType, token .identifier])]
  | .localVars => repeated (phrase .varDecl)
  | .block => inOrder [token .leftBrace, repeated (phrase .statement), token .rightBrace]
  | .statement => inOrder [phrase .expression, token .semicolon]
  | .expression => empty
  | .main => inOrder [token .main, phrase .block]

/-- The sequences of kinds that a pattern stands for. -/
inductive Derives : Pattern → List TokenKind → Prop where
  | token (k : TokenKind) : Derives (.token k) [k]
  | phrase {r : Rule} {w : List TokenKind} : Derives r.production w → Derives (.phrase r) w
  | empty : Derives .empty []
  | append {p q : Pattern} {u v : List TokenKind} : Derives p u → Derives q v → Derives (.append p q) (u ++ v)
  | left {p q : Pattern} {w : List TokenKind} : Derives p w → Derives (.either p q) w
  | right {p q : Pattern} {w : List TokenKind} : Derives q w → Derives (.either p q) w
  | none {p : Pattern} : Derives (.repeated p) []
  | more {p : Pattern} {u v : List TokenKind} : Derives p u → Derives (.repeated p) v → Derives (.repeated p) (u ++ v)

/-- A sequence of kinds that is a program, with the end of the input as its last kind. -/
def IsProgram (w : List TokenKind) : Prop := Derives (.phrase .start) w

end QuillFrontEnd
