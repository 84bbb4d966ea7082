import QuillFrontEnd.Token.KindSet

/-!
# The rules of the grammar

```
start          := 'program' ID ':' global_vars functions main EOF
global_vars    := var_decl*
var_decl       := 'var' type ID (',' ID)* ';'
type           := basic_type type_dim_1? type_dim_2?
basic_type     := 'number' | 'boolean'
type_dim_1     := dim_decl
type_dim_2     := dim_decl
dim_decl       := '[' NUM_CTE ']'
functions      := function_decls*
function_decls := 'function' ID '(' param_list? ')' local_vars block
param_list     := basic_type ID (',' basic_type ID)*
local_vars     := var_decl*
block          := '{' statement* '}'
statement      := expression ';'
expression     := (empty)
main           := 'main' block
```

For each rule this module also has the kinds of token that its phrases can start with and be followed by, and whether a phrase
of it can be empty.
-/

namespace QuillFrontEnd

/-- A rule of the grammar. -/
inductive Rule where
  | start | globalVars | varDecl | type | basicType | typeDim1 | typeDim2 | dimDecl
  | functions | functionDecls | paramList | localVars | block | statement | expression | main
deriving DecidableEq

namespace Rule

/-- Every rule, in the order of the grammar. -/
def all : List Rule :=
  [start, globalVars, varDecl, type, basicType, typeDim1, typeDim2, dimDecl,
   functions, functionDecls, paramList, localVars, block, statement, expression, main]

/-- The place of a rule in `all`, counted from 0. -/
def index (r : Rule) : Nat := all.idxOf r

/-- The name of a rule in the grammar. -/
def name : Rule → String
  | start => "start"
  | globalVars => "global_vars"
  | varDecl => "var_decl"
  | type => "type"
  | basicType => "basic_type"
  | typeDim1 => "type_dim_1"
  | typeDim2 => "type_dim_2"
  | dimDecl => "dim_decl"
  | functions => "functions"
  | functionDecls => "function_decls"
  | paramList => "param_list"
  | localVars => "local_vars"
  | block => "block"
  | statement => "statement"
  | expression => "expression"
  | main => "main"

/-- What a phrase of a rule is called in a sentence. -/
def description : Rule → String
  | start => "a program"
  | globalVars => "global variable declarations"
  | varDecl => "a variable declaration"
  | type => "a type"
  | basicType => "a basic type"
  | typeDim1 => "the first array dimension"
  | typeDim2 => "the second array dimension"
  | dimDecl => "an array dimension"
  | functions => "function declarations"
  | functionDecls => "a function declaration"
  | paramList => "a parameter list"
  | localVars => "local variable declarations"
  | block => "a block"
  | statement => "a statement"
  | expression => "an expression"
  | main => "the main block"

/-- The note of a diagnostic that arose in a rule. -/
def context (r : Rule) : String := "while parsing " ++ r.description

/-- The kinds of token that a phrase of a rule can start with. -/
def first : Rule → KindSet
  | start => .single .program
  | globalVars | varDecl | localVars => .single .var
  | type | basicType | paramList => .ofList [.numberType, .booleanType]
  | typeDim1 | typeDim2 | dimDecl => .single .leftBracket
  | functions | functionDecls => .single .function
  | block => .single .leftBrace
  | statement => .single .semicolon
  | expression => .empty
  | main => .single .main

/-- Whether a phrase of a rule can be empty. -/
def nullable : Rule → Bool
  | globalVars | functions | localVars | expression => true
  | _ => false

/-- The kinds of token that can come directly after a phrase of a rule in a program. -/
def follow : Rule → KindSet
  | start | main => .single .endOfInput
  | globalVars => .ofList [.function, .main]
  | varDecl => .ofList [.var, .function, .main, .leftBrace]
  | type | typeDim2 => .single .identifier
  | basicType | typeDim1 | dimDecl => .ofList [.leftBracket, .identifier]
  | functions => .single .main
  | functionDecls => .ofList [.function, .main]
  | paramList => .single .rightParen
  | localVars => .single .leftBrace
  | block => .ofList [.function, .main, .endOfInput]
  | statement => .ofList [.semicolon, .rightBrace]
  | expression => .single .semicolon

end Rule

end QuillFrontEnd
