import QuillFrontEnd.Parser.Step

/-!
# The rules as readers

For each rule of the grammar there is a reader of its phrases. Each follows the production of its rule from left to right; beside
each terminal stand the kinds of token before which the terminal may be put in if it is missing.
-/

namespace QuillFrontEnd.Parser

instance : Node BasicType where
  withSpan span n := { n with span }

instance : Node Extent where
  withSpan span n := { n with span }

instance : Node Dimension where
  withSpan span n := { n with span }

instance : Node TypeSpec where
  withSpan span n := { n with span }

instance : Node VarDecl where
  withSpan span n := { n with span }
  close terminator n := { n with semicolon := terminator }

instance : Node VarDecls where
  withSpan span n := { n with span }

instance : Node ParamList where
  withSpan span n := { n with span }

instance : Node Expression where
  withSpan span n := { n with span }

instance : Node Statement where
  withSpan span n := { n with span }
  close terminator n := { n with semicolon := terminator }

instance : Node Block where
  withSpan span n := { n with span }
  close terminator n := { n with right := terminator }

instance : Node FunctionDecl where
  withSpan span n := { n with span }

instance : Node Functions where
  withSpan span n := { n with span }

instance : Node MainBlock where
  withSpan span n := { n with span }

instance : Node Program where
  withSpan span n := { n with span }

/-! ## Types and declarations -/

/-- Reads a basic type: the keyword that the table says to take. -/
def basicType (table : Table) : Reader BasicType :=
  phrase .basicType {} fun n s =>
    match table.action .basicType s.nextKind with
    | .take _ => ⟨{ n with keyword := .ofToken s.lookahead }, .matched, s.shift⟩
    | _ =>
      let d := Diagnostic.unexpected s.lookahead (table.expected .basicType).phrase
      ⟨n, .mismatched, s.mismatch (d.noting Rule.basicType.context)⟩

/-- Reads a size between brackets. -/
def extent : Reader Extent :=
  phrase .dimDecl {} <| sequence [
    terminal .dimDecl .leftBracket (.single .integer) fun n t => { n with left := t },
    terminal .dimDecl .integer (.single .rightBracket) fun n t => { n with size := t },
    terminal .dimDecl .rightBracket Rule.dimDecl.follow fun n t => { n with right := t }]

/-- Reads a dimension by one of the two rules for dimensions. -/
def dimension (rule : Rule) : Reader Dimension :=
  phrase rule {} <| child extent fun n e => { n with extent := e }

/-- The diagnostic of a dimension after the second. -/
def extraDimension (t : Token) : Diagnostic :=
  ((((Diagnostic.ofCode .tooManyDimensions).saying "too many array dimensions").blaming t).expecting
    TokenKind.identifier.displayName).noting "arrays have at most two dimensions"

/-- The step after the second dimension: another dimension is an error. -/
def noExtraDimension (table : Table) : Step TypeSpec := fun n s =>
  match table.action .thirdDimension s.nextKind with
  | .reject => ⟨n, .mismatched, s.mismatch (extraDimension s.lookahead)⟩
  | _ => ⟨n, .matched, s⟩

/-- Reads a type. -/
def typeSpec (table : Table) : Reader TypeSpec :=
  phrase .type {} <| sequence [
    child (basicType table) fun n b => { n with basic := b },
    whenDescends table .firstDimension [
      child (dimension .typeDim1) fun n d => { n with first := some d },
      whenDescends table .secondDimension [
        child (dimension .typeDim2) fun n d => { n with second := some d },
        noExtraDimension table]]]

/-- Reads a name in a declaration, which a comma or semicolon may follow. -/
def declaredName : Reader (List Terminal) := fun s =>
  terminal .varDecl .identifier (.ofList [.comma, .semicolon]) (fun _ t => [t]) [] s

/-- Reads a declaration. -/
def varDecl (table : Table) : Reader VarDecl :=
  phrase .varDecl {} <| sequence [
    terminal .varDecl .var Rule.type.first fun n t => { n with keyword := t },
    child (typeSpec table) fun n t => { n with type := t },
    child (separated table .moreNames declaredName) fun n names => { n with names },
    terminal .varDecl .semicolon Rule.varDecl.follow fun n t => { n with semicolon := t }]

/-- Reads the declarations of a program. -/
def globalVars (table : Table) : Reader VarDecls :=
  phrase .globalVars {} <| child (many table .moreGlobals (varDecl table)) fun n decls => { n with decls }

/-- Reads the declarations of a function. -/
def localVars (table : Table) : Reader VarDecls :=
  phrase .localVars {} <| child (many table .moreLocals (varDecl table)) fun n decls => { n with decls }

/-! ## Blocks -/

/-- Reads an expression, which is empty. -/
def expression : Reader Expression := phrase .expression {} <| sequence []

/-- Reads a statement. -/
def statement : Reader Statement :=
  phrase .statement {} <| sequence [
    child expression fun n e => { n with expression := e },
    terminal .statement .semicolon Rule.statement.follow fun n t => { n with semicolon := t }]

/-- Reads a block. -/
def block (table : Table) : Reader Block :=
  phrase .block {} <| sequence [
    terminal .block .leftBrace (Rule.statement.first.insert .rightBrace) fun n t => { n with left := t },
    child (many table .moreStatements statement) fun n statements => { n with statements },
    terminal .block .rightBrace Rule.block.follow fun n t => { n with right := t }]

/-! ## Functions -/

/-- Reads a parameter, whose name a comma or a closing parenthesis may follow. -/
def param (table : Table) : Reader Param :=
  sequence [
    child (basicType table) fun n b => { n with type := b },
    terminal .paramList .identifier (.ofList [.comma, .rightParen]) fun n t => { n with name := t }] {}

/-- Reads a parameter as the only item of a list. -/
def paramItem (table : Table) : Reader (List Param) := child (param table) (fun _ p => [p]) []

/-- Reads a parameter list. -/
def paramList (table : Table) : Reader ParamList :=
  phrase .paramList {} <| child (separated table .moreParams (paramItem table)) fun n params => { n with params }

/-- Reads a function. -/
def functionDecl (table : Table) : Reader FunctionDecl :=
  phrase .functionDecls {} <| sequence [
    terminal .functionDecls .function (.single .identifier) fun n t => { n with keyword := t },
    terminal .functionDecls .identifier (.single .leftParen) fun n t => { n with name := t },
    terminal .functionDecls .leftParen (.ofList [.numberType, .booleanType, .rightParen]) fun n t => { n with left := t },
    optional table .anyParams (child (paramList table) fun n ps => { n with params := some ps }),
    terminal .functionDecls .rightParen (.ofList [.var, .leftBrace]) fun n t => { n with right := t },
    child (localVars table) fun n vs => { n with locals := vs },
    child (block table) fun n b => { n with body := b }]

/-- Reads the functions of a program. -/
def functions (table : Table) : Reader Functions :=
  phrase .functions {} <| child (many table .moreFunctions (functionDecl table)) fun n decls => { n with decls }

/-! ## Programs -/

/-- Reads the main block. -/
def mainBlock (table : Table) : Reader MainBlock :=
  phrase .main {} <| sequence [
    terminal .main .main Rule.block.first fun n t => { n with keyword := t },
    child (block table) fun n b => { n with block := b }]

/-- The terminals of the header of a program. -/
def headerSteps : List (Step Program) := [
  terminal .start .program (.single .identifier) fun n t => { n with keyword := t },
  terminal .start .identifier (.single .colon) fun n t => { n with name := t },
  terminal .start .colon headerRestarts fun n t => { n with colon := t }]

/-- Goes on after an error in the header of a program: tokens are dropped up to the first declaration, function or block. If there
is none, the parse gives up. -/
def restart : Step Program := fun n s =>
  let s := s.dropWhile fun k => !headerRestarts.contains k
  if s.nextKind ∈ headerRestarts then ⟨n, .matched, s.resume⟩ else ⟨n, .outOfInput, s.abandon .start⟩

/-- The step that reads the header of a program, or goes on after it. -/
def header : Step Program := fun n s =>
  let o := sequence headerSteps n s
  match o.verdict with
  | .mismatched => restart o.node o.state
  | _ => o

/-- The step that reads the main block of a program. An error that the main block does not recover from is at the end of the
input, and there the parse gives up. -/
def mainStep (table : Table) : Step Program := fun n s =>
  let o := child (mainBlock table) (fun n m => { n with main := m }) n s
  match o.verdict with
  | .mismatched => ⟨o.node, .outOfInput, o.state.abandon .main⟩
  | _ => o

/-- The diagnostic of the first token after the main block. -/
def trailingInput (t : Token) : Diagnostic :=
  ((((Diagnostic.ofCode .trailingInput).saying "unexpected input after the main block").blaming t).expecting
    TokenKind.endOfInput.displayName).noting "a program ends with its main block"

/-- The step after the main block: what is left of the input is reported and dropped. -/
def nothingLeft : Step Program := fun n s =>
  if s.lookahead.isEnd then ⟨n, .matched, s⟩
  else ⟨n, .matched, ((s.mismatch (trailingInput s.lookahead)).dropWhile fun _ => true).resume⟩

/-- The parts of a program up to the end of the input. -/
def programSteps (table : Table) : List (Step Program) := [
  header,
  child (globalVars table) fun n vs => { n with globals := vs },
  child (functions table) fun n fs => { n with functions := fs },
  mainStep table,
  nothingLeft]

/-- Reads a program up to the end of the input, which is taken into the tree whatever came before it. -/
def program (table : Table) : Reader Program :=
  phrase .start {} fun n s =>
    let o := sequence (programSteps table) n s
    ⟨{ o.node with eof := .ofToken o.state.lookahead }, o.verdict, o.state.shift⟩

end QuillFrontEnd.Parser
