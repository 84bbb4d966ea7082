import QuillFrontEnd.Parser
import QuillFrontEnd.Text.Blank
import QuillFrontEnd.Text.Layout

/-!
# Descriptions of results

The token dump lists the tokens of a text, one on a line. The summary says in a few lines what a parse has found.
-/

namespace QuillFrontEnd

/-- The line of a token in a dump: position, kind and text in columns, without blanks at the end. -/
def Token.dumpLine (t : Token) : String :=
  let line := "  " ++ Text.padRight 8 t.position.text ++ " " ++ Text.padRight 12 t.kind.name ++ " " ++ t.lexeme
  String.ofList (Text.trimEnd line.toList) ++ "\n"

/-- The dump of the tokens of the text at a path: a headline, and a line for each token. -/
def TokenList.dump (path : String) (ts : TokenList) : String :=
  "Tokens for '" ++ path ++ "' (" ++ ts.size.repr ++ " tokens):\n" ++ String.join (ts.toList.map Token.dumpLine)

/-- A function in a summary: its name and the names of its parameters, with an underscore for a missing name. -/
def FunctionDecl.signature (f : FunctionDecl) : String :=
  let params := f.paramItems.map fun p => p.name.text?.getD "_"
  f.name.text?.getD "_" ++ "(" ++ ", ".intercalate params ++ ")"

namespace ParseOutput

/-- How a parse ended, in words. -/
def statusText (o : ParseOutput) : String :=
  if o.isFatal then "stopped at an unrecoverable error"
  else if o.hasErrors then "completed with errors"
  else "completed"

/-- The functions of a program in a summary. -/
def functionsText (o : ParseOutput) : String :=
  match o.tree.functions.decls with
  | [] => "none"
  | decls => ", ".intercalate (decls.map FunctionDecl.signature)

/-- The number of variables that the global declarations name. -/
def globalCount (o : ParseOutput) : Nat := (o.tree.globals.decls.flatMap fun d => d.names.items).length

/-- The summary of the parse of the text at a path. -/
def summary (path : String) (o : ParseOutput) : String :=
  "Parse result for '" ++ path ++ "':\n" ++
  "  Program: " ++ o.tree.name.text?.getD "<missing>" ++ "\n" ++
  "  Globals: " ++ o.tree.globals.decls.length.repr ++ " declarations (" ++ o.globalCount.repr ++ " variables)\n" ++
  "  Functions: " ++ o.functionsText ++ "\n" ++
  "  Main statements: " ++ o.tree.main.block.statements.length.repr ++ "\n" ++
  "  Tokens: " ++ o.consumed.repr ++ " (" ++ o.skipped.length.repr ++ " skipped)\n" ++
  "  Status: " ++ o.statusText ++ "\n" ++
  "note: statements are bare `;`; expressions are always empty\n"

end ParseOutput

end QuillFrontEnd
