import QuillFrontEnd.Report.Style

/-!
# Options of a command

The arguments after the name of a command are flags, which may stand anywhere, and paths of files.
-/

namespace QuillFrontEnd

/-- A command line that cannot be understood. -/
inductive UsageError where
  | invalidColorMode (value : String)
  | unknownOption (argument : String)
  | notOneFile (command : String)
  | unknownCommand (command : String)
deriving DecidableEq

/-- The sentence that reports a command line that cannot be understood. -/
def UsageError.message : UsageError → String
  | .invalidColorMode value => "invalid color mode '" ++ value ++ "' (expected auto, always or never)"
  | .unknownOption argument => "unknown option '" ++ argument ++ "'"
  | .notOneFile command => "`quill " ++ command ++ "` takes one file (use `quill check` for several)"
  | .unknownCommand command => "unknown command '" ++ command ++ "'"

/-- What the arguments of a command ask for. -/
structure Options where
  color : ColorMode := .auto
  /-- Whether only diagnostics are printed. -/
  quiet : Bool := false
  /-- Whether the outline of the tree is printed. -/
  tree : Bool := false
  files : List String := []
deriving DecidableEq

namespace Options

/-- What one argument says. -/
inductive Argument where
  | color (mode : ColorMode)
  | quiet
  | tree
  | file (path : String)
deriving DecidableEq

/-- How an argument that chooses a colour mode begins. -/
def colorFlag : List Char := "--color=".toList

/-- What an argument says. A lone dash is a path, like everything that does not begin with a dash. -/
def readArgument (argument : String) : Except UsageError Argument :=
  let cs := argument.toList
  if colorFlag.isPrefixOf cs then
    let value := String.ofList (cs.drop colorFlag.length)
    match ColorMode.ofFlag? value with
    | some mode => .ok (.color mode)
    | none => .error (.invalidColorMode value)
  else if argument = "--quiet" ∨ argument = "-q" then .ok .quiet
  else if argument = "--tree" then .ok .tree
  else if cs.head? = some '-' ∧ 1 < cs.length then .error (.unknownOption argument)
  else .ok (.file argument)

/-- The options with what one argument says. -/
def apply (o : Options) : Argument → Options
  | .color mode => { o with color := mode }
  | .quiet => { o with quiet := true }
  | .tree => { o with tree := true }
  | .file path => { o with files := o.files ++ [path] }

/-- The file that is read where no file is named. -/
def defaultFile : String := "input.txt"

/-- Adds what the arguments say to options, one after the other, up to the first that cannot be understood. -/
def applyAll : Options → List String → Except UsageError Options
  | o, [] => .ok o
  | o, argument :: arguments =>
    match readArgument argument with
    | .ok said => applyAll (o.apply said) arguments
    | .error e => .error e

/-- The options that the arguments of a command ask for. -/
def ofArguments (arguments : List String) : Except UsageError Options :=
  match applyAll {} arguments with
  | .ok o => .ok (if o.files.isEmpty then { o with files := [defaultFile] } else o)
  | .error e => .error e

/-- The file of a command that takes one file. -/
def singleFile (o : Options) (command : String) : Except UsageError String :=
  match o.files with
  | [path] => .ok path
  | _ => .error (.notOneFile command)

end Options

end QuillFrontEnd
