import QuillFrontEnd.Analysis
import QuillFrontEnd.Command.Directory
import QuillFrontEnd.Command.Options
import QuillFrontEnd.Report
import QuillFrontEnd.Summary
import QuillFrontEnd.Tree.Outline

/-!
# Commands

A command line is run in surroundings that say how files are read and whether there is a terminal. Running it gives what is
written to the two outputs and the exit status.
-/

namespace QuillFrontEnd

namespace Command

/-- What a command finds around it. -/
structure Surroundings where
  /-- Reads the bytes of the file at a path. -/
  read : String → Except ReadError ByteArray
  /-- Whether diagnostics go to a terminal. -/
  terminal : Bool
  /-- The value of the variable that asks for no colours, if it is set. -/
  noColor : Option String

/-- What running a command gives. -/
structure Transcript where
  code : Nat
  output : String
  errors : String
deriving DecidableEq

/-- Why a command did not do its work, apart from what is wrong with its input. -/
inductive Failure where
  | unreadable (path : String) (cause : ReadError)
  | tooLarge (path : String) (cause : SpanError)
  | usage (cause : UsageError)
  | incomplete (failed total : Nat)
deriving DecidableEq

namespace Failure

/-- The sentence that reports a failure. -/
def message : Failure → String
  | unreadable path cause => cause.message path
  | tooLarge path cause => "'" ++ path ++ "' is too large to parse (" ++ cause.message ++ ")"
  | usage cause => cause.message
  | incomplete failed total => failed.repr ++ " of " ++ total.repr ++ " files could not be checked"

/-- The line that reports a failure. -/
def line (f : Failure) : String := "error: " ++ f.message ++ "\n"

/-- The advice after a command line that cannot be understood; other failures have none. -/
def advice : Failure → String
  | usage _ => "\nRun `quill help` for usage.\n"
  | _ => ""

/-- The transcript of a command that failed after writing to the outputs. -/
def transcript (f : Failure) (output errors : String) : Transcript := ⟨2, output, errors ++ f.line ++ f.advice⟩

end Failure

/-- Whether a report is painted in colours. A variable with an empty value does not count as set. -/
def Surroundings.colors (env : Surroundings) (o : Options) : Bool :=
  o.color.colors env.terminal (env.noColor.any fun value => value != "")

/-- The source file at a path: its bytes have to be a text in UTF-8. -/
def Surroundings.source (env : Surroundings) (path : String) : Except Failure SourceFile :=
  match env.read path with
  | .error e => .error (.unreadable path e)
  | .ok bytes =>
    match String.fromUTF8? bytes with
    | some text => .ok ⟨path, text⟩
    | none => .error (.unreadable path .invalidText)

/-- The analysis of a source file. -/
def analyzeFile (file : SourceFile) : Except Failure Analysis := (analyze file.text).mapError (.tooLarge file.path)

/-- The painted report of an analysed file. -/
def analysisReport (colors : Bool) (file : SourceFile) (a : Analysis) : String :=
  Report.paint colors (Report.ofFile file a.diagnostics a.errorCount a.warningCount)

/-- The `lex` command: prints the token dump of a file and reports its invalid characters. -/
def runLex (env : Surroundings) (o : Options) : Except Failure Transcript := do
  let path ← (o.singleFile "lex").mapError .usage
  let file ← env.source path
  let lexed ← (lex file.text).mapError (.tooLarge path)
  let queue := (Queue.empty .standard).addAll lexed.diagnostics
  return {
    code := (Status.ofErrorCount queue.errorCount).exitCode
    output := if o.quiet then "" else lexed.tokens.dump path
    errors := Report.paint (env.colors o) (Report.ofFile file queue.sorted queue.errorCount queue.warningCount) }

/-- What the `parse` command prints of an analysed file: the summary and, if asked for, the outline of the tree. -/
def parseText (o : Options) (path : String) (a : Analysis) : String :=
  if o.quiet then ""
  else a.parse.summary path ++ if o.tree then "\n" ++ a.parse.tree.outline else ""

/-- The `parse` command: prints the summary of a file and reports its errors. -/
def runParse (env : Surroundings) (o : Options) : Except Failure Transcript := do
  let path ← (o.singleFile "parse").mapError .usage
  let file ← env.source path
  let a ← analyzeFile file
  return ⟨a.status.exitCode, parseText o path a, analysisReport (env.colors o) file a⟩

/-- What the `check` command writes for one file, and the status of that file; there is none for a file that could not be
analysed. -/
structure CheckedFile where
  status : Option Status
  output : String
  errors : String
deriving DecidableEq

/-- Checks one file: a clean file is confirmed, the errors of any other are reported. -/
def checkFile (env : Surroundings) (o : Options) (path : String) : CheckedFile :=
  match env.source path >>= fun file => (analyzeFile file).map (file, ·) with
  | .error f => ⟨none, "", f.line⟩
  | .ok (file, a) =>
    let confirmation := if a.status = .clean && !o.quiet then "OK: " ++ path ++ "\n" else ""
    ⟨some a.status, confirmation, analysisReport (env.colors o) file a⟩

/-- The `check` command: checks all files in order, whether or not some of them cannot be read. -/
def runCheck (env : Surroundings) (o : Options) : Transcript :=
  let checked := o.files.map (checkFile env o)
  let output := String.join (checked.map (·.output))
  let errors := String.join (checked.map (·.errors))
  let failed := checked.countP fun c => c.status.isNone
  if 0 < failed then (Failure.incomplete failed o.files.length).transcript output errors
  else if checked.any fun c => c.status == some .failed then ⟨Status.failed.exitCode, output, errors⟩
  else ⟨Status.clean.exitCode, output, errors⟩

/-- The text that explains how commands are used. -/
def usageText : String :=
  "Quill front end: lexer and parser with error recovery\n" ++
  "\n" ++
  "Usage: quill <command> [options] [files...]\n" ++
  "\n" ++
  "Commands:\n" ++
  "  lex [file]           Tokenize a file and print the tokens\n" ++
  "  parse [file]         Parse a file and print a summary\n" ++
  "  check [files...]     Parse files in parallel, reporting diagnostics only\n" ++
  "  help                 Show this help message\n" ++
  "  version              Show version information\n" ++
  "\n" ++
  "Files default to input.txt.\n" ++
  "\n" ++
  "Options:\n" ++
  "  --tree               parse: print the parse tree\n" ++
  "  --color=<mode>       auto (default), always, never\n" ++
  "  --quiet, -q          Print diagnostics only\n" ++
  "\n" ++
  "Environment:\n" ++
  "  NO_COLOR             Disable colors in auto mode\n" ++
  "  RUST_LOG             Enable tracing, e.g. RUST_LOG=quill_parse=debug\n" ++
  "\n" ++
  "Exit status: 0 clean, 1 the input has errors, 2 the driver failed.\n"

/-- The text that names the version. -/
def versionText : String := "Quill front end 0.1.0\n"

/-- What a command line asks for. -/
inductive Request where
  | lex (options : Options)
  | parse (options : Options)
  | check (options : Options)
  | usage
  | version
deriving DecidableEq

/-- What a command line asks for; a line without a command asks for the usage. -/
def Request.ofArguments : List String → Except UsageError Request
  | [] => .ok .usage
  | command :: arguments =>
    if command = "lex" then (Options.ofArguments arguments).map .lex
    else if command = "parse" then (Options.ofArguments arguments).map .parse
    else if command = "check" then (Options.ofArguments arguments).map .check
    else if command ∈ ["help", "--help", "-h"] then .ok .usage
    else if command ∈ ["version", "--version", "-V"] then .ok .version
    else .error (.unknownCommand command)

/-- The files that a request may read. -/
def Request.files : Request → List String
  | lex o | parse o | check o => o.files
  | usage | version => []

/-- Does what a request asks for. -/
def Request.run (env : Surroundings) : Request → Except Failure Transcript
  | lex o => runLex env o
  | parse o => runParse env o
  | check o => .ok (runCheck env o)
  | usage => .ok ⟨0, usageText, ""⟩
  | version => .ok ⟨0, versionText, ""⟩

/-- Runs a command line. -/
def run (env : Surroundings) (arguments : List String) : Transcript :=
  match (Request.ofArguments arguments).mapError Failure.usage >>= Request.run env with
  | .ok transcript => transcript
  | .error f => f.transcript "" ""

end Command

end QuillFrontEnd
