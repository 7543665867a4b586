import PhpRefactor.CommandLine.Arguments

/-!
# The program

A call of the program, from its arguments to what it prints and the status that it leaves
behind.  All that it does with files goes through `MonadFiles`.

Status `0` says that every file went well, `1` that something failed, and `2` that the arguments
made no sense.
-/

set_option autoImplicit false

namespace PhpRefactor

/-- What a call leaves behind. -/
structure Outcome where
  status : UInt32
  output : String
  errors : String
  deriving DecidableEq, Repr

/-- Why a configuration file could not be used. -/
inductive LoadError where
  | reading (cause : FileError)
  | config (cause : ConfigFailure)
  deriving Repr

namespace LoadError

/-- What went wrong and why, from the outside in. -/
def chain : LoadError → List String
  | reading cause => ["I/O error: " ++ cause.message, cause.message]
  | config (.document cause) => [(ConfigFailure.document cause).message, cause.message]
  | config cause => [cause.message]

end LoadError

namespace Program

def name : String := "rectify"

def version : String := "0.1.0"

def versionText : String := name ++ " " ++ version ++ "\n"

def helpText : String :=
  "Rule-driven rewriting of parsed PHP syntax trees\n\n" ++
  "Usage: rectify [OPTIONS] [FILES]...\n\n" ++
  "Arguments:\n" ++
  "  [FILES]...  Syntax tree JSON files or directories\n\n" ++
  "Options:\n" ++
  "      --config <PATH>    Tracer configuration (JSON)\n" ++
  "      --format <FORMAT>  Output format [default: source] [possible values: source, json]\n" ++
  "      --out-dir <DIR>    Write outputs here instead of next to their inputs\n" ++
  "      --dry-run          Print rewritten output instead of writing files\n" ++
  "      --list-rules       List available rules and exit\n" ++
  "      --debug            Enable debug logging\n" ++
  "  -h, --help             Print help\n" ++
  "  -V, --version          Print version\n"

/-- What is printed about arguments that make no sense. -/
def usageText (e : UsageError) : String :=
  "error: " ++ e.message ++ "\n\nFor more information, try '--help'.\n"

/-- A text with blanks behind it, at least this long. -/
def padTo (width : Nat) (s : String) : String :=
  s ++ String.ofList (List.replicate (width - s.length) ' ')

/-- A line for every rule. -/
def rulesText : String :=
  String.join (RuleConfig.standard.map fun config =>
    padTo 45 config.rule.name ++ " " ++ config.rule.description ++ "\n")

/-! ## Failures -/

/-- A text whose lines after the first are indented. -/
def hang (indent : Nat) (s : String) : String :=
  String.intercalate (String.ofList ('\n' :: List.replicate indent ' ')) (s.splitOn "\n")

/-- A cause on lines of its own, with its number if there are several. -/
def numberedCauses (i : Nat) : List String → String
  | [] => ""
  | cause :: causes =>
    let number := toString i
    let blanks := String.ofList (List.replicate (5 - number.length) ' ')
    "\n" ++ blanks ++ number ++ ": " ++ hang 7 cause ++ numberedCauses (i + 1) causes

/-- What is printed about a failure: what went wrong, and the causes from the outside in. -/
def failureText (what : String) (causes : List String) : String :=
  "Error: " ++ what ++
    (match causes with
      | [] => ""
      | [cause] => "\n\nCaused by:\n    " ++ hang 4 cause
      | causes => "\n\nCaused by:" ++ numberedCauses 0 causes) ++ "\n"

/-- Nothing was printed but that the call failed. -/
def failed (what : String) (causes : List String) : Outcome := ⟨1, "", failureText what causes⟩

/-! ## Reports -/

/-- A text that ends with a line end. -/
def endLine (s : String) : String := if s.toList.getLast? = some '\n' then s else s ++ "\n"

/-- What is printed about a file that went well. -/
def reportText (dryRun : Bool) (report : FileReport) : String :=
  if dryRun then "// " ++ report.source ++ "\n" ++ endLine report.rendered
  else
    match report.output with
    | none => ""
    | some output =>
      report.source ++ " -> " ++ output ++ " (" ++ toString report.summary.edits ++
        " rewrites in " ++ toString report.summary.passes ++ " passes)\n"

/-- The last line. -/
def totalText (s : BatchSummary) : String :=
  toString s.filesProcessed ++ " files processed, " ++ toString s.filesChanged ++ " changed, " ++
    toString s.edits ++ " rewrites\n"

/-- What a batch over this many files leaves behind.  `idText` writes the identity of a node. -/
def outcome (idText : Nat → String) (dryRun : Bool) (sources : Nat) (s : BatchSummary) : Outcome :=
  let output := String.join (s.reports.map (reportText dryRun)) ++ totalText s
  let errors := String.join ((s.errorLines idText).map (· ++ "\n"))
  if s.success then ⟨0, output, errors⟩
  else
    let what := toString s.failures.length ++ " of " ++ toString sources ++ " files failed"
    ⟨1, output, errors ++ failureText what []⟩

/-! ## Calls -/

section Run

variable {m : Type → Type} [Monad m] [MonadFiles m]

/-- The configuration in a file. -/
def loadConfig (path : String) : m (Except LoadError Config) := do
  match ← (MonadFiles.readText path : m _) with
  | .error e => return .error (.reading e)
  | .ok text => return (Config.read text).mapError .config

/-- Works on the files that the options name.  Directories are gone into at most `depth` deep. -/
def runBatch (idText : Nat → String) (depth : Nat) (options : Options) (config : Config) :
    m Outcome := do
  let batch : Batch :=
    ⟨config, options.format.getD .source, options.outDir, options.dryRun, fun _ => .inOrder⟩
  match ← (Batch.collect depth options.files).run with
  | .error e => return failed ((e.chain idText).headD "") (e.chain idText).tail
  | .ok sources =>
    return outcome idText options.dryRun sources.length (← batch.transformFiles sources)

/-- Makes a call. -/
def runCall (idText : Nat → String) (depth : Nat) : Call → m Outcome
  | .help => return ⟨0, helpText, ""⟩
  | .version => return ⟨0, versionText, ""⟩
  | .listRules => return ⟨0, rulesText, ""⟩
  | .batch options =>
    match options.config with
    | none => runBatch idText depth options .standard
    | some path => do
      match ← (loadConfig path : m _) with
      | .error e => return failed ("Failed to load config " ++ path) e.chain
      | .ok config => runBatch idText depth options config

/-- Runs the program with these arguments. -/
def run (idText : Nat → String) (depth : Nat) (args : List String) : m Outcome :=
  match Call.read args with
  | .error e => return ⟨2, "", usageText e⟩
  | .ok call => runCall idText depth call

end Run

end Program

end PhpRefactor
