import PhpRefactor.Files.Batch

/-!
# Arguments

The arguments of a call, read from left to right.  An option may take a value, as the next argument
or behind an equals sign, and may stand between the files; behind `--` everything is a file.  Help
and the version are answered as soon as they are met, whatever comes behind them, and a mistake
before them comes first.
-/

set_option autoImplicit false

namespace PhpRefactor

/-- What the arguments ask for. -/
structure Options where
  config : Option String
  format : Option OutputFormat
  outDir : Option String
  dryRun : Bool
  listRules : Bool
  debug : Bool
  files : List String
  deriving DecidableEq, Repr

/-- A call that the program understands. -/
inductive Call where
  | help
  | version
  | listRules
  | batch (options : Options)
  deriving DecidableEq, Repr

/-- Why arguments make no sense. -/
inductive UsageError where
  | unknownOption (option : String)
  | repeated (option : String)
  | missingValue (option : String)
  | unexpectedValue (option value : String)
  | badValue (option value : String)
  | noFiles
  deriving DecidableEq, Repr

namespace UsageError

def message : UsageError → String
  | unknownOption o => "unexpected argument '" ++ o ++ "' found"
  | repeated o => "the argument '" ++ o ++ "' cannot be used multiple times"
  | missingValue o => "a value is required for '" ++ o ++ "' but none was supplied"
  | unexpectedValue o v =>
    "unexpected value '" ++ v ++ "' for '" ++ o ++ "' found; no more were expected"
  | badValue o v => "invalid value '" ++ v ++ "' for '" ++ o ++ "'"
  | noFiles => "the following required arguments were not provided:\n  <FILES>..."

end UsageError

/-- One argument, looked at on its own. -/
inductive Argument where
  /-- Anything that does not look like an option; a single dash is a file. -/
  | plain (text : String)
  /-- `--name`, or `--name=value`. -/
  | long (name : String) (value : Option String)
  /-- `-c`; letters behind the first are left out. -/
  | short (letter : Char)
  /-- `--` -/
  | endOfOptions
  deriving DecidableEq, Repr

namespace Argument

/-- Splits at the first equals sign. -/
def splitValue (s : List Char) : String × Option String :=
  let name := s.takeWhile (· ≠ '=')
  (String.ofList name, (s.drop name.length).tail?.map String.ofList)

def ofString (arg : String) : Argument :=
  match arg.toList with
  | ['-', '-'] => endOfOptions
  | '-' :: '-' :: rest => long (splitValue rest).1 (splitValue rest).2
  | '-' :: c :: _ => short c
  | _ => plain arg

end Argument

/-- An option that takes a value. -/
inductive Setting where
  | config
  | format
  | outDir
  deriving DecidableEq, Repr

/-- An option without a value. -/
inductive Switch where
  | dryRun
  | listRules
  | debug
  | help
  | version
  deriving DecidableEq, Repr

namespace Setting

def all : List Setting := [config, format, outDir]

def name : Setting → String
  | config => "config"
  | format => "format"
  | outDir => "out-dir"

def ofName? (name : String) : Option Setting := all.find? (·.name = name)

end Setting

namespace Switch

def all : List Switch := [dryRun, listRules, debug, help, version]

def name : Switch → String
  | dryRun => "dry-run"
  | listRules => "list-rules"
  | debug => "debug"
  | help => "help"
  | version => "version"

def ofName? (name : String) : Option Switch := all.find? (·.name = name)

/-- The switch of a single letter. -/
def ofLetter? : Char → Option Switch
  | 'h' => some help
  | 'V' => some version
  | _ => none

end Switch

namespace Options

/-- No option, and no file. -/
def empty : Options := ⟨none, none, none, false, false, false, []⟩

/-- Gives a setting its value: paths are not empty, formats have exact names, and no setting comes
twice. -/
def set (options : Options) (setting : Setting) (value : String) : Except UsageError Options :=
  let option := "--" ++ setting.name
  match setting with
  | .config =>
    if value.isEmpty then .error (.badValue option value)
    else if options.config.isSome then .error (.repeated option)
    else .ok { options with config := some value }
  | .format =>
    match [OutputFormat.source, .json].find? (·.name = value) with
    | none => .error (.badValue option value)
    | some format =>
      if options.format.isSome then .error (.repeated option)
      else .ok { options with format := some format }
  | .outDir =>
    if value.isEmpty then .error (.badValue option value)
    else if options.outDir.isSome then .error (.repeated option)
    else .ok { options with outDir := some value }

/-- Adds a file. -/
def addFile (options : Options) (path : String) : Except UsageError Options :=
  if path.isEmpty then .error (.badValue "[FILES]..." path)
  else .ok { options with files := options.files ++ [path] }

/-- Turns a switch on, unless it is on, and goes on with what is left; help and the version need
nothing else. -/
def turnOn (options : Options) (switch : Switch)
    (goOn : Options → Except UsageError Call) : Except UsageError Call :=
  let again : Except UsageError Call := .error (.repeated ("--" ++ switch.name))
  match switch with
  | .help => .ok .help
  | .version => .ok .version
  | .dryRun => if options.dryRun then again else goOn { options with dryRun := true }
  | .listRules => if options.listRules then again else goOn { options with listRules := true }
  | .debug => if options.debug then again else goOn { options with debug := true }

/-- The call, once all arguments are read. -/
def finish (options : Options) : Except UsageError Call :=
  if options.listRules then .ok .listRules
  else if options.files.isEmpty then .error .noFiles
  else .ok (.batch options)

/-- Reads arguments behind those already read. -/
def readFrom (options : Options) : List String → Except UsageError Call
  | [] => options.finish
  | arg :: rest =>
    match Argument.ofString arg with
    | .plain path => options.addFile path >>= fun options => options.readFrom rest
    | .endOfOptions => rest.foldlM addFile options >>= finish
    | .short c =>
      match Switch.ofLetter? c with
      | some switch => options.turnOn switch fun options => options.readFrom rest
      | none => .error (.unknownOption (String.ofList ['-', c]))
    | .long name attached =>
      match Setting.ofName? name, Switch.ofName? name with
      | some setting, _ =>
        match attached, rest with
        | some value, rest => options.set setting value >>= fun options => options.readFrom rest
        | none, [] => .error (.missingValue ("--" ++ name))
        | none, next :: rest =>
          match Argument.ofString next with
          | .plain value => options.set setting value >>= fun options => options.readFrom rest
          | _ => .error (.missingValue ("--" ++ name))
      | none, some switch =>
        match attached with
        | some value => .error (.unexpectedValue ("--" ++ name) value)
        | none => options.turnOn switch fun options => options.readFrom rest
      | none, none => .error (.unknownOption ("--" ++ name))

end Options

namespace Call

/-- Reads the arguments of a call. -/
def read (args : List String) : Except UsageError Call := Options.empty.readFrom args

end Call

end PhpRefactor
