import PhpRefactor.Config
import PhpRefactor.Document.Tree
import PhpRefactor.Files.Access
import PhpRefactor.Files.Path
import PhpRefactor.Syntax.Source

/-!
# Working on files

A batch reads tree documents, runs the configured rules over each tree until it is stable, and
writes the result as source text or as a tree document.  A file that fails is reported and holds up
no other.

Directories stand for the tree documents below them.  Outputs of an earlier batch are not taken up
again, unless they are named.
-/

set_option autoImplicit false

namespace PhpRefactor

/-- What is written for a tree. -/
inductive OutputFormat where
  | source
  | json
  deriving DecidableEq, Repr

namespace OutputFormat

/-- The extension of an output file. -/
def extension : OutputFormat → String
  | source => "php"
  | json => "rectified.json"

/-- The name of the format. -/
def name : OutputFormat → String
  | source => "source"
  | json => "json"

/-- The format of a name; the case of ASCII letters does not matter. -/
def ofName? (name : String) : Option OutputFormat :=
  match lowerAscii name with
  | "source" | "php" => some source
  | "json" => some json
  | _ => none

/-- What is said about a name that is no format. -/
def unknownMessage (name : String) : String := "Unknown output format: " ++ lowerAscii name

end OutputFormat

/-- Why a file, or a directory, could not be worked on. -/
inductive BatchError where
  | listing (path : String) (cause : FileError)
  | reading (path : String) (cause : FileError)
  | document (path : String) (cause : DocumentError)
  | running (path : String) (cause : RunError)
  | creating (path : String) (cause : FileError)
  | writing (path : String) (cause : FileError)
  deriving Repr

namespace BatchError

/-- What went wrong and why, from the outside in.  `idText` writes the identity of a node. -/
def chain (idText : Nat → String) : BatchError → List String
  | listing path cause => ["Failed to read directory " ++ path, cause.message]
  | reading path cause => ["Failed to read " ++ path, cause.message]
  | document path cause => ["In " ++ path, "Invalid syntax tree JSON", cause.message]
  | running path cause => ["Failed to transform " ++ path, cause.messageWith idText]
  | creating path cause => ["Failed to create " ++ path, cause.message]
  | writing path cause => ["Failed to write " ++ path, cause.message]

/-- The whole chain on one line. -/
def message (idText : Nat → String) (e : BatchError) : String :=
  String.intercalate ": " (e.chain idText)

end BatchError

/-- The numbers that the nodes of a file get.  All files draw on one supply, so which numbers a file
gets depends on the work on other files.

New nodes are numbered in a row here.  If others draw numbers in between some are left out, but that
cannot be told: errors name nodes that were read, and nothing else shows a number. -/
structure Numbering where
  /-- The number of a node that was read, by its position in the document. -/
  number : Nat → Nat
  injective : ∀ i j, number i = number j → i = j
  /-- The first number for new nodes, by the first position that is not taken in the document. -/
  next : Nat → Nat
  below : ∀ n i, i < n → number i < next n

namespace Numbering

/-- Nodes are numbered by their positions, and new ones from there on. -/
def inOrder : Numbering := ⟨id, fun _ _ => id, id, fun _ _ => id⟩

end Numbering

/-- How a batch works. -/
structure Batch where
  config : Config
  format : OutputFormat
  /-- Where outputs go; without it they go beside their inputs. -/
  outDir : Option String
  /-- Nothing is written. -/
  dryRun : Bool
  /-- The numbers that a file comes by. -/
  numbering : String → Numbering

/-- What came of one file. -/
structure FileReport where
  source : String
  /-- What was written, if anything was. -/
  output : Option String
  summary : RunSummary
  stats : Stats
  rendered : String

/-- What came of a batch: a report for every file that went well, and the failures, each with its
file. -/
structure BatchSummary where
  reports : List FileReport
  failures : List (String × BatchError)

namespace BatchSummary

def filesProcessed (s : BatchSummary) : Nat := s.reports.length

def filesChanged (s : BatchSummary) : Nat := s.reports.countP (·.summary.changed)

def edits (s : BatchSummary) : Nat := s.reports.foldl (fun n report => n + report.summary.edits) 0

def success (s : BatchSummary) : Bool := s.failures.isEmpty

/-- A line for every failure. -/
def errorLines (idText : Nat → String) (s : BatchSummary) : List String :=
  s.failures.map fun (source, e) => "Error processing " ++ source ++ ": " ++ e.message idText

end BatchSummary

namespace Batch

/-! ## Which files -/

/-- The extension of tree documents. -/
def treeExtension : String := "json"

/-- The name is one that an output can have. -/
def isOutputName (name : String) : Bool :=
  OutputFormat.json.extension.toList.isSuffixOf name.toList

/-- The path is that of a tree document which is no output. -/
def isTreeFile (path : String) : Bool :=
  Path.extension? path = some treeExtension && !((Path.fileName? path).map isOutputName).getD false

/-- A file of this path is worked on: it is a tree document, or it is named. -/
def isWanted (named : List String) (path : String) : Bool :=
  isTreeFile path || named.any (Path.same · path)

section Collect

variable {m : Type → Type} [Monad m] [MonadFiles m]

mutual

/-- The files that a path stands for.  Directories are gone into at most `depth` deep. -/
def expand (named : List String) (depth : Nat) (path : String) :
    ExceptT BatchError m (List String) := do
  if ← (MonadFiles.isDir path : m Bool) then
    match depth with
    | 0 => return []
    | depth + 1 =>
      match ← (MonadFiles.listDir path : m _) with
      | .error e => throw (.listing path e)
      | .ok names => expandAll named depth (names.map (Path.join path))
  else return if isWanted named path then [path] else []
termination_by (depth, 0)

/-- The files that several paths stand for, in the order of the paths. -/
def expandAll (named : List String) (depth : Nat) (paths : List String) :
    ExceptT BatchError m (List String) := do
  match paths with
  | [] => return []
  | path :: paths => return (← expand named depth path) ++ (← expandAll named depth paths)
termination_by (depth, paths.length + 1)

end

/-- The files that these paths stand for. -/
def collect (depth : Nat) (paths : List String) : ExceptT BatchError m (List String) :=
  expandAll paths depth paths

end Collect

/-! ## One file -/

/-- Where the output for a file goes.  Only the last extension gives way to the new one. -/
def outputPath (batch : Batch) (source : String) : String :=
  let name := (Path.fileStem? source).getD source ++ "." ++ batch.format.extension
  match batch.outDir with
  | some dir => Path.join dir name
  | none => Path.withFileName source name

/-- The output for a tree. -/
def render (batch : Batch) (tree : Node) : String :=
  match batch.format with
  | .source => tree.source
  | .json => Document.writeTree tree

/-- A run of the rules over the tree of a text, with these numbers for its nodes. -/
def runText (batch : Batch) (numbering : Numbering) (text : String) :
    Except DocumentError (Workspace × Except RunError RunSummary) := do
  let (tree, next) ← Document.readTree 1 text
  let engine := batch.config.engine
  return engine.stabilize
    (engine.workspace (tree.mapIds numbering.number) (numbering.next next))

/-- What the rules make of the text of a file: the workspace at the end, and the counts. -/
def transformText (batch : Batch) (source text : String) :
    Except BatchError (Workspace × RunSummary) :=
  match batch.runText (batch.numbering source) text with
  | .error e => .error (.document source e)
  | .ok (w, .ok summary) => .ok (w, summary)
  | .ok (_, .error e) => .error (.running source e)

section Transform

variable {m : Type → Type} [Monad m] [MonadFiles m]

/-- Writes an output, and the directories that it is in. -/
def writeOutput (output rendered : String) : ExceptT BatchError m Unit := do
  let dir := Path.parent output
  match ← (MonadFiles.createDirs dir : m _) with
  | .error e => throw (.creating dir e)
  | .ok () =>
    match ← (MonadFiles.writeText output rendered : m _) with
    | .error e => throw (.writing output e)
    | .ok () => return ()

/-- Works on one file. -/
def transformFile (batch : Batch) (source : String) : ExceptT BatchError m FileReport := do
  match ← (MonadFiles.readText source : m _) with
  | .error e => throw (.reading source e)
  | .ok text =>
    let (w, summary) ← (batch.transformText source text : Except BatchError _)
    let rendered := batch.render w.tree
    if batch.dryRun then return ⟨source, none, summary, w.stats, rendered⟩
    let output := batch.outputPath source
    writeOutput output rendered
    return ⟨source, some output, summary, w.stats, rendered⟩

/-- Works on several files, one after the other. -/
def transformFiles (batch : Batch) : List String → m BatchSummary
  | [] => return ⟨[], []⟩
  | source :: sources => do
    let result ← (batch.transformFile source).run
    let rest ← batch.transformFiles sources
    match result with
    | .ok report => return { rest with reports := report :: rest.reports }
    | .error e => return { rest with failures := (source, e) :: rest.failures }

end Transform

end Batch

end PhpRefactor
