import PhpRefactor.Files.Batch
import PhpRefactor.Files.Tree

/-!
# Work on several files at once

A program that uses files is a tree of calls: the next call, and for every answer how it goes on
(`Calls`).  In this form it can be stopped behind any call and taken up again.

A crew is several such programs at work on one file system (`Crew`).  Its members take turns, one
call to a turn, and an order is given by whose turn it is; nothing is said about how the order comes
about.  A batch whose files are worked on at once is a crew with a member for every file.
-/

set_option autoImplicit false

namespace PhpRefactor

/-- A program that uses files: what it comes to, or the next call and how it goes on with the
answer. -/
inductive Calls (α : Type) where
  | done (result : α)
  | isDir (path : String) (next : Bool → Calls α)
  | listDir (path : String) (next : Except FileError (List String) → Calls α)
  | readText (path : String) (next : Except FileError String → Calls α)
  | createDirs (path : String) (next : Except FileError Unit → Calls α)
  | writeText (path text : String) (next : Except FileError Unit → Calls α)

namespace Calls

variable {α β : Type}

/-- One program behind another. -/
def bind (calls : Calls α) (k : α → Calls β) : Calls β :=
  match calls with
  | done result => k result
  | isDir path next => .isDir path fun answer => (next answer).bind k
  | listDir path next => .listDir path fun answer => (next answer).bind k
  | readText path next => .readText path fun answer => (next answer).bind k
  | createDirs path next => .createDirs path fun answer => (next answer).bind k
  | writeText path text next => .writeText path text fun answer => (next answer).bind k

instance : Monad Calls where
  pure := done
  bind := bind

instance : MonadFiles Calls where
  isDir path := isDir path done
  listDir path := listDir path done
  readText path := readText path done
  createDirs path := createDirs path done
  writeText path text := writeText path text done

variable {m : Type → Type} [Monad m] [MonadFiles m]

/-- Makes the next call, if there is one. -/
def step : Calls α → m (Calls α)
  | done result => return done result
  | isDir path next => next <$> MonadFiles.isDir path
  | listDir path next => next <$> MonadFiles.listDir path
  | readText path next => next <$> MonadFiles.readText path
  | createDirs path next => next <$> MonadFiles.createDirs path
  | writeText path text next => next <$> MonadFiles.writeText path text

/-- Makes all calls. -/
def run : Calls α → m α
  | done result => return result
  | isDir path next => do (next (← MonadFiles.isDir path)).run
  | listDir path next => do (next (← MonadFiles.listDir path)).run
  | readText path next => do (next (← MonadFiles.readText path)).run
  | createDirs path next => do (next (← MonadFiles.createDirs path)).run
  | writeText path text next => do (next (← MonadFiles.writeText path text)).run

end Calls

/-- Programs at work on one file system. -/
structure Crew (α : Type) where
  root : FileTree
  members : List (Calls α)

namespace Crew

variable {α : Type}

/-- One member makes its next call. -/
def turn (home : List String) (crew : Crew α) (i : Nat) : Crew α :=
  match crew.members[i]? with
  | none => crew
  | some calls =>
    let (calls, root) := (calls.step (m := FileM home)).run crew.root
    ⟨root, crew.members.set i calls⟩

/-- The members take turns in this order, all in one working directory. -/
def turns (home : List String) (crew : Crew α) (order : List Nat) : Crew α :=
  order.foldl (turn home) crew

/-- What the members have come to, when all of them are done. -/
def Comes (crew : Crew α) (results : List α) : Prop := crew.members = results.map .done

end Crew

namespace BatchSummary

/-- Takes what came of another file in front. -/
def add (source : String) (result : Except BatchError FileReport) (s : BatchSummary) :
    BatchSummary :=
  match result with
  | .ok report => { s with reports := report :: s.reports }
  | .error e => { s with failures := (source, e) :: s.failures }

/-- What came of several files, in the order of the files. -/
def ofResults (results : List (String × Except BatchError FileReport)) : BatchSummary :=
  results.foldr (fun (source, result) s => s.add source result) ⟨[], []⟩

end BatchSummary

namespace Batch

/-- Work on these files at once. -/
def crew (batch : Batch) (sources : List String) (root : FileTree) :
    Crew (Except BatchError FileReport) :=
  ⟨root, sources.map fun source => (batch.transformFile (m := Calls) source).run⟩

/-- The summary of a batch whose files were worked on at once. -/
def summarize (sources : List String) (results : List (Except BatchError FileReport)) :
    BatchSummary :=
  .ofResults (sources.zip results)

end Batch

end PhpRefactor
