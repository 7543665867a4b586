import PhpRefactor.CommandLine.Program

/-!
# The executable

Connects the program with the file system, the arguments and the standard streams.
-/

set_option autoImplicit false

namespace PhpRefactor

namespace FileError

/-- The number of a system error; some calls give it with a minus sign. -/
def errorNumber (code : UInt32) : Nat := min code.toNat (-code).toNat

/-- The answer of the system to a call that it refused. -/
def ofSystem (e : IO.Error) : FileError :=
  match e with
  | .noFileOrDirectory .. => notFound
  | .alreadyExists .. => alreadyExists
  | .inappropriateType _ code _ =>
    match errorNumber code with
    | 20 => notDirectory
    | 21 => isDirectory
    | _ => other (toString e)
  | .permissionDenied _ code _ =>
    other ("Permission denied (os error " ++ toString (errorNumber code) ++ ")")
  | e => other (toString e)

/-- Makes a call of the system. -/
def catching {α : Type} (call : IO α) : IO (Except FileError α) := do
  try return .ok (← call)
  catch e => return .error (ofSystem e)

end FileError

/-- A directory, as an entry of itself. -/
def selfEntry (path : String) : IO.FS.DirEntry := ⟨path, "."⟩

/-- A path leads to a directory. -/
def isDirectory (path : String) : IO Bool := do
  if path.isEmpty then return false
  try return (← (selfEntry path).path.metadata).type == .dir
  catch _ => return false

/-- Creates a directory; that it is there already is no failure. -/
def createDirectory (path : String) : IO (Except FileError Unit) := do
  match ← FileError.catching (IO.FS.createDir path) with
  | .ok () => return .ok ()
  | .error e => if e ≠ .notFound ∧ (← isDirectory path) then return .ok () else return .error e

/-- Creates a directory, the first of these paths, and those above it where they are missing. -/
def createUpward : List String → IO (Except FileError Unit)
  | [] => return .ok ()
  | path :: above => do
    match ← createDirectory path with
    | .error .notFound =>
      match ← createUpward above with
      | .ok () => createDirectory path
      | .error e => return .error e
    | result => return result

instance : MonadFiles IO where
  isDir := isDirectory
  listDir path := FileError.catching do
    let entries ← (selfEntry path).path.readDir
    return Path.inOrder (entries.toList.map (·.fileName))
  readText path := do
    match ← FileError.catching (IO.FS.readBinFile path) with
    | .error e => return .error e
    | .ok bytes =>
      match String.fromUTF8? bytes with
      | some text => return .ok text
      | none => return .error .notText
  createDirs path := createUpward (Path.ancestors path)
  writeText path text := FileError.catching (IO.FS.writeFile path text)

namespace Program

/-- No path of the file system has more directories in it. -/
def systemDepth : Nat := 4096

/-- Runs the program and prints what it leaves behind. -/
def runSystem (args : List String) : IO UInt32 := do
  let outcome ← (Program.run TreeError.idText systemDepth args : IO Outcome)
  IO.print outcome.output
  IO.eprint outcome.errors
  return outcome.status

end Program

end PhpRefactor

def main (args : List String) : IO UInt32 := PhpRefactor.Program.runSystem args
