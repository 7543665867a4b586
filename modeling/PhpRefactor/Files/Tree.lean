import PhpRefactor.Files.Access
import PhpRefactor.Files.Path

/-!
# A model of a file system

A file system is a tree of named entries below its root, and programs work in it from one of its
directories (`FileM`).  A path that starts with a slash is walked from the root, any other path from
the working directory, step by step.  There are no links.

A walk (`FileTree.walk`) ends at a place, a list of names from the root down, where something may
stand or not.  Every step is made from a directory; above the root there is the root.
-/

set_option autoImplicit false

namespace PhpRefactor

/-- What a file holds: a text, or bytes that are no text. -/
inductive Contents where
  | text (value : String)
  | bytes (value : List UInt8)
  deriving DecidableEq, Repr

/-- A file or a directory. -/
inductive FileTree where
  | file (contents : Contents)
  | dir (entries : List (String × FileTree))
  deriving Repr, Inhabited

namespace FileTree

/-- Nothing but an empty root. -/
def empty : FileTree := dir []

def isDir : FileTree → Bool
  | dir _ => true
  | file _ => false

/-- What stands at a place. -/
def get? : FileTree → List String → Option FileTree
  | t, [] => some t
  | dir entries, x :: xs => entries.lookup x >>= fun t => t.get? xs
  | file _, _ :: _ => none

/-- Puts something under a name, in place of what has the name. -/
def putEntry (entries : List (String × FileTree)) (name : String) (t : FileTree) :
    List (String × FileTree) :=
  match entries with
  | [] => [(name, t)]
  | (x, old) :: rest => if x = name then (x, t) :: rest else (x, old) :: putEntry rest name t

/-- Puts something at a place whose directory exists. -/
def put (t : FileTree) (place : List String) (item : FileTree) : FileTree :=
  match t, place with
  | _, [] => item
  | dir entries, x :: xs =>
    match entries.lookup x with
    | some old => dir (putEntry entries x (old.put xs item))
    | none => if xs.isEmpty then dir (putEntry entries x item) else dir entries
  | file contents, _ :: _ => file contents

mutual

/-- How many directories lie inside one another. -/
def depth : FileTree → Nat
  | file _ => 0
  | dir entries => 1 + depthOf entries

def depthOf : List (String × FileTree) → Nat
  | [] => 0
  | (_, t) :: rest => max t.depth (depthOf rest)

end

/-- The step that a part of a path asks for. -/
def partStep (part : List Char) : Component := (Path.component? part).getD .here

/-- The steps that a path asks for.  A slash at its end asks for a directory there. -/
def steps (path : String) : List Component := (Path.parts path.toList).map partStep

/-- Where a step leads from a place. -/
def placeStep (place : List String) : Component → List String
  | .root => []
  | .here => place
  | .up => place.dropLast
  | .name x => place ++ [x]

/-- One step from a place, which has to be a directory. -/
def walkStep (root : FileTree) (place : List String) (step : Component) :
    Except FileError (List String) :=
  match root.get? place with
  | none => .error .notFound
  | some (file _) => .error .notDirectory
  | some (dir _) => .ok (placeStep place step)

/-- Where a path is walked from. -/
def start (home : List String) (path : String) : List String :=
  if Path.isRooted path then [] else home

/-- The place that a path leads to from the working directory. -/
def walk (root : FileTree) (home : List String) (path : String) :
    Except FileError (List String) :=
  if path.isEmpty then .error .notFound else (steps path).foldlM root.walkStep (start home path)

/-- What stands where a path leads to. -/
def find (root : FileTree) (home : List String) (path : String) : Except FileError FileTree := do
  match root.get? (← root.walk home path) with
  | some t => return t
  | none => throw .notFound

/-- A path leads to a directory. -/
def isDirAt (root : FileTree) (home : List String) (path : String) : Bool :=
  match root.find home path with
  | .ok t => t.isDir
  | .error _ => false

/-- The names in a directory, in order. -/
def listAt (root : FileTree) (home : List String) (path : String) :
    Except FileError (List String) := do
  match ← root.find home path with
  | dir entries => return Path.inOrder (entries.map Prod.fst)
  | file _ => throw .notDirectory

def readAt (root : FileTree) (home : List String) (path : String) : Except FileError String := do
  match ← root.find home path with
  | file (.text s) => return s
  | file (.bytes _) => throw .notText
  | dir _ => throw .isDirectory

/-- Creates one directory, where these steps lead from a place. -/
def createDirAt (root : FileTree) (place : List String) (way : List Component) :
    Except FileError FileTree := do
  let place ← way.foldlM root.walkStep place
  match root.get? place with
  | some _ => throw .alreadyExists
  | none => return root.put place (dir [])

/-- These steps lead from a place to a directory. -/
def isDirPlace (root : FileTree) (place : List String) (way : List Component) : Bool :=
  match way.foldlM root.walkStep place with
  | .ok place => ((root.get? place).map isDir).getD false
  | .error _ => false

/-- Creates a directory and those on the way to it; the way is given from its end.  What was created
before a failure stays. -/
def createDirsFrom (root : FileTree) (place : List String) :
    List Component → FileTree × Except FileError Unit
  | [] => (root, .ok ())
  | c :: above =>
    let way := (c :: above).reverse
    match root.createDirAt place way with
    | .ok root => (root, .ok ())
    | .error .notFound =>
      match root.createDirsFrom place above with
      | (root, .error e) => (root, .error e)
      | (root, .ok ()) =>
        match root.createDirAt place way with
        | .ok root => (root, .ok ())
        | .error e => (root, if root.isDirPlace place way then .ok () else .error e)
    | .error e => (root, if root.isDirPlace place way then .ok () else .error e)

/-- Creates a directory and those on the way to it, where they are missing. -/
def createDirsAt (root : FileTree) (home : List String) (path : String) :
    FileTree × Except FileError Unit :=
  root.createDirsFrom (start home path) (Path.route path).reverse

def writeAt (root : FileTree) (home : List String) (path text : String) :
    FileTree × Except FileError Unit :=
  match root.walk home path with
  | .error e => (root, .error e)
  | .ok place =>
    match root.get? place with
    | some (dir _) => (root, .error .isDirectory)
    | _ => (root.put place (file (.text text)), .ok ())

mutual

/-- Every file, with the names that lead to it. -/
def files : FileTree → List (List String × Contents)
  | file contents => [([], contents)]
  | dir entries => filesOf entries

def filesOf : List (String × FileTree) → List (List String × Contents)
  | [] => []
  | (x, t) :: rest => t.files.map (fun (place, c) => (x :: place, c)) ++ filesOf rest

end

end FileTree

/-- Programs at work on a file system.  The directory at `home` is their working directory. -/
def FileM (_home : List String) (α : Type) : Type := StateM FileTree α

namespace FileM

variable {home : List String}

instance : Monad (FileM home) := inferInstanceAs (Monad (StateM FileTree))

instance : MonadFiles (FileM home) where
  isDir path := (do return (← get).isDirAt home path : StateM FileTree _)
  listDir path := (do return (← get).listAt home path : StateM FileTree _)
  readText path := (do return (← get).readAt home path : StateM FileTree _)
  createDirs path :=
    (modifyGet fun root => let (root, r) := root.createDirsAt home path; (r, root) :
      StateM FileTree _)
  writeText path text :=
    (modifyGet fun root => let (root, r) := root.writeAt home path text; (r, root) :
      StateM FileTree _)

end FileM

end PhpRefactor
