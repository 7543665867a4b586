/-!
# Access to files

What the program does with files, as an interface: ask whether a path is a directory, list a
directory, read a text, create directories, write a text.  A model of a file system
(`PhpRefactor.Files.Tree`) and the real one answer the same calls, so the same program runs on both.
-/

set_option autoImplicit false

namespace PhpRefactor

/-- Why the system refused a call. -/
inductive FileError where
  | notFound
  | alreadyExists
  | notDirectory
  | isDirectory
  /-- The file holds bytes that are no text. -/
  | notText
  | other (message : String)
  deriving DecidableEq, Repr

namespace FileError

def message : FileError → String
  | notFound => "No such file or directory (os error 2)"
  | alreadyExists => "File exists (os error 17)"
  | notDirectory => "Not a directory (os error 20)"
  | isDirectory => "Is a directory (os error 21)"
  | notText => "stream did not contain valid UTF-8"
  | other message => message

end FileError

/-- A monad in which one can use files. -/
class MonadFiles (m : Type → Type) where
  isDir : String → m Bool
  /-- The names in a directory, in order. -/
  listDir : String → m (Except FileError (List String))
  readText : String → m (Except FileError String)
  /-- Creates a directory and the directories above it, where they are missing. -/
  createDirs : String → m (Except FileError Unit)
  writeText : String → String → m (Except FileError Unit)

end PhpRefactor
