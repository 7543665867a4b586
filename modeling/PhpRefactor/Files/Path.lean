/-!
# Paths

A path is a text with slashes between its parts.  What a text means as a path is said by its
components: a leading slash is the root, a leading dot stays, other dots and empty parts say
nothing.  Two texts are the same path when they have the same components.

The last component has a name if it is neither the root nor one or two dots.  The part of a name
behind its last dot is the extension, unless nothing stands before that dot.
-/

set_option autoImplicit false

namespace PhpRefactor

/-- One part of a path. -/
inductive Component where
  | root
  | here
  | up
  | name (text : String)
  deriving DecidableEq, Repr

namespace Path

/-- The parts of a text between slashes. -/
def parts : List Char → List (List Char)
  | [] => [[]]
  | c :: cs =>
    if c = '/' then [] :: parts cs
    else
      match parts cs with
      | [] => [[c]]
      | p :: ps => (c :: p) :: ps

/-- The component that a part stands for; an empty part or a dot stands for none. -/
def component? (part : List Char) : Option Component :=
  if part = [] ∨ part = ['.'] then none
  else if part = ['.', '.'] then some .up
  else some (.name (String.ofList part))

/-- The components of a path. -/
def components (path : String) : List Component :=
  match parts path.toList with
  | [] :: _ :: _ => .root :: (parts path.toList).filterMap component?
  | ['.'] :: rest => .here :: rest.filterMap component?
  | parts => parts.filterMap component?

/-- The path starts at the root. -/
def isRooted (path : String) : Bool := path.toList.head? = some '/'

/-- The components that lead on from where a path starts. -/
def route (path : String) : List Component := (parts path.toList).filterMap component?

/-- The same path. -/
def same (a b : String) : Bool := components a = components b

/-- The name of what the path leads to. -/
def fileName? (path : String) : Option String :=
  match (components path).getLast? with
  | some (.name x) => some x
  | _ => none

/-- A name without its last dot and what stands behind it, and what stands behind it. -/
def splitAtDot (name : String) : String × Option String :=
  let reversed := name.toList.reverse
  let after := reversed.takeWhile (· ≠ '.')
  match reversed.dropWhile (· ≠ '.') with
  | [] | [_] => (name, none)
  | _ :: before => (String.ofList before.reverse, some (String.ofList after.reverse))

/-- The name without its extension. -/
def fileStem? (path : String) : Option String := (fileName? path).map fun x => (splitAtDot x).1

/-- The extension of the name. -/
def extension? (path : String) : Option String := fileName? path >>= fun x => (splitAtDot x).2

/-- Puts parts together again. -/
def joinParts : List (List Char) → List Char
  | [] => []
  | [p] => p
  | p :: q :: ps => p ++ '/' :: joinParts (q :: ps)

/-- The part stands for no component. -/
def isSilent (part : List Char) : Bool := (component? part).isNone

/-- Leaves out the last part that stands for a component, and all empty parts and dots around it at
the end. -/
def dropLastPart (parts : List (List Char)) : List (List Char) :=
  (((parts.reverse.dropWhile isSilent).drop 1).dropWhile isSilent).reverse

/-- The path without its last component. -/
def parent (path : String) : String :=
  match path.toList with
  | '/' :: rest => String.ofList ('/' :: joinParts (dropLastPart (parts rest)))
  | '.' :: '/' :: rest =>
    if (parts rest).all isSilent then ""
    else String.ofList ('.' :: joinParts (dropLastPart (parts ('/' :: rest))))
  | text => String.ofList (joinParts (dropLastPart (parts text)))

/-- A path and this many paths above it. -/
def upward (path : String) : Nat → List String
  | 0 => []
  | n + 1 => path :: upward (parent path) n

/-- A path and all paths above it, up to where it starts. -/
def ancestors (path : String) : List String := upward path (components path).length

/-- A path below another; a path from the root stands for itself. -/
def join (base path : String) : String :=
  if path.toList.head? = some '/' then path
  else if base.isEmpty || base.toList.getLast? = some '/' then base ++ path
  else base ++ "/" ++ path

/-- The path with another name at its end; where there is no name, the new one comes behind. -/
def withFileName (path name : String) : String :=
  join (if (fileName? path).isSome then parent path else path) name

/-- Names in the order of their characters. -/
def inOrder (names : List String) : List String := names.mergeSort fun a b => !decide (b < a)

end Path

end PhpRefactor
