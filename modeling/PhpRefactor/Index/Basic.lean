import PhpRefactor.Syntax.Walk

/-!
# The index of a tree

A tree knows its children; an index knows the way up.  For every node it records the kind and
position, the parent, the enclosing class and function, and the path from the root, all under the
node's identity.  It holds identities and never nodes, so the tree stays the only owner of its
nodes, and an index describes the tree as it was when it was made.

An index exists only for trees in which no identity occurs twice
(`TreeIndex.ofTree`).  `TreeIndex.find?` goes the recorded path down a tree and takes what it meets
only if the identity is right, so that an outdated index can miss a node but never mistake one for
another.
-/

set_option autoImplicit false

namespace PhpRefactor

/-- What is wrong with the structure of a tree, or with an edit of it. -/
inductive TreeError where
  /-- The index has no entry for the node, or the node is not where the entry says. -/
  | unattached (id : Nat)
  /-- Two nodes have the identity. -/
  | duplicate (id : Nat)
  | notChild (id parent : Nat)
  /-- Statements can stand in place of the node only in a list of statements. -/
  | notInStatements (id parent : Nat) (parentKind : Kind)
  /-- The parent cannot do without the node. -/
  | required (id parent : Nat) (parentKind : Kind)
  /-- The root can be exchanged, but nothing can stand in its place. -/
  | detachedRoot (id : Nat)
  deriving DecidableEq, Repr

namespace TreeError

/-- An identity in a message. -/
def idText (id : Nat) : String := "n" ++ toString id

/-- The error in words; `idText` writes an identity. -/
def messageWith (idText : Nat → String) : TreeError → String
  | unattached id => "Node " ++ idText id ++ " is not attached to the tree"
  | duplicate id => "Node " ++ idText id ++ " appears more than once in the tree"
  | notChild id parent => "Node " ++ idText id ++ " is not a child of " ++ idText parent
  | notInStatements id parent kind =>
    "Node " ++ idText id ++ " is not held in a statement list of " ++ kind.name ++ " " ++
      idText parent
  | required id parent kind =>
    "Node " ++ idText id ++ " is a required child of " ++ kind.name ++ " " ++ idText parent
  | detachedRoot id => "Root node " ++ idText id ++ " cannot be detached"

def message (e : TreeError) : String := e.messageWith idText

/-- The same error with other identities. -/
def mapIds (f : Nat → Nat) : TreeError → TreeError
  | unattached id => unattached (f id)
  | duplicate id => duplicate (f id)
  | notChild id parent => notChild (f id) (f parent)
  | notInStatements id parent kind => notInStatements (f id) (f parent) kind
  | required id parent kind => required (f id) (f parent) kind
  | detachedRoot id => detachedRoot (f id)

end TreeError

/-- What surrounds a node, as identities; the path are the child positions from the root down. -/
structure Surroundings where
  parent : Option Nat
  enclosingClass : Option Nat
  enclosingFunction : Option Nat
  path : List Nat
  deriving DecidableEq, Repr

namespace Surroundings

/-- What surrounds the root. -/
def root : Surroundings := ⟨none, none, none, []⟩

/-- What surrounds the child of a node at a position.  A declaration encloses what is below it and
not itself, and inside a class one is in no function of outside. -/
def below (around : Surroundings) (n : Node) (i : Nat) : Surroundings where
  parent := some n.id
  enclosingClass := if n.kind = .classDecl then some n.id else around.enclosingClass
  enclosingFunction :=
    match n.kind with
    | .classDecl => none
    | .method | .function | .closure => some n.id
    | _ => around.enclosingFunction
  path := around.path ++ [i]

end Surroundings

/-- What an index records about a node. -/
structure Placement extends Surroundings where
  kind : Kind
  span : Span
  deriving DecidableEq, Repr

namespace Node

/-- The placements of a node and of all nodes below it, in pre-order. -/
def placementsIn (around : Surroundings) (n : Node) : List (Nat × Placement) :=
  (n.id, { around with kind := n.kind, span := n.span }) ::
    n.children.attach.zipIdx.flatMap fun (⟨c, _⟩, i) => c.placementsIn (around.below n i)
termination_by sizeOf n
decreasing_by exact sizeOf_lt_of_mem_children ‹_›

/-- The placements of all nodes of a tree. -/
def placements (root : Node) : List (Nat × Placement) := root.placementsIn .root

end Node

/-- The first element of a list that stands earlier in the list already. -/
def firstRepeated? (seen : List Nat) : List Nat → Option Nat
  | [] => none
  | x :: xs => if x ∈ seen then some x else firstRepeated? (x :: seen) xs

/-- A table of the nodes of one tree by identity. -/
structure TreeIndex where
  root : Option Nat
  entries : List (Nat × Placement)
  deriving Repr

namespace TreeIndex

/-- The index of no tree. -/
def empty : TreeIndex := ⟨none, []⟩

/-- The index of a tree; fails at the first node in pre-order whose identity was there before. -/
def ofTree (root : Node) : Except TreeError TreeIndex :=
  match firstRepeated? [] root.ids with
  | some id => .error (.duplicate id)
  | none => .ok ⟨some root.id, root.placements⟩

def size (index : TreeIndex) : Nat := index.entries.length

/-- The recorded placement of a node. -/
def placement? (index : TreeIndex) (id : Nat) : Option Placement := index.entries.lookup id

def contains (index : TreeIndex) (id : Nat) : Bool := (index.placement? id).isSome

/-- The recorded placement of a node, or the error that there is none. -/
def placement (index : TreeIndex) (id : Nat) : Except TreeError Placement :=
  match index.placement? id with
  | some p => .ok p
  | none => .error (.unattached id)

/-- The node with this identity, where the index says it is. -/
def find? (index : TreeIndex) (root : Node) (id : Nat) : Option Node := do
  let p ← index.placement? id
  let n ← root.at? p.path
  if n.id = id then some n else none

end TreeIndex

/-- A tree with an index for the way up. -/
structure IndexedTree where
  root : Node
  index : TreeIndex

namespace IndexedTree

def find? (tree : IndexedTree) (id : Nat) : Option Node := tree.index.find? tree.root id

/-- The node that a recorded link leads to. -/
def follow (tree : IndexedTree) (link : Option Nat) : Except TreeError (Option Node) :=
  match link with
  | none => .ok none
  | some id =>
    match tree.find? id with
    | some n => .ok (some n)
    | none => .error (.unattached id)

/-- The parent of the node with this identity; the root has none. -/
def parentOf (tree : IndexedTree) (id : Nat) : Except TreeError (Option Node) := do
  tree.follow (← tree.index.placement id).parent

/-- The nearest class declaration around the node. -/
def classOf (tree : IndexedTree) (id : Nat) : Except TreeError (Option Node) := do
  tree.follow (← tree.index.placement id).enclosingClass

/-- The nearest method, function or closure around the node. -/
def functionOf (tree : IndexedTree) (id : Nat) : Except TreeError (Option Node) := do
  tree.follow (← tree.index.placement id).enclosingFunction

end IndexedTree

end PhpRefactor
