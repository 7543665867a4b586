import PhpRefactor.Index.Basic

/-!
# Editing a tree

An edit names a node by its identity and says what comes in its place: another node, several
statements, or nothing. The index leads to the parent, and the parent changes one of its runs of
children.

What a place admits decides what can be done there (`PhpRefactor.Syntax.Segment`): an exchange is
always possible, statements can take the place of a node only in a list of statements, and a node
can be removed from any list and from any optional place.  An edit that is not possible leaves no
trace.
-/

set_option autoImplicit false

namespace PhpRefactor

/-- What a rule asks for. -/
inductive Edit where
  /-- Nothing. -/
  | keep
  /-- Another node in place of the node. -/
  | replace (node : Node)
  /-- These statements, in order, in place of the statement. -/
  | splice (stmts : List Node)
  /-- The node goes. -/
  | remove

/-- Puts the items of a list in place of the first element that passes a test. -/
def spliceFirst? {α : Type} (p : α → Bool) (items : List α) : List α → Option (List α)
  | [] => none
  | c :: cs => if p c then some (items ++ cs) else (spliceFirst? p items cs).map (c :: ·)

namespace Segment

variable {α : Type}

/-- Exchanges the first child that passes a test. -/
def exchange? (p : α → Bool) (x : α) : Segment α → Option (Segment α)
  | required c => if p c then some (required x) else none
  | slot (some c) => if p c then some (slot (some x)) else none
  | slot none => none
  | stmts cs => (spliceFirst? p [x] cs).map stmts
  | items cs => (spliceFirst? p [x] cs).map items

/-- Puts statements in place of the first statement that passes a test. -/
def splice? (p : α → Bool) (xs : List α) : Segment α → Option (Segment α)
  | stmts cs => (spliceFirst? p xs cs).map stmts
  | _ => none

/-- Takes the first child that passes a test out of its list. -/
def takeOut? (p : α → Bool) : Segment α → Option (Segment α)
  | stmts cs => (spliceFirst? p [] cs).map stmts
  | items cs => (spliceFirst? p [] cs).map items
  | _ => none

/-- Empties an optional place if its child passes a test. -/
def vacate? (p : α → Bool) : Segment α → Option (Segment α)
  | slot (some c) => if p c then some (slot none) else none
  | _ => none

/-- Changes the first run that can be changed. -/
def changeFirst? (change : Segment α → Option (Segment α)) :
    List (Segment α) → Option (List (Segment α))
  | [] => none
  | s :: ss =>
    match change s with
    | some s => some (s :: ss)
    | none => (changeFirst? change ss).map (s :: ·)

end Segment

namespace Node

/-- Changes the first run of children that can be changed. -/
def changeSegment? (n : Node) (change : Segment Node → Option (Segment Node)) : Option Node :=
  (Segment.changeFirst? change n.form.segments).map fun ss =>
    { n with form := n.form.withSegments ss }

/-- Exchanges a child. -/
def exchangeChild (n : Node) (id : Nat) (x : Node) : Except TreeError Node :=
  match n.changeSegment? (Segment.exchange? (·.id = id) x) with
  | some n => .ok n
  | none => .error (.notChild id n.id)

/-- Puts statements in place of a child. -/
def spliceChild (n : Node) (id : Nat) (xs : List Node) : Except TreeError Node :=
  match n.changeSegment? (Segment.splice? (·.id = id) xs) with
  | some n => .ok n
  | none => .error (.notInStatements id n.id n.kind)

/-- Removes a child: out of a list if it is in one, else out of an optional place. -/
def removeChild (n : Node) (id : Nat) : Except TreeError Node :=
  match n.changeSegment? (Segment.takeOut? (·.id = id)) with
  | some n => .ok n
  | none =>
    match n.changeSegment? (Segment.vacate? (·.id = id)) with
    | some n => .ok n
    | none =>
      if n.children.any (·.id = id) then .error (.required id n.id n.kind)
      else .error (.notChild id n.id)

end Node

namespace TreeIndex

/-- The tree with one node changed, if the node is where the index says. -/
def update? (index : TreeIndex) (root : Node) (id : Nat) (change : Node → Node) : Option Node := do
  let p ← index.placement? id
  let n ← index.find? root id
  root.setAt? p.path (change n)

/-- Changes the parent of a node. -/
def editParent (index : TreeIndex) (root : Node) (id : Nat)
    (change : Node → Except TreeError Node) : Except TreeError Node := do
  match (← index.placement id).parent with
  | none => throw (.detachedRoot id)
  | some parent =>
    match index.find? root parent with
    | none => throw (.unattached parent)
    | some n =>
      let n ← change n
      match index.update? root parent fun _ => n with
      | some root => return root
      | none => throw (.unattached parent)

/-- Puts a node in place of another; the root is exchanged whatever the index says. -/
def replace (index : TreeIndex) (root : Node) (id : Nat) (x : Node) : Except TreeError Node :=
  if root.id = id then .ok x else index.editParent root id (·.exchangeChild id x)

/-- Puts statements in place of a statement. -/
def splice (index : TreeIndex) (root : Node) (id : Nat) (xs : List Node) : Except TreeError Node :=
  index.editParent root id (·.spliceChild id xs)

/-- Removes a node. -/
def remove (index : TreeIndex) (root : Node) (id : Nat) : Except TreeError Node :=
  index.editParent root id (·.removeChild id)

end TreeIndex

namespace Edit

/-- The tree after an edit of the node with this identity. -/
def apply (edit : Edit) (index : TreeIndex) (root : Node) (id : Nat) : Except TreeError Node :=
  match edit with
  | keep => .ok root
  | replace x => index.replace root id x
  | splice xs => index.splice root id xs
  | remove => index.remove root id

/-- What is to be visited after an edit: what lies below a node that came in, and statements that
came in themselves. -/
def arrivals : Edit → List Nat
  | keep | remove => []
  | replace x => x.children.map (·.id)
  | splice xs => xs.map (·.id)

end Edit

end PhpRefactor
