import PhpRefactor.Syntax.Segment

/-!
# Walking a tree

A node comes before its children and the children come in natural order: this is the order in
which a tree is listed (`Node.preorder`), numbered (`Node.number`) and visited by a pass.  A path
is a list of child positions, read from the root down; `Node.at?` follows one and `Node.setAt?`
exchanges the node at its end.
-/

set_option autoImplicit false

namespace PhpRefactor

namespace Node

/-- The node and everything below it: a node first, then its children in natural order. -/
def preorder (n : Node) : List Node :=
  n :: n.children.attach.flatMap fun ⟨c, _⟩ => c.preorder
termination_by sizeOf n
decreasing_by exact sizeOf_lt_of_mem_children ‹_›

theorem preorder_eq (n : Node) : n.preorder = n :: n.children.flatMap preorder := by
  rw [preorder]
  simp [List.flatMap_def]

/-- Everything below the node, the node itself left out. -/
def descendants (n : Node) : List Node := n.children.flatMap preorder

/-- The number of nodes. -/
def size (n : Node) : Nat := n.preorder.length

theorem size_eq (n : Node) : n.size = 1 + (n.children.flatMap preorder).length := by
  rw [size, preorder_eq, List.length_cons, Nat.add_comm]

theorem size_pos (n : Node) : 0 < n.size := by
  rw [size_eq]
  omega

/-- The identities in pre-order. -/
def ids (n : Node) : List Nat := n.preorder.map (·.id)

/-- Computes bottom up: `combine` sees the construct with the results for the children in their
places. -/
def fold {α : Type} (combine : Nat → Span → Form α → α) (n : Node) : α :=
  combine n.id n.span (n.form.attach.map fun ⟨c, _⟩ => c.fold combine)
termination_by sizeOf n
decreasing_by exact sizeOf_lt_of_mem_children ‹_›

theorem fold_eq {α : Type} (combine : Nat → Span → Form α → α) (n : Node) :
    n.fold combine = combine n.id n.span (n.form.map (fold combine)) := by
  rw [fold, ← Form.attach_map n.form (fold combine)]

/-- The tree with every identity replaced. -/
def mapIds (f : Nat → Nat) (n : Node) : Node := n.fold fun id span form => ⟨f id, span, form⟩

mutual

/-- Numbers the nodes in pre-order, from a first number on; returns the next number as well.  What
is done with a tree does not depend on which numbers its nodes have, as long as they differ. -/
def number (next : Nat) (n : Node) : Node × Nat :=
  let (cs, after) := numberAll (next + 1) n.children
  (⟨next, n.span, n.form.refill cs⟩, after)
termination_by 2 * n.size
decreasing_by
  rw [size_eq]
  omega

/-- Numbers several trees, one after the other. -/
def numberAll (next : Nat) (trees : List Node) : List Node × Nat :=
  match trees with
  | [] => ([], next)
  | t :: ts =>
    let (t, next) := number next t
    let (ts, next) := numberAll next ts
    (t :: ts, next)
termination_by 2 * (trees.flatMap preorder).length + 1
decreasing_by
  · simp only [List.flatMap_cons, List.length_append, size]
    omega
  · have := size_pos t
    rw [size] at this
    simp only [List.flatMap_cons, List.length_append]
    omega

end

/-- The node at the end of a path. -/
def at? (n : Node) : List Nat → Option Node
  | [] => some n
  | i :: path => n.children[i]? >>= fun c => c.at? path

/-- The tree with the node at the end of a path exchanged. -/
def setAt? (n : Node) (path : List Nat) (x : Node) : Option Node :=
  match path with
  | [] => some x
  | i :: path => do
    let c ← n.children[i]?
    return n.setChild i (← c.setAt? path x)

end Node

end PhpRefactor
