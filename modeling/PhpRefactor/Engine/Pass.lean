import PhpRefactor.Engine.Stats
import PhpRefactor.Rule.Basic

/-!
# A pass

A pass visits the nodes of a tree in pre-order and offers each to the rules that want to see its
kind, in the order of the rules.  The first rule that asks for an edit gets it; the edit is carried
out, the tree is indexed anew, and the walk goes on in what came in.

The walk is a list of identities that are still to be visited (`PassState.pending`).  A node is
looked up in the index when its turn comes, so a pass never holds on to a part of a tree that has
changed since.  No node is offered twice in a pass, but what lies below it is visited all the same.

`PassState.step` makes one visit and `PassState.run` repeats it.  Rules could go on for ever, so
`run` takes a number of visits that it may make.
-/

set_option autoImplicit false

namespace PhpRefactor

/-- What came of offering a node to the rules. -/
structure Offer where
  stats : Stats
  next : Nat
  answer : Except RunError Edit

/-- Offers a node to the rules, in order, until one asks for an edit or fails. -/
def offer (site : Site) (n : Node) (stats : Stats) (next : Nat) : List Rule → Offer
  | [] => ⟨stats, next, .ok .keep⟩
  | rule :: rules =>
    if rule.appliesTo n.kind then
      let stats := stats.invoked rule.name
      match rule.apply site n next with
      | .error e => ⟨stats, next, .error e⟩
      | .ok (.keep, next) => offer site n stats next rules
      | .ok (edit, next) => ⟨stats.edited rule.name, next, .ok edit⟩
    else offer site n stats next rules

/-- Where a pass stands. -/
structure PassState where
  tree : Node
  index : TreeIndex
  /-- Who is still to be visited, the next one first. -/
  pending : List Nat
  /-- Who was offered to the rules, the last one first. -/
  offered : List Nat
  /-- The supply of new identities. -/
  next : Nat
  stats : Stats
  visits : Nat
  edits : Nat

/-- A pass that failed, and where it stood. -/
structure Halt where
  reason : RunError
  state : PassState

namespace PassState

/-- The beginning of a pass over an indexed tree. -/
def start (tree : Node) (index : TreeIndex) (next : Nat) (stats : Stats) : PassState :=
  ⟨tree, index, [tree.id], [], next, stats, 0, 0⟩

/-- Carries out the edit that a rule asked for and indexes the tree anew. -/
def carryOut (s : PassState) (id : Nat) (edit : Edit) : Except Halt PassState :=
  let s := { s with edits := s.edits + 1 }
  match edit.apply s.index s.tree id with
  | .error e => .error ⟨.badTree e, s⟩
  | .ok tree =>
    match TreeIndex.ofTree tree with
    | .error e => .error ⟨.badTree e, { s with tree }⟩
    | .ok index => .ok { s with tree, index, pending := edit.arrivals ++ s.pending }

/-- Walks on to the children of a node. -/
def descend (s : PassState) (n : Node) : PassState :=
  { s with pending := n.children.map (·.id) ++ s.pending }

/-- Visits a node: offers it to the rules unless that has been done, and walks on. -/
def visit (rules : List Rule) (oracle : Oracle) (pass : Nat) (s : PassState) (n : Node) :
    Except Halt PassState :=
  let s := { s with visits := s.visits + 1 }
  if n.id ∈ s.offered then .ok (s.descend n)
  else
    let found := offer ⟨⟨s.tree, s.index⟩, oracle, pass⟩ n s.stats s.next rules
    let s := { s with offered := n.id :: s.offered, stats := found.stats, next := found.next }
    match found.answer with
    | .error e => .error ⟨e, s⟩
    | .ok .keep => .ok (s.descend n)
    | .ok edit => s.carryOut n.id edit

/-- Makes the next visit. -/
def step (rules : List Rule) (oracle : Oracle) (pass : Nat) (s : PassState) :
    Except Halt PassState :=
  match s.pending with
  | [] => .ok s
  | id :: pending =>
    let s := { s with pending }
    match s.index.find? s.tree id with
    | none => .error ⟨.badTree (.unattached id), s⟩
    | some n => s.visit rules oracle pass n

/-- Makes visits until nobody is left to visit, but at most this many. -/
def run (rules : List Rule) (oracle : Oracle) (pass : Nat) : Nat → PassState → Except Halt PassState
  | visits, s =>
    if s.pending.isEmpty then .ok s
    else
      match visits with
      | 0 => .error ⟨.tooManyVisits s.visits, s⟩
      | visits + 1 =>
        match s.step rules oracle pass with
        | .error halt => .error halt
        | .ok s => s.run rules oracle pass visits

end PassState

end PhpRefactor
