import PhpRefactor.Rule.Basic
import PhpRefactor.Types.Constructor

/-!
# Conditions that are always true

`if ($this->member) { ... }` is its body when the constructor of the class sets the private property
`member` to an object, since an object is always true.  An `if` with other branches stays, and so
does one inside the constructor itself, where the property may not be set yet.
-/

set_option autoImplicit false

namespace PhpRefactor

namespace IndexedTree

/-- One of the functions around a node is a constructor; the node itself counts when it is one.  At
most `steps` of them are looked at; a tree has no more functions around a node than it has nodes. -/
def insideConstructor (tree : IndexedTree) : Nat → Option Node → Except TreeError Bool
  | _, none => .ok false
  | 0, some _ => .ok true
  | steps + 1, some f =>
    if f.isConstructor then .ok true
    else
      match tree.functionOf f.id with
      | .error e => .error e
      | .ok outer => tree.insideConstructor steps outer

end IndexedTree

namespace TrueCondition

/-- The member in the condition `$this->member`. -/
def fetchedMember? (cond : Node) : Option String :=
  match cond.form with
  | .fetch o name => if o.isVariable "this" then some name else none
  | _ => none

/-- The body of an `if` without other branches, when its condition is a property that the
constructor sets to an object. -/
def removableBody? (site : Site) (n : Node) : Except TreeError (Option (List Node)) :=
  match n.form with
  | .ifStmt cond body [] none =>
    match fetchedMember? cond with
    | none => .ok none
    | some member => do
      match ← site.tree.classOf n.id with
      | none => return none
      | some classDecl =>
        let function ← site.tree.functionOf n.id
        if ← site.tree.insideConstructor (site.tree.index.size + 1) function then return none
        match ← site.tree.memberType site.oracle classDecl member with
        | .resolved type => return if type.isAlwaysTrue then some body else none
        | .unresolved _ => return none
  | _ => .ok none

/-- The edit that leaves only a body. -/
def unwrap : Option (List Node) → Edit
  | none => .keep
  | some [] => .remove
  | some body => .splice body

/-- Unwraps conditions that are always true. -/
def rule : Rule where
  name := "RemoveAlwaysTrueConditionSetInConstructor"
  description :=
    "Unwraps if statements whose condition is a private property the constructor sets to an object"
  kinds := [.ifStmt]
  apply site n next :=
    (RunError.ofTree (removableBody? site n)).map fun body => (unwrap body, next)

end TrueCondition

end PhpRefactor
