import PhpRefactor.Index.Basic
import PhpRefactor.Types.Basic

/-!
# What a constructor assigns

The static type of the value that a class assigns to one of its private properties in its
constructor.  The answer is cautious: the first assignment decides, and it counts only as a plain
statement directly in the body of the constructor, where it cannot be left out.

The walk goes through the body in pre-order and looks for places where the property is read or
written.  Whether such a place is the target of an assignment is asked of the index.
-/

set_option autoImplicit false

namespace PhpRefactor

/-- Why the type of a property is not known. -/
inductive Unresolved where
  | unknownMember
  /-- Code outside of the class could assign the property. -/
  | notPrivate
  | noConstructor
  | notAssigned
  /-- The first assignment may not be reached, or is no statement of its own. -/
  | nestedAssignment
  deriving DecidableEq, Repr

/-- What is known about the type of a property. -/
inductive Resolution where
  | resolved (type : StaticType)
  | unresolved (reason : Unresolved)
  deriving DecidableEq, Repr

namespace Node

/-- The members of a class; anything else has none. -/
def members (n : Node) : List Node :=
  match n.form with
  | .classDecl _ _ ms => ms
  | _ => []

/-- The node declares the property of this name. -/
def isPropertyNamed (name : String) (n : Node) : Bool :=
  match n.form with
  | .property _ _ x _ => x = name
  | _ => false

/-- The node declares the method of this name; the case of ASCII letters does not matter. -/
def isMethodNamed (name : String) (n : Node) : Bool :=
  match n.form with
  | .method x .. => sameName x name
  | _ => false

/-- The first property of this name that a class declares. -/
def findProperty? (n : Node) (name : String) : Option Node := n.members.find? (isPropertyNamed name)

/-- The first method of this name that a class declares. -/
def findMethod? (n : Node) (name : String) : Option Node := n.members.find? (isMethodNamed name)

/-- The name of a constructor. -/
def constructorName : String := "__construct"

/-- The node declares a constructor. -/
def isConstructor (n : Node) : Bool := n.isMethodNamed constructorName

/-- The node declares a private property. -/
def isPrivateProperty (n : Node) : Bool :=
  match n.form with
  | .property v .. => v = .isPrivate
  | _ => false

/-- The body of a method. -/
def methodBody (n : Node) : List Node :=
  match n.form with
  | .method _ _ _ _ ss => ss
  | _ => []

/-- The node is `$this->name`. -/
def isOwnMember (name : String) (n : Node) : Bool :=
  match n.form with
  | .fetch o x => x = name && o.isVariable "this"
  | _ => false

end Node

namespace IndexedTree

/-- The assignment whose target is this node, and the value that it assigns. -/
def assignmentTo (tree : IndexedTree) (target : Node) :
    Except TreeError (Option (Node × Node)) := do
  match ← tree.parentOf target.id with
  | none => return none
  | some parent =>
    match parent.form with
    | .assign t v => return if t.id = target.id then some (parent, v) else none
    | _ => return none

/-- The assignment is a statement directly in the body of the constructor. -/
def isDirectIn (tree : IndexedTree) (assignment constructor : Node) : Except TreeError Bool := do
  match ← tree.parentOf assignment.id with
  | none => return false
  | some statement =>
    if statement.kind = .exprStmt then
      match ← tree.parentOf statement.id with
      | none => return false
      | some parent => return parent.id = constructor.id
    else return false

/-- The first assignment to `$this->name` among these nodes of the constructor. -/
def firstAssignment (tree : IndexedTree) (oracle : Oracle) (classDecl constructor : Node)
    (name : String) : List Node → Except TreeError Resolution
  | [] => .ok (.unresolved .notAssigned)
  | n :: ns =>
    if n.isOwnMember name then do
      match ← tree.assignmentTo n with
      | none => tree.firstAssignment oracle classDecl constructor name ns
      | some (assignment, value) =>
        if ← tree.isDirectIn assignment constructor then
          return .resolved (oracle ⟨some classDecl, some constructor⟩ value)
        else return .unresolved .nestedAssignment
    else tree.firstAssignment oracle classDecl constructor name ns

/-- The type of the value that the constructor of a class assigns to a private property. -/
def memberType (tree : IndexedTree) (oracle : Oracle) (classDecl : Node) (name : String) :
    Except TreeError Resolution :=
  match classDecl.findProperty? name with
  | none => .ok (.unresolved .unknownMember)
  | some property =>
    if !property.isPrivateProperty then .ok (.unresolved .notPrivate)
    else
      match classDecl.findMethod? Node.constructorName with
      | none => .ok (.unresolved .noConstructor)
      | some constructor =>
        tree.firstAssignment oracle classDecl constructor name
          (constructor.methodBody.flatMap Node.preorder)

end IndexedTree

end PhpRefactor
