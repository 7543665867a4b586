import PhpRefactor.Rule.Basic

/-!
# Access through a container

Some objects carry a name not as a property but as a node that carries the name: for them
`$node->var` has to become `$node->var->name`.  The rule is told the classes of such objects, the
member that is read (`sentinel`) and the member to read from it (`canonical`).

A fetch that is already the object of a fetch stays, which is what keeps the rule from finding its
own result again.
-/

set_option autoImplicit false

namespace PhpRefactor

/-- What the rule is told. -/
structure CanonicalAccess where
  containerTypes : List String
  sentinel : String
  canonical : String
  deriving DecidableEq, Repr

namespace CanonicalAccess

/-- The containers of the parser API. -/
def standard : CanonicalAccess where
  containerTypes := ["PhpParser\\Node\\Stmt\\Catch_", "PhpParser\\Node\\Expr\\ClosureUse"]
  sentinel := "var"
  canonical := "name"

/-- The type is one of the containers. -/
def isContainer (access : CanonicalAccess) (type : StaticType) : Bool :=
  access.containerTypes.any type.isObjectOf

/-- `$x->sentinel->canonical` in place of `$x->sentinel`; the outer fetch takes the place of the old
one. -/
def lengthened (access : CanonicalAccess) (n : Node) (x : String) (next : Nat) : Node :=
  let object : Node := ⟨next, .none, .var x⟩
  let inner : Node := ⟨next + 1, .none, .fetch object access.sentinel⟩
  ⟨n.id, n.span, .fetch inner access.canonical⟩

/-- The parent of the node is a fetch. -/
def isFetched (site : Site) (n : Node) : Except TreeError Bool := do
  match ← site.tree.parentOf n.id with
  | some parent => return parent.kind = .fetch
  | none => return false

/-- The variable in `$x->sentinel`, when it holds a container and the fetch is to be made longer. -/
def container? (access : CanonicalAccess) (site : Site) (n : Node) :
    Except TreeError (Option String) :=
  match n.form with
  | .fetch object name =>
    if name ≠ access.sentinel then .ok none
    else
      match object.form with
      | .var x => do
        let scope ← site.scopeOf n.id
        if !access.isContainer (site.oracle scope object) then return none
        if ← isFetched site n then return none
        return some x
      | _ => .ok none
  | _ => .ok none

/-- The edit of the rule, and what is left of the supply. -/
def lengthen (access : CanonicalAccess) (n : Node) (next : Nat) : Option String → Edit × Nat
  | none => (.keep, next)
  | some x => (.replace (access.lengthened n x next), next + 2)

/-- Makes accesses to containers canonical. -/
def rule (access : CanonicalAccess) : Rule where
  name := "CatchAndClosureUseName"
  description := "Rewrites $x->var to $x->var->name for Catch_ and ClosureUse objects"
  kinds := [.fetch]
  apply site n next := (RunError.ofTree (access.container? site n)).map (access.lengthen n next)

end CanonicalAccess

end PhpRefactor
