import PhpRefactor.Syntax.Walk

/-!
# How long the rules can go on

The two rules together can change a tree only so often: every edit takes away one fetch from a
variable that is not itself fetched from, and none brings one in.  A pass visits every node that is
there at the end once, and every edit that takes a node out costs one visit more.
-/

set_option autoImplicit false

namespace PhpRefactor

namespace Node

/-- A fetch whose object is a variable. -/
def isVariableFetch (n : Node) : Bool :=
  match n.form with
  | .fetch ⟨_, _, .var _⟩ _ => true
  | _ => false

/-- The fetches from a variable that are not fetched from themselves, in pre-order; `fetched` says
whether the node is. -/
def openFetchesIn (fetched : Bool) (n : Node) : List Node :=
  (if n.isVariableFetch && !fetched then [n] else []) ++
    n.children.attach.flatMap fun ⟨c, _⟩ => c.openFetchesIn (n.kind = .fetch)
termination_by sizeOf n
decreasing_by exact sizeOf_lt_of_mem_children ‹_›

/-- How many fetches from a variable are not fetched from themselves. -/
def openFetches (n : Node) : Nat := (n.openFetchesIn false).length

/-- As many visits as a pass of the two rules can make. -/
def visitBound (n : Node) : Nat := n.size + n.openFetches

end Node

end PhpRefactor
