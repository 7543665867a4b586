import PhpRefactor.Index.Edit
import PhpRefactor.Types.Basic

/-!
# Rules

A rule declares which kinds of nodes it wants to see and answers, for each such node, with an edit
of that node.  It describes the edit and does not carry it out.  What it can look at is its `Site`:
the indexed tree, the oracle and the number of the pass.

A rule may make new nodes.  It takes their identities from a supply, a natural number above every
identity in use, and hands the supply back.
-/

set_option autoImplicit false

namespace PhpRefactor

/-- Why a run ended early. -/
inductive RunError where
  | badTree (reason : TreeError)
  /-- The rules still asked for edits in the last pass. -/
  | unstable (passes : Nat)
  /-- A pass did not come to its end within this many visits. -/
  | tooManyVisits (limit : Nat)
  deriving DecidableEq, Repr

namespace RunError

/-- The error in words; `idText` writes an identity. -/
def messageWith (idText : Nat → String) : RunError → String
  | badTree reason => reason.messageWith idText
  | unstable passes => "Transformation did not stabilize within " ++ toString passes ++ " passes"
  | tooManyVisits limit => "Pass did not end within " ++ toString limit ++ " visits"

def message (e : RunError) : String := e.messageWith TreeError.idText

def mapIds (f : Nat → Nat) : RunError → RunError
  | badTree reason => badTree (reason.mapIds f)
  | e => e

/-- A failure in the structure of the tree is a failure of the run. -/
def ofTree {α : Type} : Except TreeError α → Except RunError α
  | .ok x => .ok x
  | .error e => .error (badTree e)

end RunError

/-- What a rule can see while it looks at a node. -/
structure Site where
  tree : IndexedTree
  oracle : Oracle
  /-- The number of the pass within its run; the first is `1`. -/
  pass : Nat

namespace Site

/-- The declarations around a node. -/
def scopeOf (site : Site) (id : Nat) : Except TreeError Scope := do
  return ⟨← site.tree.classOf id, ← site.tree.functionOf id⟩

end Site

/-- A rule. -/
structure Rule where
  name : String
  description : String
  /-- The kinds of nodes it wants to see. -/
  kinds : List Kind
  /-- The edit that it asks for at a node, and what is left of the supply of identities. -/
  apply : Site → Node → Nat → Except RunError (Edit × Nat)

namespace Rule

/-- The rule wants to see nodes of this kind. -/
def appliesTo (rule : Rule) (kind : Kind) : Bool := rule.kinds.contains kind

end Rule

end PhpRefactor
