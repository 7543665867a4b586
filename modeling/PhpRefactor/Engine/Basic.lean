import PhpRefactor.Engine.Pass
import PhpRefactor.Types.Declared

/-!
# The engine

An engine has rules, an oracle and limits, and works on a `Workspace`: a tree, a supply of
identities for new nodes, and the statistics.  It makes a single pass, or passes until one of them
changes nothing.

A run that fails leaves the workspace as it stood at the failure, and says so beside it.
-/

set_option autoImplicit false

namespace PhpRefactor

/-- What an engine works on. -/
structure Workspace where
  tree : Node
  /-- Above every identity in use. -/
  next : Nat
  stats : Stats

/-- The counts of one pass. -/
structure PassSummary where
  visits : Nat
  edits : Nat
  deriving DecidableEq, Repr

/-- The counts of a run until the tree is stable. -/
structure RunSummary where
  passes : Nat
  visits : Nat
  edits : Nat
  deriving DecidableEq, Repr

namespace RunSummary

def zero : RunSummary := ⟨0, 0, 0⟩

/-- The counts with one more pass. -/
def add (s : RunSummary) (pass : PassSummary) : RunSummary :=
  ⟨s.passes + 1, s.visits + pass.visits, s.edits + pass.edits⟩

/-- The run made an edit. -/
def changed (s : RunSummary) : Bool := 0 < s.edits

end RunSummary

/-- Rules, and what they work with. -/
structure Engine where
  rules : List Rule
  oracle : Oracle
  /-- How many passes a run until stable may make. -/
  maxPasses : Nat
  /-- How many visits a pass over a tree may make. -/
  visitLimit : Node → Nat

namespace Engine

def ruleNames (e : Engine) : List String := e.rules.map (·.name)

/-- An entry for every rule, all counts at zero. -/
def newStats (e : Engine) : Stats := e.ruleNames.foldl Stats.register []

/-- A workspace for a tree whose identities are below `next`. -/
def workspace (e : Engine) (tree : Node) (next : Nat) : Workspace := ⟨tree, next, e.newStats⟩

/-- One pass.  `number` is its number within the run. -/
def pass (e : Engine) (number : Nat) (w : Workspace) : Workspace × Except RunError PassSummary :=
  match TreeIndex.ofTree w.tree with
  | .error reason => (w, .error (.badTree reason))
  | .ok index =>
    let begun := PassState.start w.tree index w.next w.stats
    match begun.run e.rules e.oracle number (e.visitLimit w.tree) with
    | .error ⟨reason, s⟩ => (⟨s.tree, s.next, s.stats⟩, .error reason)
    | .ok s => (⟨s.tree, s.next, s.stats⟩, .ok ⟨s.visits, s.edits⟩)

/-- Passes until one of them makes no edit, but at most `passes` more. -/
def passesFrom (e : Engine) (w : Workspace) (summary : RunSummary) :
    Nat → Workspace × Except RunError RunSummary
  | 0 => (w, .error (.unstable e.maxPasses))
  | passes + 1 =>
    match e.pass (summary.passes + 1) w with
    | (w, .error reason) => (w, .error reason)
    | (w, .ok counts) =>
      let summary := summary.add counts
      if counts.edits = 0 then (w, .ok summary) else e.passesFrom w summary passes

/-- Passes until one of them makes no edit. -/
def stabilize (e : Engine) (w : Workspace) : Workspace × Except RunError RunSummary :=
  e.passesFrom w .zero e.maxPasses

end Engine

end PhpRefactor
