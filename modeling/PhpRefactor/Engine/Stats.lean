import PhpRefactor.Number.Double

/-!
# Statistics

How often a rule was asked and how often it asked for an edit, by name: rules of one name share an
entry, and entries stand in the order in which their names were first registered.

An entry can also hold the time that was spent.  A `Duration` counts nanoseconds; the average goes
through doubles, each step rounded to the nearest, and ends on the nearest nanosecond.
-/

set_option autoImplicit false

namespace PhpRefactor

/-- A span of time in nanoseconds. -/
structure Duration where
  nanos : Nat
  deriving DecidableEq, Repr, Inhabited

namespace Duration

def perSecond : Nat := Nat.pow 10 9

/-- Whole seconds and the nanoseconds beyond them. -/
def ofParts (secs nanos : Nat) : Duration := ⟨secs * perSecond + nanos⟩

def secs (d : Duration) : Nat := d.nanos / perSecond
def subsecNanos (d : Duration) : Nat := d.nanos % perSecond

/-- The seconds as a double: whole seconds and the fraction are rounded apart and then added. -/
def toDouble (d : Duration) : Double :=
  (Double.ofNat d.secs).addMagnitude
    ((Double.ofNat d.subsecNanos).divMagnitude (Double.ofNat perSecond))

/-- The duration nearest to a count of seconds that is not negative; ties go to the even
nanosecond. -/
def ofDouble (secs : Double) : Duration :=
  ⟨Double.divNearestEven (secs.magnitude.1 * perSecond) secs.magnitude.2⟩

end Duration

/-- What is known about the work of the rules of one name. -/
structure RuleStats where
  name : String
  invocations : Nat
  edits : Nat
  elapsed : Duration
  deriving DecidableEq, Repr

namespace RuleStats

def new (name : String) : RuleStats := ⟨name, 0, 0, ⟨0⟩⟩

/-- The share of invocations that led to an edit. -/
def editRate (s : RuleStats) : Double :=
  if s.invocations = 0 then .zero
  else (Double.ofNat s.edits).divMagnitude (Double.ofNat s.invocations)

/-- The time that an invocation took on average. -/
def averageTime (s : RuleStats) : Duration :=
  if s.invocations = 0 then ⟨0⟩
  else .ofDouble (s.elapsed.toDouble.divMagnitude (Double.ofNat s.invocations))

end RuleStats

/-- One entry per name. -/
abbrev Stats := List RuleStats

namespace Stats

/-- Changes the entry of a name; without one, a new entry comes last. -/
def change (stats : Stats) (name : String) (f : RuleStats → RuleStats) : Stats :=
  match stats with
  | [] => [f (.new name)]
  | s :: ss => if s.name = name then f s :: ss else s :: change ss name f

/-- Makes sure that there is an entry. -/
def register (stats : Stats) (name : String) : Stats := stats.change name id

/-- A rule of this name was asked. -/
def invoked (stats : Stats) (name : String) : Stats :=
  stats.change name fun s => { s with invocations := s.invocations + 1 }

/-- A rule of this name asked for an edit. -/
def edited (stats : Stats) (name : String) : Stats :=
  stats.change name fun s => { s with edits := s.edits + 1 }

/-- All counts back at zero. -/
def clear (stats : Stats) : Stats := stats.map fun s => .new s.name

end Stats

end PhpRefactor
