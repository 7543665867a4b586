import PhpRefactor.Syntax.Segment

/-!
# Structural equality

Two trees are the same program when they agree in everything but identities and
positions.  Floating-point literals compare as numbers: a NaN literal differs from itself, and the
two zeros are one.
-/

set_option autoImplicit false

namespace PhpRefactor

namespace Form

/-- The same construct with the children left out; floating-point literals compare as numbers. -/
def sameShape (a b : Form Unit) : Bool :=
  match a, b with
  | .float x, .float y => x.ieeeEq y
  | a, b => a = b

end Form

namespace Node

/-- The same program: the same construct with pairwise the same children. -/
def same (a b : Node) : Bool :=
  a.form.shape.sameShape b.form.shape &&
    (a.children.attach.zip b.children).all fun (⟨c, _⟩, d) => c.same d
termination_by sizeOf a
decreasing_by exact sizeOf_lt_of_mem_children ‹_›

theorem same_eq (a b : Node) :
    a.same b = (a.form.shape.sameShape b.form.shape &&
      (a.children.zip b.children).all fun (c, d) => c.same d) := by
  rw [same]
  conv => rhs; rw [← List.attach_map_subtype_val a.children, List.zip_map_left, List.all_map]
  rfl

end Node

end PhpRefactor
