import PhpRefactor.Syntax.Handle
import PhpRefactor.Proofs.Syntax.Numbering

/-!
# What a write changes

A write to a child is a refill with the children as they are but for one (`Form.setChild_eq_refill`),
so it keeps whatever is not a child (`Node.Overwritten`).  Writes at the end of a path follow by
induction on the path: below its end stands the new node, on the way down each node has one child
exchanged, and beside the way nothing changes (`Node.RewrittenAt`).  The handle that is found on the
way reads and writes the same place as `Node.at?` and `Node.setAt?` do.
-/

set_option autoImplicit false

namespace PhpRefactor

/-! ## A write to a child is a refill -/

namespace Segment

variable {α : Type}

theorem refill_toList (s : Segment α) (rest : List α) : s.refill (s.toList ++ rest) = s := by
  cases s with
  | required c => rfl
  | slot c => cases c <;> rfl
  | stmts cs | items cs => simp [refill, toList]

theorem set_eq_refill {s : Segment α} {i : Nat} (h : i < s.toList.length) (x : α) (rest : List α) :
    s.set i x = s.refill (s.toList.set i x ++ rest) := by
  cases s with
  | required c =>
    obtain rfl : i = 0 := by simpa [toList] using h
    rfl
  | slot c =>
    cases c with
    | none => simp [toList] at h
    | some c =>
      obtain rfl : i = 0 := by simpa [toList] using h
      rfl
  | stmts cs | items cs => simp [set, refill, toList]

end Segment

namespace Form

variable {α : Type}

theorem refillSegments_flatMap (segments : List (Segment α)) :
    refillSegments segments (segments.flatMap Segment.toList) = segments := by
  induction segments with
  | nil => rfl
  | cons s segments ih =>
    rw [refillSegments, List.flatMap_cons, Segment.refill_toList, List.drop_left, ih]

theorem setInSegments_eq_refill (segments : List (Segment α)) (i : Nat) (x : α) :
    setInSegments segments i x =
      refillSegments segments ((segments.flatMap Segment.toList).set i x) := by
  induction segments generalizing i with
  | nil => rfl
  | cons s segments ih =>
    rw [setInSegments, refillSegments, List.flatMap_cons, List.set_append]
    split
    · rename_i hlt
      rw [← Segment.set_eq_refill hlt, List.drop_left' List.length_set, refillSegments_flatMap]
    · rw [Segment.refill_toList, List.drop_left, ih]

/-- To overwrite a child is to refill the construct with its children, one of them exchanged. -/
theorem setChild_eq_refill (form : Form α) (i : Nat) (x : α) :
    form.setChild i x = form.refill (form.children.set i x) := by
  rw [setChild, setInSegments_eq_refill]
  rfl

theorem children_setChild (form : Form α) (i : Nat) (x : α) :
    (form.setChild i x).children = form.children.set i x := by
  rw [setChild_eq_refill, children_refill List.length_set]

theorem shape_setChild (form : Form α) (i : Nat) (x : α) :
    (form.setChild i x).shape = form.shape := by
  rw [setChild_eq_refill]
  refine map_refill ?_
  rw [List.map_const', List.map_const', List.length_set]

theorem setChild_of_getElem? {form : Form α} {i : Nat} {c : α} (h : form.children[i]? = some c) :
    form.setChild i c = form := by
  obtain ⟨hlt, rfl⟩ := List.getElem?_eq_some_iff.mp h
  rw [setChild, setInSegments_eq_refill]
  change form.withSegments (refillSegments _ (form.children.set i form.children[i])) = form
  rw [List.set_getElem_self]
  change form.withSegments (refillSegments _ (form.segments.flatMap Segment.toList)) = form
  rw [refillSegments_flatMap, withSegments_segments]

end Form

namespace Node

/-- The node `n'` is the node `n` with `x` for its child at a position.  What the construct is
without its children stays: its kind, its names, hints, flags and operators, how long each of its
lists is and which of its optional places are filled. -/
structure Overwritten (n : Node) (i : Nat) (x n' : Node) : Prop where
  id_eq : n'.id = n.id
  span_eq : n'.span = n.span
  shape_eq : n'.form.shape = n.form.shape
  children_eq : n'.children = n.children.set i x

variable {n n' x : Node} {i : Nat}

theorem Overwritten.kind_eq (h : n.Overwritten i x n') : n'.kind = n.kind := by
  have hkind := congrArg Form.kind h.shape_eq
  rwa [Form.shape, Form.shape, Form.kind_map, Form.kind_map] at hkind

theorem overwritten_setChild (n : Node) (i : Nat) (x : Node) :
    n.Overwritten i x (n.setChild i x) where
  id_eq := rfl
  span_eq := rfl
  shape_eq := n.form.shape_setChild i x
  children_eq := n.form.children_setChild i x

theorem children_setChild (n : Node) (i : Nat) (x : Node) :
    (n.setChild i x).children = n.children.set i x :=
  (n.overwritten_setChild i x).children_eq

/-- There are as many handles as children, and each holds its child. -/
theorem map_held_handles (n : Node) : n.handles.map Handle.held = n.children := by
  refine List.ext_getElem? fun i => ?_
  rw [List.getElem?_map, getElem?_handles, Option.map_map]
  cases n.children[i]? <;> rfl

theorem put_of_getElem?_handles {h : Handle Node Node} (hi : n.handles[i]? = some h) :
    h.put = n.setChild i := by
  rw [getElem?_handles] at hi
  obtain ⟨c, -, rfl⟩ := Option.map_eq_some_iff.mp hi
  rfl

/-! ## Paths -/

/-- The tree `root'` is the tree `root` with `x` at the end of a path. -/
structure RewrittenAt (root : Node) (path : List Nat) (x root' : Node) : Prop where
  /-- The new node stands at the end of the path, with all that is below it. -/
  below : ∀ q, root'.at? (path ++ q) = x.at? q
  /-- On the way down each node changes only the child that the path goes on with. -/
  above : ∀ q i r, path = q ++ i :: r → ∃ m c' m',
    root.at? q = some m ∧ root'.at? q = some m' ∧ m.Overwritten i c' m'
  /-- What is neither on the way nor below its end stays. -/
  beside : ∀ q, ¬ q <+: path → ¬ path <+: q → root'.at? q = root.at? q

variable {root c c' : Node} {path : List Nat}

theorem rewrittenAt_nil (root x : Node) : root.RewrittenAt [] x x where
  below _ := rfl
  above q i r hpath := absurd hpath.symm (by simp)
  beside q _ hroot := absurd List.nil_prefix hroot

/-- The child is changed at the end of a path, and the tree at the end of the path to it. -/
theorem RewrittenAt.child (hc : root.children[i]? = some c) (h : c.RewrittenAt path x c') :
    root.RewrittenAt (i :: path) x (root.setChild i c') := by
  obtain ⟨hlt, -⟩ := List.getElem?_eq_some_iff.mp hc
  have hsame : ∀ q, (root.setChild i c').at? (i :: q) = c'.at? q := fun q => by
    rw [at?, children_setChild, List.getElem?_set_self hlt]
    rfl
  have hold : ∀ q, root.at? (i :: q) = c.at? q := fun q => by
    rw [at?, hc]
    rfl
  constructor
  case below =>
    intro q
    rw [List.cons_append, hsame, h.below]
  case above =>
    intro q j r hpath
    cases q with
    | nil =>
      obtain ⟨rfl, rfl⟩ := List.cons.inj hpath
      exact ⟨root, c', _, rfl, rfl, root.overwritten_setChild i c'⟩
    | cons k q =>
      obtain ⟨rfl, hrest⟩ := List.cons.inj hpath
      obtain ⟨m, d, m', hm, hm', hoverwritten⟩ := h.above q j r hrest
      exact ⟨m, d, m', (hold q).trans hm, (hsame q).trans hm', hoverwritten⟩
  case beside =>
    intro q hq hpath
    cases q with
    | nil => exact absurd List.nil_prefix hq
    | cons k q =>
      by_cases hk : i = k
      · subst hk
        rw [hsame, hold]
        exact h.beside q (fun hprefix => hq (List.cons_prefix_cons.mpr ⟨rfl, hprefix⟩))
          fun hprefix => hpath (List.cons_prefix_cons.mpr ⟨rfl, hprefix⟩)
      · rw [at?, children_setChild, List.getElem?_set_ne hk, at?]

/-- The way down by handles is the way down by children. -/
theorem handleAt?_cons (n : Node) (i : Nat) (path : List Nat) :
    n.handleAt? (i :: path) = n.children[i]?.bind fun c =>
      (c.handleAt? path).map (Handle.map (n.setChild i)) := by
  rw [handleAt?, getElem?_handles]
  cases n.children[i]? with
  | none => rfl
  | some c =>
    exact (Option.map_eq_bind ..).symm

/-- The handle at the end of a path holds the node there. -/
theorem map_held_handleAt? (n : Node) (path : List Nat) :
    (n.handleAt? path).map Handle.held = n.at? path := by
  induction path generalizing n with
  | nil => rfl
  | cons i path ih =>
    rw [handleAt?_cons, at?]
    cases n.children[i]? with
    | none => rfl
    | some c =>
      rw [Option.bind_some, Option.map_map]
      exact ih c

/-- What the handle at the end of a path puts there is what is set there. -/
theorem setAt?_eq_map_put (n : Node) (path : List Nat) (x : Node) :
    n.setAt? path x = (n.handleAt? path).map (·.put x) := by
  induction path generalizing n with
  | nil => rfl
  | cons i path ih =>
    rw [handleAt?_cons, setAt?]
    cases n.children[i]? with
    | none => rfl
    | some c =>
      change ((c.setAt? path x).bind fun d => some (n.setChild i d)) = _
      rw [ih, Option.bind_map, Option.bind_some, Option.map_map, Option.map_eq_bind]
      rfl

/-- What the handle holds, put back, changes nothing. -/
theorem put_held {h : Handle Node Node} (hpath : n.handleAt? path = some h) : h.put h.held = n := by
  induction path generalizing n h with
  | nil =>
    obtain rfl := Option.some.inj hpath
    rfl
  | cons i path ih =>
    rw [handleAt?_cons] at hpath
    obtain ⟨c, hc, hrest⟩ := Option.bind_eq_some_iff.mp hpath
    obtain ⟨below, hbelow, rfl⟩ := Option.map_eq_some_iff.mp hrest
    change n.setChild i (below.put below.held) = n
    rw [ih hbelow]
    cases n
    exact congrArg (Node.mk _ _) (Form.setChild_of_getElem? hc)

/-- A write through the handle at the end of a path rewrites the tree there. -/
theorem rewrittenAt_put {h : Handle Node Node} (hpath : n.handleAt? path = some h) (x : Node) :
    n.RewrittenAt path x (h.put x) := by
  induction path generalizing n h with
  | nil =>
    obtain rfl := Option.some.inj hpath
    exact rewrittenAt_nil n x
  | cons i path ih =>
    rw [handleAt?_cons] at hpath
    obtain ⟨c, hc, hrest⟩ := Option.bind_eq_some_iff.mp hpath
    obtain ⟨below, hbelow, rfl⟩ := Option.map_eq_some_iff.mp hrest
    exact (ih hbelow).child hc

end Node

end PhpRefactor
