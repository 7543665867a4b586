import PhpRefactor.Index.Edit
import PhpRefactor.Proofs.Syntax.Handle

/-!
# Writing where one reads

Children are read from the runs of a construct and written by putting changed runs back; a recorded
path is followed down to read a node, and followed down again to change it.  Each time the second way
has to end where the first one does.  `Node.WritesWhereItReads` says so of a tree: of its children,
of every path in it, and of every index that it is looked up in, whether the index was made of the
tree or not.  It holds of all trees (`Node.writesWhereItReads`).
-/

set_option autoImplicit false

namespace PhpRefactor

/-! ## The exchange of a child -/

theorem spliceFirst?_singleton {α : Type} (p : α → Bool) (x : α) (cs : List α) :
    spliceFirst? p [x] cs = ((Handle.ofList cs).find? (p ·.held)).map (·.put x) := by
  induction cs with
  | nil => rfl
  | cons c cs ih =>
    rw [spliceFirst?, Handle.ofList, List.find?_cons]
    split
    · rename_i hp
      rw [hp]
      rfl
    · rename_i hp
      rw [Bool.eq_false_iff.mpr hp, List.find?_map, Option.map_map, ih, Option.map_map]
      rfl

namespace Segment

variable {α : Type}

theorem exchange?_eq (p : α → Bool) (x : α) (s : Segment α) :
    exchange? p x s = (s.handles.find? (p ·.held)).map (·.put x) := by
  cases s with
  | required c =>
    rw [exchange?, handles, List.find?_singleton]
    split <;> rfl
  | slot c =>
    cases c with
    | none => rfl
    | some c =>
      rw [exchange?, handles, Handle.ofOption, List.map_singleton, Handle.map_mk,
        List.find?_singleton]
      split <;> rfl
  | stmts cs | items cs =>
    rw [exchange?, spliceFirst?_singleton, handles, List.find?_map, Option.map_map, Option.map_map]
    rfl

theorem changeFirst?_exchange? (p : α → Bool) (x : α) (segments : List (Segment α)) :
    changeFirst? (exchange? p x) segments =
      ((handlesIn segments).find? (p ·.held)).map (·.put x) := by
  induction segments with
  | nil => rfl
  | cons s segments ih =>
    rw [changeFirst?, exchange?_eq, ih, handlesIn, List.find?_append, List.find?_map,
      List.find?_map]
    change _ = (((s.handles.find? (p ·.held)).map (Handle.map (· :: segments))).or
      (((handlesIn segments).find? (p ·.held)).map (Handle.map (s :: ·)))).map (·.put x)
    cases s.handles.find? (p ·.held) with
    | some h => rfl
    | none => cases (handlesIn segments).find? (p ·.held) <;> rfl

end Segment

namespace Node

/-- A child is exchanged through the first handle that holds a node of its identity. -/
theorem exchangeChild_eq (n : Node) (i : Nat) (x : Node) :
    n.exchangeChild i x = match n.handles.find? (·.held.id = i) with
      | some h => .ok (h.put x)
      | none => .error (.notChild i n.id) := by
  have hfind : n.handles.find? (·.held.id = i) =
      ((Segment.handlesIn n.form.segments).find? (·.held.id = i)).map
        (Handle.map fun segments => { n with form := n.form.withSegments segments }) := by
    rw [handles, Form.handles_eq, List.map_map, List.find?_map]
    rfl
  rw [exchangeChild, changeSegment?, Segment.changeFirst?_exchange?, hfind]
  cases (Segment.handlesIn n.form.segments).find? (·.held.id = i) <;> rfl

end Node

/-! ## Looking up to write -/

namespace TreeIndex

/-- Takes hold of the node with this identity, where the index says it is. -/
def handle? (index : TreeIndex) (root : Node) (id : Nat) : Option (Handle Node Node) := do
  let p ← index.placement? id
  let h ← root.handleAt? p.path
  if h.held.id = id then some h else none

variable {index : TreeIndex} {root : Node} {i : Nat} {h : Handle Node Node}

theorem handle?_eq_some_iff : index.handle? root i = some h ↔
    ∃ p, index.placement? i = some p ∧ root.handleAt? p.path = some h ∧ h.held.id = i := by
  constructor
  · intro hfound
    obtain ⟨p, hp, hfound⟩ := Option.bind_eq_some_iff.mp hfound
    obtain ⟨h', hpath, hfound⟩ := Option.bind_eq_some_iff.mp hfound
    split at hfound
    · obtain rfl := Option.some.inj hfound
      exact ⟨p, hp, hpath, ‹_›⟩
    · cases hfound
  · rintro ⟨p, hp, hpath, hid⟩
    simp [handle?, hp, hpath, hid]

/-- What is taken hold of is what is found. -/
theorem map_held_handle? (index : TreeIndex) (root : Node) (i : Nat) :
    (index.handle? root i).map Handle.held = index.find? root i := by
  rw [handle?, find?]
  cases index.placement? i with
  | none => rfl
  | some p =>
    change ((root.handleAt? p.path).bind _).map _ = (root.at? p.path).bind _
    rw [← Node.map_held_handleAt?]
    cases root.handleAt? p.path with
    | none => rfl
    | some h =>
      rw [Option.bind_some, Option.map_some, Option.bind_some]
      split <;> rfl

/-- An update is a write through the handle. -/
theorem update?_eq_map_put (index : TreeIndex) (root : Node) (i : Nat) (change : Node → Node) :
    index.update? root i change = (index.handle? root i).map fun h => h.put (change h.held) := by
  rw [update?, ← map_held_handle?]
  cases hfound : index.handle? root i with
  | none => cases index.placement? i <;> rfl
  | some h =>
    obtain ⟨p, hp, hpath, -⟩ := handle?_eq_some_iff.mp hfound
    rw [hp]
    change root.setAt? p.path (change h.held) = _
    rw [Node.setAt?_eq_map_put, hpath]
    rfl

end TreeIndex

namespace Node

/-- Writing goes to where reading comes from, among the children, along a path and by an index. -/
structure WritesWhereItReads (root : Node) : Prop where
  /-- There is one handle for each child, in order, and it holds the child. -/
  children_held : root.handles.map Handle.held = root.children
  /-- A write through it exchanges that child and nothing else. -/
  child_put : ∀ i h, root.handles[i]? = some h → ∀ x,
    h.put x = root.setChild i x ∧ root.Overwritten i x (h.put x)
  /-- An exchange by identity goes through the first handle of the identity. -/
  child_exchanged : ∀ i x, root.exchangeChild i x =
    match root.handles.find? (·.held.id = i) with
    | some h => .ok (h.put x)
    | none => .error (.notChild i root.id)
  /-- A path leads to the same node, to read it and to take hold of it. -/
  path_held : ∀ path, (root.handleAt? path).map Handle.held = root.at? path
  /-- What is held there, put back, changes nothing. -/
  path_kept : ∀ path h, root.handleAt? path = some h → h.put h.held = root
  /-- A write there exchanges the tree at the end of the path and nothing else. -/
  path_put : ∀ path h, root.handleAt? path = some h → ∀ x,
    root.setAt? path x = some (h.put x) ∧ root.RewrittenAt path x (h.put x)
  /-- An index leads to the same node, to read it and to take hold of it. -/
  index_held : ∀ (index : TreeIndex) i,
    (index.handle? root i).map Handle.held = index.find? root i
  /-- An update through an index is a write at the end of the recorded path. -/
  index_put : ∀ (index : TreeIndex) i h, index.handle? root i = some h → ∀ change,
    index.update? root i change = some (h.put (change h.held)) ∧
    ∃ p, index.placement? i = some p ∧ root.handleAt? p.path = some h

theorem writesWhereItReads (root : Node) : root.WritesWhereItReads where
  children_held := root.map_held_handles
  child_put := by
    intro i h hi x
    rw [put_of_getElem?_handles hi]
    exact ⟨rfl, root.overwritten_setChild i x⟩
  child_exchanged := root.exchangeChild_eq
  path_held := root.map_held_handleAt?
  path_kept _ _ := put_held
  path_put := by
    intro path h hpath x
    refine ⟨?_, rewrittenAt_put hpath x⟩
    rw [setAt?_eq_map_put, hpath, Option.map_some]
  index_held index := index.map_held_handle? root
  index_put := by
    intro index i h hfound change
    refine ⟨?_, ?_⟩
    · rw [TreeIndex.update?_eq_map_put, hfound, Option.map_some]
    · obtain ⟨p, hp, hpath, -⟩ := TreeIndex.handle?_eq_some_iff.mp hfound
      exact ⟨p, hp, hpath⟩

end Node

end PhpRefactor
