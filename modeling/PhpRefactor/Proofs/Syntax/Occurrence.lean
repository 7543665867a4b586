import PhpRefactor.Syntax.Walk
import Mathlib.Data.List.Nodup
import Mathlib.Data.List.Pairwise

/-!
# Where a node stands

`Node.Occurs root around n` says that `n` stands in the tree `root`, below the nodes of the list
`around`, the nearest of them first.  The listing in pre-order has the same nodes
(`mem_preorder_iff`), but an occurrence also knows the way up.

In a tree without repeated identities an occurrence is determined by the identity of its node
(`Occurs.unique`), and the subtrees of two children share no identity (`eq_of_mem_ids`).  All that
an index records and all that a rule asks of its surroundings rests on these two facts.
-/

set_option autoImplicit false

namespace PhpRefactor

namespace Node

theorem mem_preorder_self (n : Node) : n ∈ n.preorder := by
  rw [preorder_eq]
  exact List.mem_cons_self

theorem preorder_subset_of_mem_children {n c : Node} (hc : c ∈ n.children) :
    c.preorder ⊆ n.preorder := by
  intro m hm
  rw [preorder_eq]
  exact List.mem_cons_of_mem _ (List.mem_flatMap_of_mem hc hm)

/-- What is done to every child is done to every node below. -/
theorem preorder_map {g : Node → Node} (hg : ∀ m : Node, (g m).children = m.children.map g)
    (n : Node) : (g n).preorder = n.preorder.map g := by
  induction n using Node.induction with
  | step n ih =>
    rw [preorder_eq, preorder_eq n, hg, List.map_cons, List.flatMap_map, List.map_flatMap]
    exact congrArg (g n :: ·) (List.flatMap_congr ih)

/-! ## Identities -/

theorem ids_eq (n : Node) : n.ids = n.id :: n.children.flatMap ids := by
  rw [ids, preorder_eq, List.map_cons, List.map_flatMap]
  rfl

theorem map_id_flatMap_preorder (ns : List Node) :
    (ns.flatMap preorder).map (·.id) = ns.flatMap ids :=
  List.map_flatMap

theorem id_mem_ids (n : Node) : n.id ∈ n.ids := by
  rw [ids_eq]
  exact List.mem_cons_self

theorem ids_subset_of_mem_children {n c : Node} (hc : c ∈ n.children) : c.ids ⊆ n.ids := by
  intro i hi
  rw [ids_eq]
  exact List.mem_cons_of_mem _ (List.mem_flatMap_of_mem hc hi)

theorem length_ids (n : Node) : n.ids.length = n.size := by
  rw [ids, List.length_map, size]

/-- In a tree without repeated identities the root is not met again. -/
theorem id_notMem_of_mem_children {n c : Node} (h : n.ids.Nodup) (hc : c ∈ n.children) :
    n.id ∉ c.ids := by
  rw [ids_eq, List.nodup_cons] at h
  exact fun hmem => h.1 (List.mem_flatMap_of_mem hc hmem)

theorem nodup_of_mem_children {n c : Node} (h : n.ids.Nodup) (hc : c ∈ n.children) :
    c.ids.Nodup := by
  rw [ids_eq, List.nodup_cons, List.nodup_flatMap] at h
  exact h.2.1 c hc

/-- Two children with an identity in common are one. -/
theorem eq_of_mem_ids {n c d : Node} {i : Nat} (h : n.ids.Nodup) (hc : c ∈ n.children)
    (hd : d ∈ n.children) (hic : i ∈ c.ids) (hid : i ∈ d.ids) : c = d := by
  rw [ids_eq, List.nodup_cons, List.nodup_flatMap] at h
  by_contra hne
  have hdisjoint : Function.onFun List.Disjoint ids c d := by
    have hsymm : Std.Symm (Function.onFun List.Disjoint ids) := ⟨fun _ _ hxy i hi hi' => hxy hi' hi⟩
    exact h.2.2.forall hc hd hne
  exact hdisjoint hic hid

theorem nodup_children {n : Node} (h : n.ids.Nodup) : n.children.Nodup := by
  rw [ids_eq, List.nodup_cons, List.nodup_flatMap] at h
  refine h.2.2.imp ?_
  intro c d hdisjoint heq
  exact hdisjoint c.id_mem_ids (heq ▸ c.id_mem_ids)

/-- The children before and after a child share no identity with it. -/
theorem exists_children_eq {n c : Node} (h : n.ids.Nodup) (hc : c ∈ n.children) :
    ∃ ls rs, n.children = ls ++ c :: rs ∧ ∀ d ∈ ls ++ rs, ∀ i ∈ c.ids, i ∉ d.ids := by
  obtain ⟨ls, rs, hsplit⟩ := List.append_of_mem hc
  refine ⟨ls, rs, hsplit, ?_⟩
  intro d hd i hi hid
  have hmem : d ∈ n.children := by
    rw [hsplit]
    simp only [List.mem_append, List.mem_cons] at hd ⊢
    tauto
  obtain rfl : c = d := eq_of_mem_ids h hc hmem hi hid
  -- The child would stand twice in the list, and its identity too.
  rw [ids_eq, List.nodup_cons, hsplit, List.flatMap_append, List.flatMap_cons,
    List.nodup_append, List.nodup_append] at h
  rcases List.mem_append.mp hd with hd | hd
  · exact h.2.2.2 i (List.mem_flatMap_of_mem hd hi) i (List.mem_append_left _ hi) rfl
  · exact h.2.2.1.2.2 i hi i (List.mem_flatMap_of_mem hd hi) rfl

/-! ## Occurrences -/

/-- The node stands in the tree below the nodes of a list, the nearest of them first. -/
inductive Occurs (root : Node) : List Node → Node → Prop where
  | root : Occurs root [] root
  | child {around : List Node} {n c : Node} (above : Occurs root around n)
      (hc : c ∈ n.children) : Occurs root (n :: around) c

namespace Occurs

variable {root n m : Node} {around above : List Node}

/-- Where children stay in place every node stands where it stood. -/
theorem map {g : Node → Node} (hg : ∀ m : Node, (g m).children = m.children.map g)
    (h : Occurs root around n) : Occurs (g root) (around.map g) (g n) := by
  induction h with
  | root => exact .root
  | child _ hc ih =>
    refine ih.child ?_
    rw [hg]
    exact List.mem_map_of_mem hc

theorem parent (h : Occurs root (m :: around) n) : Occurs root around m ∧ n ∈ m.children := by
  cases h with
  | child hm hc => exact ⟨hm, hc⟩

/-- Where a node stands in a part of a tree, and where that part stands. -/
theorem trans (h : Occurs root around n) (h' : Occurs n above m) :
    Occurs root (above ++ around) m := by
  induction h' with
  | root => exact h
  | child _ hc ih => exact ih.child hc

/-- An occurrence read from the root down. -/
theorem eq_root_or_below (h : Occurs root around n) :
    (around = [] ∧ n = root) ∨
      ∃ c ∈ root.children, ∃ above, around = above ++ [root] ∧ Occurs c above n := by
  induction h with
  | root => exact .inl ⟨rfl, rfl⟩
  | @child around n c _ hc ih =>
    rcases ih with ⟨rfl, rfl⟩ | ⟨d, hd, above, rfl, hbelow⟩
    · exact .inr ⟨c, hc, [], rfl, .root⟩
    · exact .inr ⟨d, hd, n :: above, rfl, hbelow.child hc⟩

theorem ids_subset (h : Occurs root around n) : n.ids ⊆ root.ids := by
  induction h with
  | root => exact fun _ hi => hi
  | child _ hc ih => exact fun _ hi => ih (ids_subset_of_mem_children hc hi)

theorem id_mem (h : Occurs root around n) : n.id ∈ root.ids := h.ids_subset n.id_mem_ids

theorem preorder_subset (h : Occurs root around n) : n.preorder ⊆ root.preorder := by
  induction h with
  | root => exact fun _ hi => hi
  | child _ hc ih => exact fun _ hm => ih (preorder_subset_of_mem_children hc hm)

theorem nodup (hnodup : root.ids.Nodup) (h : Occurs root around n) : n.ids.Nodup := by
  induction h with
  | root => exact hnodup
  | child _ hc ih => exact nodup_of_mem_children ih hc

/-- The nodes around a node are occurrences themselves. -/
theorem of_mem_around (h : Occurs root around n) (hm : m ∈ around) :
    ∃ above outer, around = above ++ m :: outer ∧ Occurs root outer m ∧
      Occurs m (above ++ [m]) n := by
  induction h with
  | root => simp at hm
  | @child around n c hn hc ih =>
    rcases List.mem_cons.mp hm with rfl | hm
    · exact ⟨[], around, rfl, hn, .child .root hc⟩
    · obtain ⟨above, outer, rfl, hm, hbelow⟩ := ih hm
      exact ⟨n :: above, outer, rfl, hm, hbelow.child hc⟩

/-- An identity tells where its node stands. -/
theorem unique (hnodup : root.ids.Nodup) (h : Occurs root around n) (h' : Occurs root above m)
    (hid : n.id = m.id) : around = above ∧ n = m := by
  induction root using Node.induction generalizing around above with
  | step root ih =>
    rcases h.eq_root_or_below with ⟨rfl, rfl⟩ | ⟨c, hc, around, rfl, hn⟩ <;>
      rcases h'.eq_root_or_below with ⟨rfl, rfl⟩ | ⟨d, hd, above, rfl, hm⟩
    · exact ⟨rfl, rfl⟩
    · exact absurd (hid ▸ hm.id_mem) (id_notMem_of_mem_children hnodup hd)
    · exact absurd (hid ▸ hn.id_mem) (id_notMem_of_mem_children hnodup hc)
    · obtain rfl : c = d := eq_of_mem_ids hnodup hc hd hn.id_mem (hid ▸ hm.id_mem)
      obtain ⟨rfl, rfl⟩ := ih c hc (nodup_of_mem_children hnodup hc) hn hm
      exact ⟨rfl, rfl⟩

/-- The nodes around a node are not met below it. -/
theorem id_notMem_of_mem_around (hnodup : root.ids.Nodup) (h : Occurs root around n)
    (hm : m ∈ around) : m.id ∉ n.ids := by
  induction h with
  | root => simp at hm
  | @child around n c hn hc ih =>
    rcases List.mem_cons.mp hm with rfl | hm
    · exact id_notMem_of_mem_children (hn.nodup hnodup) hc
    · exact fun hmem => ih hm (ids_subset_of_mem_children hc hmem)

/-- No node has as many nodes around it as the tree has nodes. -/
theorem length_around_lt (h : Occurs root around n) : around.length + n.size ≤ root.size := by
  induction h with
  | root => simp
  | @child around n c _ hc ih =>
    have hsize : c.size ≤ (n.children.flatMap preorder).length :=
      (List.sublist_flatten_of_mem (List.mem_map_of_mem hc)).length_le
    rw [size_eq] at ih
    rw [List.length_cons]
    omega

end Occurs

theorem mem_preorder_iff {root n : Node} : n ∈ root.preorder ↔ ∃ around, Occurs root around n := by
  constructor
  · intro h
    induction root using Node.induction with
    | step root ih =>
      rw [preorder_eq, List.mem_cons, List.mem_flatMap] at h
      rcases h with rfl | ⟨c, hc, h⟩
      · exact ⟨[], .root⟩
      · obtain ⟨around, hn⟩ := ih c hc h
        exact ⟨around ++ [root], (Occurs.child .root hc).trans hn⟩
  · rintro ⟨around, h⟩
    exact h.preorder_subset n.mem_preorder_self

/-- Every path leads to an occurrence. -/
theorem exists_occurs_of_at? {root n : Node} {path : List Nat} (h : root.at? path = some n) :
    ∃ around, Occurs root around n := by
  induction path generalizing root with
  | nil => exact ⟨[], Option.some.inj h ▸ .root⟩
  | cons i path ih =>
    obtain ⟨c, hc, hn⟩ := Option.bind_eq_some_iff.mp h
    obtain ⟨around, hn⟩ := ih hn
    exact ⟨_, (Occurs.child .root (List.mem_of_getElem? hc)).trans hn⟩

/-! ## The list of places -/

/-- All nodes in pre-order, each after the nodes around it. -/
def places (around : List Node) (n : Node) : List (List Node × Node) :=
  (around, n) :: n.children.attach.flatMap fun ⟨c, _⟩ => c.places (n :: around)
termination_by sizeOf n
decreasing_by exact sizeOf_lt_of_mem_children ‹_›

theorem places_eq (around : List Node) (n : Node) :
    n.places around = (around, n) :: n.children.flatMap (places (n :: around)) := by
  rw [places]
  simp [List.flatMap_def]

theorem map_snd_places (around : List Node) (n : Node) :
    (n.places around).map (·.2) = n.preorder := by
  induction n using Node.induction generalizing around with
  | step n ih =>
    rw [places_eq, preorder_eq, List.map_cons, List.map_flatMap]
    exact congrArg (n :: ·) (List.flatMap_congr fun c hc => ih c hc (n :: around))

theorem mem_places_iff {root n : Node} {outer around : List Node} :
    (around, n) ∈ root.places outer ↔ ∃ above, around = above ++ outer ∧ Occurs root above n := by
  constructor
  · intro h
    induction root using Node.induction generalizing outer with
    | step root ih =>
      rw [places_eq, List.mem_cons, List.mem_flatMap] at h
      rcases h with heq | ⟨c, hc, h⟩
      · obtain ⟨rfl, rfl⟩ := Prod.mk.inj heq
        exact ⟨[], rfl, .root⟩
      · obtain ⟨above, rfl, hn⟩ := ih c hc h
        exact ⟨above ++ [root], by simp, (Occurs.child .root hc).trans hn⟩
  · rintro ⟨above, rfl, h⟩
    have hsub : n.places (above ++ outer) ⊆ root.places outer := by
      induction h with
      | root => exact fun _ hp => hp
      | @child around m c _ hc ih =>
        intro p hp
        refine ih ?_
        rw [places_eq]
        exact List.mem_cons_of_mem _ (List.mem_flatMap_of_mem hc hp)
    refine hsub ?_
    rw [places_eq]
    exact List.mem_cons_self

end Node

end PhpRefactor
