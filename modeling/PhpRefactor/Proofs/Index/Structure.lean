import PhpRefactor.Proofs.Index.Fresh

/-!
# An index says what the tree is

An index is made in one walk down the tree, with the surroundings handed on from a node to its
children.  Read the other way, from a node up, it says where the node stands: by which child
positions one comes from the root to it, and what the nearest node, class and callable around it are
(`TreeIndex.Tells`).  A tree in which an identity is repeated has no index, and the error names the
first node in pre-order that repeats one (`TreeIndex.ofTree_tells`).

In a tree without repeated identities no two paths lead to one node (`Node.eq_of_at?_eq`), so the
recorded path is the only one.
-/

set_option autoImplicit false

namespace PhpRefactor

namespace Node

variable {root n : Node}

/-- No two paths lead to one node, unless its identity is repeated. -/
theorem eq_of_at?_eq (hnodup : root.ids.Nodup) {p q : List Nat} (hp : root.at? p = some n)
    (hq : root.at? q = some n) : p = q := by
  -- A path that ends at the root cannot go on below it: the root would stand in a child.
  have hend : ∀ {m : Node} {i : Nat} {path : List Nat}, m.ids.Nodup →
      m.at? (i :: path) ≠ some m := by
    intro m i path hm hpath
    obtain ⟨c, hc, hpath⟩ := Option.bind_eq_some_iff.mp hpath
    obtain ⟨around, hocc⟩ := exists_occurs_of_at? hpath
    exact id_notMem_of_mem_children hm (List.mem_of_getElem? hc) hocc.id_mem
  induction p generalizing root q with
  | nil =>
    obtain rfl := Option.some.inj hp
    cases q with
    | nil => rfl
    | cons j q => exact absurd hq (hend hnodup)
  | cons i p ih =>
    cases q with
    | nil =>
      obtain rfl := Option.some.inj hq
      exact absurd hp (hend hnodup)
    | cons j q =>
      obtain ⟨c, hc, hpc⟩ := Option.bind_eq_some_iff.mp hp
      obtain ⟨d, hd, hqd⟩ := Option.bind_eq_some_iff.mp hq
      obtain ⟨_, hcn⟩ := exists_occurs_of_at? hpc
      obtain ⟨_, hdn⟩ := exists_occurs_of_at? hqd
      have hcmem : c ∈ root.children := List.mem_of_getElem? hc
      obtain rfl : c = d :=
        eq_of_mem_ids hnodup hcmem (List.mem_of_getElem? hd) hcn.id_mem hdn.id_mem
      obtain ⟨hlt, -⟩ := List.getElem?_eq_some_iff.mp hc
      obtain rfl : i = j := (List.getElem?_inj hlt (nodup_children hnodup)).mp (hc.trans hd.symm)
      rw [ih (nodup_of_mem_children hnodup hcmem) hpc hqd]

end Node

namespace TreeIndex

variable {root n : Node} {around : List Node}

/-- The index says of each node of the tree where it stands, and of nothing else. -/
structure Tells (index : TreeIndex) (root : Node) : Prop where
  root_id : index.root = some root.id
  size_eq : index.size = root.size
  /-- Each node stands at the end of a path, below the nodes around it. -/
  placed : ∀ n ∈ root.preorder, ∃ path around, root.at? path = some n ∧ root.Occurs around n
  placement : ∀ path around n, root.at? path = some n → root.Occurs around n →
    index.placement? n.id = some {
      parent := around.head?.map (·.id)
      enclosingClass := (around.find? (·.kind = .classDecl)).map (·.id)
      enclosingFunction := ((around.takeWhile (·.kind ≠ .classDecl)).find?
        (·.kind ∈ [Kind.method, .function, .closure])).map (·.id)
      path := path
      kind := n.kind
      span := n.span }
  find_node : ∀ n ∈ root.preorder, index.find? root n.id = some n
  find_other : ∀ i, i ∉ root.ids → index.placement? i = none ∧ index.find? root i = none
  parentOf_node : ∀ around n, root.Occurs around n →
    (⟨root, index⟩ : IndexedTree).parentOf n.id = .ok around.head?
  /-- Only the root has no parent. -/
  parentOf_root : ∀ n ∈ root.preorder,
    ((⟨root, index⟩ : IndexedTree).parentOf n.id = .ok none ↔ n = root)
  classOf_node : ∀ around n, root.Occurs around n →
    (⟨root, index⟩ : IndexedTree).classOf n.id = .ok (around.find? (·.kind = .classDecl))
  functionOf_node : ∀ around n, root.Occurs around n →
    (⟨root, index⟩ : IndexedTree).functionOf n.id =
      .ok ((around.takeWhile (·.kind ≠ .classDecl)).find?
        (·.kind ∈ [Kind.method, .function, .closure]))

/-- The placement of a node is what describes it, and the path is the one that leads to it. -/
theorem placement?_of_occurs (hnodup : root.ids.Nodup) {path : List Nat}
    (hpath : root.at? path = some n) (h : root.Occurs around n) :
    (of root).placement? n.id =
      some ⟨⟨around.head?.map (·.id), (nearestClass? around).map (·.id),
        (nearestFunction? around).map (·.id), path⟩, n.kind, n.span⟩ := by
  obtain ⟨p, hp, hkind, hspan, hmem⟩ := h.exists_placement
  obtain rfl : p.path = path := Node.eq_of_at?_eq hnodup hp.path hpath
  rw [placement?_of_mem hnodup hmem, ← hp.parent, ← hp.enclosingClass, ← hp.enclosingFunction,
    ← hkind, ← hspan]

theorem placement?_of_notMem {i : Nat} (h : i ∉ root.ids) : (of root).placement? i = none := by
  rw [← Node.keys_placementsIn .root root] at h
  refine List.lookup_eq_none_iff.mpr fun p hp => ?_
  exact bne_iff_ne.mpr fun heq => h (heq ▸ List.mem_map_of_mem hp)

/-- A parent is missing above the root only. -/
theorem head?_eq_none_iff (hnodup : root.ids.Nodup) (h : root.Occurs around n) :
    around.head? = none ↔ n = root := by
  rw [List.head?_eq_none_iff]
  constructor
  · rintro rfl
    cases h
    rfl
  · rintro rfl
    exact (h.unique hnodup .root rfl).1

theorem tells_of (hnodup : root.ids.Nodup) : (of root).Tells root where
  root_id := rfl
  size_eq := size_of root
  placed n hn := by
    obtain ⟨around, h⟩ := Node.mem_preorder_iff.mp hn
    obtain ⟨p, hp, -⟩ := h.exists_placement
    exact ⟨p.path, around, hp.path, h⟩
  placement path around n hpath h := by
    rw [placement?_of_occurs hnodup hpath h, nearestFunction?_eq]
    rfl
  find_node n hn := by
    obtain ⟨around, h⟩ := Node.mem_preorder_iff.mp hn
    exact find?_of_occurs hnodup h
  find_other i hi := by
    have hnone := placement?_of_notMem hi
    exact ⟨hnone, by rw [find?, hnone]; rfl⟩
  parentOf_node around n h := IndexedTree.parentOf_of_occurs hnodup h
  parentOf_root n hn := by
    obtain ⟨around, h⟩ := Node.mem_preorder_iff.mp hn
    have hparent : (⟨root, of root⟩ : IndexedTree).parentOf n.id = .ok around.head? :=
      IndexedTree.parentOf_of_occurs hnodup h
    rw [hparent, Except.ok.injEq, head?_eq_none_iff hnodup h]
  classOf_node around n h := IndexedTree.classOf_of_occurs hnodup h
  functionOf_node around n h := by
    rw [← nearestFunction?_eq]
    exact IndexedTree.functionOf_of_occurs hnodup h

/-- An index is made of a tree exactly when no identity is repeated, and then it says where each
node stands.  Otherwise the first node is named whose identity was there before. -/
theorem ofTree_tells (root : Node) :
    match ofTree root with
    | .ok index => root.ids.Nodup ∧ index.Tells root
    | .error e => ¬ root.ids.Nodup ∧ ∃ before n after,
        root.preorder = before ++ n :: after ∧ (before.map (·.id)).Nodup ∧
          n.id ∈ before.map (·.id) ∧ e = .duplicate n.id := by
  cases hindex : ofTree root with
  | ok index =>
    obtain ⟨hnodup, rfl⟩ := ofTree_eq_ok_iff.mp hindex
    exact ⟨hnodup, tells_of hnodup⟩
  | error e =>
    have hrepeats : ¬ root.ids.Nodup := by
      intro hnodup
      rw [ofTree_of_nodup hnodup] at hindex
      cases hindex
    refine ⟨hrepeats, ?_⟩
    unfold ofTree at hindex
    split at hindex
    · rename_i i hi
      obtain ⟨before, after, hids, hnodup, -, hmem⟩ := exists_of_firstRepeated? hi
      obtain ⟨l, r, hpreorder, rfl, hr⟩ := List.map_eq_append_iff.mp hids
      obtain ⟨n, after, rfl, rfl, -⟩ := List.map_eq_cons_iff.mp hr
      have hn : n.id ∈ l.map (·.id) := hmem.resolve_left List.not_mem_nil
      exact ⟨l, n, after, hpreorder, hnodup, hn, (Except.error.inj hindex).symm⟩
    · cases hindex

end TreeIndex

end PhpRefactor
