import PhpRefactor.Index.Edit
import PhpRefactor.Proofs.Syntax.Occurrence

/-!
# What the index of a tree says

An index that was made from the tree at hand answers for every node as the tree itself would:
the node is found, its parent is the first node around it, its class and function are the nearest
ones around it (`nearestClass?`, `nearestFunction?`).  The index of a tree exists exactly when no
identity is repeated (`TreeIndex.ofTree_eq_ok_iff`).
-/

set_option autoImplicit false

namespace PhpRefactor

/-! ## Repeated identities -/

theorem firstRepeated?_eq_none_iff {seen l : List Nat} :
    firstRepeated? seen l = none ↔ l.Nodup ∧ ∀ x ∈ l, x ∉ seen := by
  induction l generalizing seen with
  | nil => simp [firstRepeated?]
  | cons x l ih =>
    rw [firstRepeated?]
    by_cases hx : x ∈ seen
    · simp [hx]
    · rw [if_neg hx, ih, List.nodup_cons]
      constructor
      · rintro ⟨hl, hseen⟩
        refine ⟨⟨fun hmem => hseen x hmem List.mem_cons_self, hl⟩, ?_⟩
        intro y hy
        rcases List.mem_cons.mp hy with rfl | hy
        · exact hx
        · exact fun hys => hseen y hy (List.mem_cons_of_mem _ hys)
      · rintro ⟨⟨hxl, hl⟩, hseen⟩
        refine ⟨hl, ?_⟩
        intro y hy hys
        rcases List.mem_cons.mp hys with rfl | hys
        · exact hxl hy
        · exact hseen y (List.mem_cons_of_mem _ hy) hys

/-- What is reported as repeated was there before, and nothing before it was. -/
theorem exists_of_firstRepeated? {seen l : List Nat} {i : Nat} (h : firstRepeated? seen l = some i) :
    ∃ before after, l = before ++ i :: after ∧ before.Nodup ∧ (∀ x ∈ before, x ∉ seen) ∧
      (i ∈ seen ∨ i ∈ before) := by
  induction l generalizing seen with
  | nil => exact absurd h (by simp [firstRepeated?])
  | cons x l ih =>
    rw [firstRepeated?] at h
    split at h
    · rename_i hx
      obtain rfl := Option.some.inj h
      exact ⟨[], l, rfl, .nil, by simp, .inl hx⟩
    · rename_i hx
      obtain ⟨before, after, rfl, hnodup, hseen, hi⟩ := ih h
      have hapart : ∀ y ∈ before, y ≠ x ∧ y ∉ seen := fun y hy =>
        not_or.mp (mt List.mem_cons.mpr (hseen y hy))
      refine ⟨x :: before, after, rfl, ?_, ?_, ?_⟩
      · exact List.nodup_cons.mpr ⟨fun hmem => (hapart x hmem).1 rfl, hnodup⟩
      · exact List.forall_mem_cons.mpr ⟨hx, fun y hy => (hapart y hy).2⟩
      · rcases hi with hi | hi
        · rcases List.mem_cons.mp hi with rfl | hi
          · exact .inr List.mem_cons_self
          · exact .inl hi
        · exact .inr (List.mem_cons_of_mem _ hi)

namespace TreeIndex

/-- The index that a tree has if no identity is repeated. -/
def of (root : Node) : TreeIndex := ⟨some root.id, root.placements⟩

theorem ofTree_eq_ok_iff {root : Node} {index : TreeIndex} :
    ofTree root = .ok index ↔ root.ids.Nodup ∧ index = of root := by
  rw [ofTree]
  cases h : firstRepeated? [] root.ids with
  | none =>
    have hnodup : root.ids.Nodup := (firstRepeated?_eq_none_iff.mp h).1
    simp [hnodup, of, eq_comm]
  | some i =>
    have hnodup : ¬ root.ids.Nodup := by
      intro hnodup
      rw [firstRepeated?_eq_none_iff.mpr ⟨hnodup, by simp⟩] at h
      exact absurd h (by simp)
    simp [hnodup]

theorem ofTree_of_nodup {root : Node} (h : root.ids.Nodup) : ofTree root = .ok (of root) :=
  ofTree_eq_ok_iff.mpr ⟨h, rfl⟩

/-- A repeated identity is all that an index can fail at. -/
theorem exists_duplicate_of_not_nodup {root : Node} (h : ¬ root.ids.Nodup) :
    ∃ i, ofTree root = .error (.duplicate i) ∧ 2 ≤ root.ids.count i := by
  rw [ofTree]
  cases hrepeated : firstRepeated? [] root.ids with
  | none => exact absurd (firstRepeated?_eq_none_iff.mp hrepeated).1 h
  | some i =>
    obtain ⟨before, after, hids, -, -, hi⟩ := exists_of_firstRepeated? hrepeated
    have hpos : 0 < before.count i :=
      List.count_pos_iff.mpr (hi.resolve_left List.not_mem_nil)
    refine ⟨i, rfl, ?_⟩
    rw [hids, List.count_append, List.count_cons_self]
    omega

end TreeIndex

/-! ## Placements -/

/-- The nearest class declaration in a list of nodes around a node. -/
def nearestClass? (around : List Node) : Option Node := around.find? (·.kind = .classDecl)

/-- The nearest method, function or closure in a list of nodes around a node; a class shuts out
those around it. -/
def nearestFunction? : List Node → Option Node
  | [] => none
  | n :: around =>
    match n.kind with
    | .classDecl => none
    | .method | .function | .closure => some n
    | _ => nearestFunction? around

/-- The function around a node is the nearest of those that stand inside the nearest class. -/
theorem nearestFunction?_eq (around : List Node) :
    nearestFunction? around =
      (around.takeWhile (·.kind ≠ .classDecl)).find?
        (·.kind ∈ [Kind.method, .function, .closure]) := by
  induction around with
  | nil => rfl
  | cons n around ih =>
    rw [nearestFunction?]
    split
    · rename_i hkind
      simp [hkind]
    · rename_i hkind
      simp [hkind]
    · rename_i hkind
      simp [hkind]
    · rename_i hkind
      simp [hkind]
    · rename_i hclass hmethod hfunction hclosure
      rw [List.takeWhile_cons_of_pos (by simpa using hclass),
        List.find?_cons_of_neg (by simpa using ⟨hmethod, hfunction, hclosure⟩), ih]

namespace Surroundings

/-- The recorded surroundings are those of a node below these nodes, and the recorded path leads
to the node. -/
structure Describes (s : Surroundings) (root : Node) (around : List Node) (n : Node) : Prop where
  parent : s.parent = around.head?.map (·.id)
  enclosingClass : s.enclosingClass = (nearestClass? around).map (·.id)
  enclosingFunction : s.enclosingFunction = (nearestFunction? around).map (·.id)
  path : root.at? s.path = some n

end Surroundings

namespace Node

theorem placementsIn_eq (around : Surroundings) (n : Node) :
    n.placementsIn around = (n.id, { around with kind := n.kind, span := n.span }) ::
      n.children.zipIdx.flatMap fun (c, i) => c.placementsIn (around.below n i) := by
  rw [placementsIn]
  conv => rhs; rw [← List.attach_map_subtype_val n.children, List.zipIdx_map, List.flatMap_map]
  rfl

theorem keys_placementsIn (around : Surroundings) (n : Node) :
    (n.placementsIn around).map Prod.fst = n.ids := by
  induction n using Node.induction generalizing around with
  | step n ih =>
    rw [placementsIn_eq, ids_eq, List.map_cons, List.map_flatMap]
    have hcongr : (n.children.zipIdx.flatMap fun p : Node × Nat =>
        (p.1.placementsIn (around.below n p.2)).map Prod.fst) =
        n.children.zipIdx.flatMap fun p => p.1.ids :=
      List.flatMap_congr fun p hp => ih p.1 (List.fst_mem_of_mem_zipIdx hp) _
    rw [hcongr, ← List.flatMap_map Prod.fst, List.zipIdx_map_fst]

theorem at?_append (n : Node) (p q : List Nat) : n.at? (p ++ q) = (n.at? p).bind (·.at? q) := by
  induction p generalizing n with
  | nil => rfl
  | cons i p ih =>
    rw [List.cons_append, at?, at?]
    cases n.children[i]? with
    | none => rfl
    | some c => exact ih c

/-- Every node has a placement, and it describes where the node stands. -/
theorem Occurs.exists_placement {root n : Node} {around : List Node} (h : Occurs root around n) :
    ∃ p : Placement, p.Describes root around n ∧ p.kind = n.kind ∧ p.span = n.span ∧
      (n.id, p) ∈ root.placements := by
  have key : ∃ s : Surroundings, s.Describes root around n ∧
      n.placementsIn s ⊆ root.placements := by
    induction h with
    | root => exact ⟨.root, ⟨rfl, rfl, rfl, rfl⟩, fun _ hp => hp⟩
    | @child around n c _ hc ih =>
      obtain ⟨s, hs, hsub⟩ := ih
      obtain ⟨i, hi⟩ := List.getElem?_of_mem hc
      refine ⟨s.below n i, ⟨rfl, ?_, ?_, ?_⟩, fun p hp => hsub ?_⟩
      · by_cases hkind : n.kind = .classDecl
        · simp [Surroundings.below, nearestClass?, hkind]
        · simpa [Surroundings.below, nearestClass?, hkind] using hs.enclosingClass
      · simp only [Surroundings.below, nearestFunction?]
        cases n.kind <;> first | rfl | exact hs.enclosingFunction
      · simp only [Surroundings.below]
        rw [at?_append, hs.path, Option.bind_some, at?, hi]
        rfl
      · rw [placementsIn_eq]
        refine List.mem_cons_of_mem _ (List.mem_flatMap_of_mem (a := (c, i)) ?_ hp)
        exact List.mk_mem_zipIdx_iff_getElem?.mpr hi
  obtain ⟨s, hs, hsub⟩ := key
  refine ⟨{ s with kind := n.kind, span := n.span }, ?_, rfl, rfl, hsub ?_⟩
  · exact ⟨hs.parent, hs.enclosingClass, hs.enclosingFunction, hs.path⟩
  rw [placementsIn_eq]
  exact List.mem_cons_self

/-- The tree with its own index. -/
def indexed (root : Node) : IndexedTree := ⟨root, .of root⟩

end Node

/-! ## Looking up -/

namespace TreeIndex

theorem size_of (root : Node) : (of root).size = root.size := by
  rw [← Node.length_ids, ← Node.keys_placementsIn .root root, List.length_map]
  rfl

theorem placement?_of_mem {root : Node} {i : Nat} {p : Placement} (hnodup : root.ids.Nodup)
    (h : (i, p) ∈ root.placements) : (of root).placement? i = some p := by
  obtain ⟨l, r, hsplit⟩ := List.append_of_mem h
  refine List.lookup_eq_some_iff.mpr ⟨l, r, hsplit, ?_⟩
  intro q hq
  rw [← Node.keys_placementsIn .root root] at hnodup
  change (root.placements.map Prod.fst).Nodup at hnodup
  rw [hsplit, List.map_append, List.nodup_append] at hnodup
  have hne := hnodup.2.2 q.1 (List.mem_map_of_mem hq) i (by simp)
  simpa [bne_iff_ne] using hne.symm

end TreeIndex

section

variable {root n : Node} {around : List Node}

/-- The index records the surroundings of a node, and they are right. -/
theorem Node.Occurs.exists_placement?_eq (hnodup : root.ids.Nodup) (h : Occurs root around n) :
    ∃ p : Placement, (TreeIndex.of root).placement? n.id = some p ∧
      p.Describes root around n := by
  obtain ⟨p, hp, -, -, hmem⟩ := h.exists_placement
  exact ⟨p, TreeIndex.placement?_of_mem hnodup hmem, hp⟩

theorem TreeIndex.find?_of_occurs (hnodup : root.ids.Nodup) (h : root.Occurs around n) :
    (of root).find? root n.id = some n := by
  obtain ⟨p, hlookup, hp⟩ := h.exists_placement?_eq hnodup
  simp [find?, hlookup, hp.path]

namespace IndexedTree

/-- A link that was recorded for a node around another leads there. -/
theorem follow_of_mem_around (hnodup : root.ids.Nodup) (h : root.Occurs around n) {m : Option Node}
    (hm : ∀ x ∈ m, x ∈ around) : root.indexed.follow (m.map (·.id)) = .ok m := by
  cases m with
  | none => rfl
  | some m =>
    obtain ⟨-, outer, -, hocc, -⟩ := h.of_mem_around (hm m rfl)
    have hfind : root.indexed.find? m.id = some m := TreeIndex.find?_of_occurs hnodup hocc
    simp [follow, hfind]

theorem placement_of_occurs (hnodup : root.ids.Nodup) (h : root.Occurs around n) :
    ∃ p : Placement, root.indexed.index.placement n.id = .ok p ∧ p.Describes root around n := by
  obtain ⟨p, hlookup, hp⟩ := h.exists_placement?_eq hnodup
  refine ⟨p, ?_, hp⟩
  rw [TreeIndex.placement, Node.indexed, hlookup]

/-- The parent is the first node around a node. -/
theorem parentOf_of_occurs (hnodup : root.ids.Nodup) (h : root.Occurs around n) :
    root.indexed.parentOf n.id = .ok around.head? := by
  obtain ⟨p, hplacement, hp⟩ := placement_of_occurs hnodup h
  rw [parentOf, hplacement]
  change root.indexed.follow p.parent = _
  rw [hp.parent]
  exact follow_of_mem_around hnodup h fun x hx => List.mem_of_mem_head? hx

/-- The class around a node is the nearest one. -/
theorem classOf_of_occurs (hnodup : root.ids.Nodup) (h : root.Occurs around n) :
    root.indexed.classOf n.id = .ok (nearestClass? around) := by
  obtain ⟨p, hplacement, hp⟩ := placement_of_occurs hnodup h
  rw [classOf, hplacement]
  change root.indexed.follow p.enclosingClass = _
  rw [hp.enclosingClass]
  exact follow_of_mem_around hnodup h fun x hx => List.mem_of_find?_eq_some hx

end IndexedTree

end

theorem exists_of_nearestFunction?_eq_some {around : List Node} {f : Node}
    (h : nearestFunction? around = some f) :
    ∃ above outer, around = above ++ f :: outer ∧ f.kind ≠ .classDecl ∧
      ∀ m ∈ above, m.kind ≠ .classDecl ∧ m.kind ≠ .method := by
  induction around with
  | nil => simp [nearestFunction?] at h
  | cons m around ih =>
    rw [nearestFunction?] at h
    split at h
    · exact absurd h (by simp)
    · rename_i hkind
      obtain rfl := Option.some.inj h
      exact ⟨[], around, rfl, by simp [hkind], by simp⟩
    · rename_i hkind
      obtain rfl := Option.some.inj h
      exact ⟨[], around, rfl, by simp [hkind], by simp⟩
    · rename_i hkind
      obtain rfl := Option.some.inj h
      exact ⟨[], around, rfl, by simp [hkind], by simp⟩
    · rename_i hclass hmethod _ _
      obtain ⟨above, outer, rfl, hf, habove⟩ := ih h
      refine ⟨m :: above, outer, rfl, hf, ?_⟩
      intro x hx
      rcases List.mem_cons.mp hx with rfl | hx
      · exact ⟨hclass, hmethod⟩
      · exact habove x hx

/-- The function around a node is the nearest one that no class shuts out. -/
theorem IndexedTree.functionOf_of_occurs {root n : Node} {around : List Node}
    (hnodup : root.ids.Nodup) (h : root.Occurs around n) :
    root.indexed.functionOf n.id = .ok (nearestFunction? around) := by
  obtain ⟨p, hplacement, hp⟩ := placement_of_occurs hnodup h
  rw [functionOf, hplacement]
  change root.indexed.follow p.enclosingFunction = _
  rw [hp.enclosingFunction]
  refine follow_of_mem_around hnodup h ?_
  intro f hf
  obtain ⟨above, outer, rfl, -⟩ := exists_of_nearestFunction?_eq_some hf
  simp

end PhpRefactor
