import PhpRefactor.Types.Constructor
import PhpRefactor.Proofs.Index.Fresh

/-!
# What a constructor assigns, read off the tree

`IndexedTree.memberType` walks to places where a property is read or written and asks the index
whether such a place is the target of an assignment.  In a tree with its own index this is a search
for the first assignment itself: the target comes directly after its assignment in pre-order.  So
the type of a property depends on its class alone (`Node.memberResolution`), and finding it never
fails (`IndexedTree.memberType_of_occurs`).
-/

set_option autoImplicit false

namespace PhpRefactor

namespace Node

theorem isVariable_iff {n : Node} {x : String} : n.isVariable x = true ↔ n.form = .var x := by
  unfold isVariable
  cases n.form <;> simp

/-- The node assigns to `$this->name`. -/
def assignsOwn (name : String) (n : Node) : Bool :=
  match n.form with
  | .assign t _ => t.isOwnMember name
  | _ => false

/-- The value that an assignment assigns; any other node stands for itself. -/
def assignedValue (n : Node) : Node :=
  match n.form with
  | .assign _ v => v
  | _ => n

/-- A node with this identity is a statement of its own directly below the node `f`. -/
def hasStatement (f : Node) (i : Nat) : Bool :=
  f.children.any fun s => s.kind = .exprStmt && s.children.any (·.id = i)

/-- What the first assignment says about a property. -/
def resolutionOf (oracle : Oracle) (cls f a : Node) : Resolution :=
  if f.hasStatement a.id then .resolved (oracle ⟨some cls, some f⟩ a.assignedValue)
  else .unresolved .nestedAssignment

/-- What a class says about the type of a property. -/
def memberResolution (oracle : Oracle) (cls : Node) (name : String) : Resolution :=
  match cls.findProperty? name with
  | none => .unresolved .unknownMember
  | some property =>
    if !property.isPrivateProperty then .unresolved .notPrivate
    else
      match cls.findMethod? constructorName with
      | none => .unresolved .noConstructor
      | some f =>
        match (f.methodBody.flatMap preorder).find? (assignsOwn name) with
        | none => .unresolved .notAssigned
        | some a => resolutionOf oracle cls f a

theorem mem_children_of_mem_members {cls c : Node} (h : c ∈ cls.members) : c ∈ cls.children := by
  rw [members] at h
  split at h
  · rename_i hform
    simpa [children, Form.children, hform, Form.segments, Segment.toList] using h
  · exact absurd h List.not_mem_nil

theorem mem_children_of_mem_methodBody {f c : Node} (h : c ∈ f.methodBody) : c ∈ f.children := by
  rw [methodBody] at h
  split at h
  · rename_i hform
    simp [children, Form.children, hform, Form.segments, Segment.toList, h]
  · exact absurd h List.not_mem_nil

theorem mem_members_of_findMethod? {cls f : Node} {name : String}
    (h : cls.findMethod? name = some f) : f ∈ cls.members :=
  List.mem_of_find?_eq_some h

end Node

namespace IndexedTree

section

variable {root n : Node} {around : List Node}

/-- The target of an assignment stands directly below it. -/
theorem assignmentTo_of_target (hnodup : root.ids.Nodup) {a v : Node}
    (h : root.Occurs (a :: around) n) (hform : a.form = .assign n v) :
    root.indexed.assignmentTo n = .ok (some (a, v)) := by
  unfold assignmentTo
  rw [parentOf_of_occurs hnodup h]
  change (match a.form with | .assign t v => _ | _ => _) = _
  rw [hform]
  change Except.ok (if n.id = n.id then some (a, v) else none) = _
  rw [if_pos rfl]

/-- A node that is the target of nothing has no assignment. -/
theorem assignmentTo_of_no_target (hnodup : root.ids.Nodup) (h : root.Occurs around n)
    (hfree : ∀ a ∈ around.head?, ∀ t v, a.form = .assign t v → t.id ≠ n.id) :
    root.indexed.assignmentTo n = .ok none := by
  unfold assignmentTo
  rw [parentOf_of_occurs hnodup h]
  cases around with
  | nil => rfl
  | cons parent around =>
    have hparent := hfree parent rfl
    change (match parent.form with | .assign t v => _ | _ => _) = _
    cases hform : parent.form with
    | assign t v =>
      change Except.ok (if t.id = n.id then some (parent, v) else none) = _
      rw [if_neg (hparent t v hform)]
    | _ => rfl

/-- A statement of its own stands in an expression statement, and that one below the function. -/
theorem hasStatement_iff (hnodup : root.ids.Nodup) {f : Node} {outer : List Node}
    (hf : root.Occurs outer f) (h : root.Occurs around n) :
    f.hasStatement n.id = true ↔ ∃ s, around = s :: f :: outer ∧ s.kind = .exprStmt := by
  simp only [Node.hasStatement, List.any_eq_true, Bool.and_eq_true, decide_eq_true_eq]
  constructor
  · rintro ⟨s, hs, hkind, c, hc, hid⟩
    -- Whoever stands two levels below the function determines the nodes around it.
    exact ⟨s, (((hf.child hs).child hc).unique hnodup h hid).1.symm, hkind⟩
  · rintro ⟨s, rfl, hkind⟩
    obtain ⟨hs, hn⟩ := h.parent
    exact ⟨s, hs.parent.2, hkind, n, hn, rfl⟩

theorem isDirectIn_of_occurs (hnodup : root.ids.Nodup) {f : Node} {outer : List Node}
    (hf : root.Occurs outer f) (h : root.Occurs around n) :
    root.indexed.isDirectIn n f = .ok (f.hasStatement n.id) := by
  have hnone : (∀ s, around = s :: f :: outer → s.kind ≠ .exprStmt) →
      f.hasStatement n.id = false := by
    intro hkind
    rw [Bool.eq_false_iff, ne_eq, hasStatement_iff hnodup hf h]
    rintro ⟨s, heq, hs⟩
    exact hkind s heq hs
  rw [isDirectIn, parentOf_of_occurs hnodup h]
  cases around with
  | nil =>
    rw [hnone (by simp)]
    rfl
  | cons s rest =>
    have hs := h.parent.1
    change (if s.kind = .exprStmt then _ else _) = _
    by_cases hkind : s.kind = .exprStmt
    · rw [if_pos hkind, parentOf_of_occurs hnodup hs]
      cases rest with
      | nil =>
        rw [hnone (by simp)]
        rfl
      | cons p rest =>
        change Except.ok (decide (p.id = f.id)) = _
        congr 1
        rw [Bool.eq_iff_iff, hasStatement_iff hnodup hf h, decide_eq_true_eq]
        constructor
        · intro hid
          obtain ⟨rfl, rfl⟩ := hs.parent.1.unique hnodup hf hid
          exact ⟨s, rfl, hkind⟩
        · rintro ⟨s', heq, -⟩
          simp only [List.cons.injEq] at heq
          rw [heq.2.1]
    · rw [if_neg hkind, hnone]
      · rfl
      · intro s' heq
        rw [← (List.cons.inj heq).1]
        exact hkind

end

/-! ## The first assignment -/

section

variable {root cls f : Node} {oracle : Oracle} {name : String}

/-- Looking for the first assignment passes over these nodes if none of them is one, and else ends
at the first. -/
def Searches (root cls f : Node) (oracle : Oracle) (name : String) (ns : List Node) : Prop :=
  ∀ rest, root.indexed.firstAssignment oracle cls f name (ns ++ rest) =
    match ns.find? (Node.assignsOwn name) with
    | some a => .ok (Node.resolutionOf oracle cls f a)
    | none => root.indexed.firstAssignment oracle cls f name rest

theorem Searches.flatMap {cs : List Node}
    (h : ∀ c ∈ cs, Searches root cls f oracle name c.preorder) :
    Searches root cls f oracle name (cs.flatMap Node.preorder) := by
  induction cs with
  | nil => exact fun rest => rfl
  | cons c cs ih =>
    intro rest
    have hcs := ih (fun d hd => h d (List.mem_cons_of_mem _ hd)) rest
    rw [List.flatMap_cons, List.append_assoc, h c List.mem_cons_self, List.find?_append, hcs]
    cases c.preorder.find? (Node.assignsOwn name) <;> rfl

/-- The node is not read or written as the property, or it is the target of no assignment. -/
def IsPassed (name : String) (around : List Node) (n : Node) : Prop :=
  n.isOwnMember name = true →
    ∀ a ∈ around.head?, ∀ t v, a.form = .assign t v → t.id ≠ n.id

theorem firstAssignment_of_isPassed (hnodup : root.ids.Nodup) {n : Node} {around : List Node}
    (h : root.Occurs around n) (hpassed : IsPassed name around n) (ns : List Node) :
    root.indexed.firstAssignment oracle cls f name (n :: ns) =
      root.indexed.firstAssignment oracle cls f name ns := by
  rw [firstAssignment]
  by_cases hown : n.isOwnMember name = true
  · rw [if_pos hown, assignmentTo_of_no_target hnodup h (hpassed hown)]
    rfl
  · rw [if_neg hown]

theorem firstAssignment_of_target (hnodup : root.ids.Nodup) {outer : List Node}
    (hf : root.Occurs outer f) {a t v : Node} {around : List Node} (h : root.Occurs around a)
    (hform : a.form = .assign t v) (hown : t.isOwnMember name = true) (ns : List Node) :
    root.indexed.firstAssignment oracle cls f name (t :: ns) =
      .ok (Node.resolutionOf oracle cls f a) := by
  have ht : t ∈ a.children := by
    simp [Node.children, Form.children, hform, Form.segments, Segment.toList]
  rw [firstAssignment, if_pos hown, assignmentTo_of_target hnodup (h.child ht) hform]
  change (root.indexed.isDirectIn a f >>= fun direct => _) = _
  rw [isDirectIn_of_occurs hnodup hf h, Node.resolutionOf, Node.assignedValue, hform]
  cases f.hasStatement a.id <;> rfl

/-- In a subtree the search ends at the first assignment.  Its target is what comes next in
pre-order, so nothing that could be found instead lies between. -/
theorem searches_preorder (hnodup : root.ids.Nodup) {outer : List Node} (hf : root.Occurs outer f)
    (n : Node) : ∀ around, root.Occurs around n → IsPassed name around n →
      Searches root cls f oracle name n.preorder := by
  induction n using Node.induction with
  | step n ih =>
    intro around h hpassed rest
    rw [Node.preorder_eq, List.cons_append, firstAssignment_of_isPassed hnodup h hpassed,
      List.find?_cons]
    by_cases hassigns : n.assignsOwn name = true
    · rw [hassigns]
      rw [Node.assignsOwn] at hassigns
      split at hassigns
      · rename_i t v hform
        have hchildren : n.children = [t, v] := by
          simp [Node.children, Form.children, hform, Form.segments, Segment.toList]
        rw [hchildren, List.flatMap_cons, Node.preorder_eq, List.cons_append, List.cons_append,
          firstAssignment_of_target hnodup hf h hform hassigns]
      · exact absurd hassigns (by simp)
    · rw [Bool.not_eq_true] at hassigns
      rw [hassigns]
      refine Searches.flatMap (fun c hc => ih c hc (n :: around) (h.child hc) ?_) rest
      intro hown a ha t v hform hid
      obtain rfl : n = a := by simpa using ha
      have ht : t ∈ n.children := by
        simp [Node.children, Form.children, hform, Form.segments, Segment.toList]
      have hsame : t = c :=
        Node.eq_of_mem_ids (h.nodup hnodup) ht hc t.id_mem_ids (hid ▸ c.id_mem_ids)
      rw [Node.assignsOwn, hform] at hassigns
      rw [hsame] at hassigns
      exact absurd (hown.symm.trans hassigns) (by simp)

/-- The type of a property depends on its class alone, and finding it does not fail. -/
theorem memberType_of_occurs (hnodup : root.ids.Nodup) {outer : List Node}
    (h : root.Occurs outer cls) :
    root.indexed.memberType oracle cls name = .ok (cls.memberResolution oracle name) := by
  unfold memberType Node.memberResolution
  cases cls.findProperty? name with
  | none => rfl
  | some property =>
    dsimp only
    by_cases hprivate : property.isPrivateProperty = true
    · rw [if_neg (by simpa using hprivate), if_neg (by simpa using hprivate)]
      cases hmethod : cls.findMethod? Node.constructorName with
      | none => rfl
      | some f =>
        have hf : root.Occurs (cls :: outer) f :=
          h.child (Node.mem_children_of_mem_members (Node.mem_members_of_findMethod? hmethod))
        have hsearch : Searches root cls f oracle name (f.methodBody.flatMap Node.preorder) := by
          refine Searches.flatMap ?_
          intro c hc
          have hoccurs := hf.child (Node.mem_children_of_mem_methodBody hc)
          refine searches_preorder hnodup hf c _ hoccurs ?_
          intro _ a ha t v hform
          -- A constructor is not an assignment.
          obtain rfl : f = a := by simpa using ha
          rw [Node.methodBody, hform] at hc
          exact absurd hc List.not_mem_nil
        have hnil := hsearch []
        rw [List.append_nil] at hnil
        dsimp only
        rw [hnil]
        cases (f.methodBody.flatMap Node.preorder).find? (Node.assignsOwn name) <;> rfl
    · rw [if_pos (by simpa using hprivate), if_pos (by simpa using hprivate)]

end

end IndexedTree

end PhpRefactor
