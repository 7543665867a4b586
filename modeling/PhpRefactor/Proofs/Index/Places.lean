import PhpRefactor.Proofs.Index.Stale
import PhpRefactor.Proofs.Index.Structure
import PhpRefactor.Proofs.Index.Edit

/-!
# What each place admits

An edit is carried out on the runs of children that a construct is cut into.  Seen from the
language there are three sorts of places: a statement or class member, of which there may be any
number (`Node.HasAsStatement`), a node that can be left out (`Node.CanLose`), and a node that must
be there.  Both are said here construct by construct, without runs.

Through the index of the tree at hand the sort of the place decides all
(`TreeIndex.exists_guards`): any node can be exchanged, statements can stand only where statements
stand, a node can go only where it can be left out, and an edit that is not made is refused for just
that reason.  An edit that is made leaves a tree with an index exactly when the identities that came
in are distinct and are not met in the rest of the tree (`Node.Receives`).
-/

set_option autoImplicit false

namespace PhpRefactor

namespace Node

/-- The child is one of a list of statements, or a member of a class. -/
def HasAsStatement (m n : Node) : Prop :=
  match m.form with
  | .file stmts | .elseBranch stmts | .method _ _ _ _ stmts | .function _ _ stmts
  | .closure _ _ stmts | .ifStmt _ stmts _ _ | .elseIf _ stmts | .whileLoop _ stmts
  | .catchClause _ _ stmts => n ∈ stmts
  | .tryBlock stmts _ final => n ∈ stmts ∨ ∃ stmts' ∈ final, n ∈ stmts'
  | .classDecl _ _ members => n ∈ members
  | _ => False

/-- The construct is complete without the child: it is one of a list, or it stands in a place that
may be empty. -/
def CanLose (m n : Node) : Prop :=
  m.HasAsStatement n ∨
    match m.form with
    | .ifStmt _ _ elseIfs elseBranch => n ∈ elseIfs ∨ n ∈ elseBranch
    | .tryBlock _ catches _ => n ∈ catches
    | .closure params uses _ => n ∈ uses ∨ ∃ p ∈ params, n ∈ p.initial
    | .method _ _ _ params _ | .function _ params _ => ∃ p ∈ params, n ∈ p.initial
    | .newObject _ args | .methodCall _ _ args | .funcCall _ args => n ∈ args
    | .echo items | .array items => n ∈ items
    | .property _ _ _ initial | .returnStmt initial => n ∈ initial
    | _ => False

section

variable {m n : Node}

/-- In a tree without repeated identities a child stands in the one run that has its identity. -/
theorem holdsIn_iff_of_mem {sort : Segment Node → Bool} (hnodup : m.ids.Nodup)
    (hn : n ∈ m.children) :
    m.holdsIn sort n.id = true ↔ ∃ s ∈ m.form.segments, sort s = true ∧ n ∈ s.toList := by
  simp only [holdsIn, List.any_eq_true, Bool.and_eq_true, Segment.holds_iff, List.mem_map]
  refine exists_congr fun s => and_congr_right fun hs => and_congr_right fun _ => ?_
  constructor
  · rintro ⟨c, hc, hid⟩
    have hchild : c ∈ m.children := List.mem_flatMap_of_mem hs hc
    rwa [← eq_of_mem_ids hnodup hchild hn c.id_mem_ids (hid ▸ n.id_mem_ids)]
  · exact fun hmem => ⟨n, hmem, rfl⟩

/-- Statements stand in the runs of statements. -/
theorem hasAsStatement_iff :
    m.HasAsStatement n ↔ ∃ s ∈ m.form.segments, s.isStatements = true ∧ n ∈ s.toList := by
  unfold HasAsStatement
  cases m.form with
  | tryBlock stmts catches final =>
    cases final <;> simp [Form.segments, Segment.isStatements, Segment.toList]
  | method | function | closure =>
    simp [Form.segments, Segment.isStatements, Segment.toList, Param.segment, or_and_right,
      exists_or]
  | _ => simp [Form.segments, Segment.isStatements, Segment.toList]

/-- A child can be left out of any run but that of one child that must be there. -/
theorem canLose_iff :
    m.CanLose n ↔ ∃ s ∈ m.form.segments, s.isLoose = true ∧ n ∈ s.toList := by
  unfold CanLose HasAsStatement
  cases m.form with
  | tryBlock stmts catches final =>
    cases final <;> simp [Form.segments, Segment.isLoose, Segment.toList, or_comm, or_left_comm]
  | method | function | closure =>
    simp [Form.segments, Segment.isLoose, Segment.toList, Param.segment, or_and_right, exists_or,
      or_comm, or_left_comm]
  | _ => simp [Form.segments, Segment.isLoose, Segment.toList]

end

/-! ## What an edit leaves -/

/-- The tree has become the tree with `xs` where the node `n` stood, and there is an index of it
exactly when the identities that came in are distinct and none of them is met in the rest of the
tree. -/
structure Receives (root n : Node) (xs : List Node) (root' : Node) : Prop where
  changed : root.ChangedAt n.id xs root'
  indexed : (∃ index, TreeIndex.ofTree root' = .ok index) ↔
    (xs.flatMap ids).Nodup ∧ ∀ i ∈ xs.flatMap ids, i ∈ root.ids → i ∈ n.ids

theorem exists_ofTree_iff {root : Node} :
    (∃ index, TreeIndex.ofTree root = .ok index) ↔ root.ids.Nodup := by
  simp [TreeIndex.ofTree_eq_ok_iff]

namespace GraftSite

variable {root m n : Node} {around xs : List Node}

/-- What comes in must be distinct, and may repeat only what goes. -/
theorem nodup_grafted_iff (site : GraftSite root around m n xs) :
    (root.grafted n.id xs).ids.Nodup ↔
      (xs.flatMap ids).Nodup ∧ ∀ i ∈ xs.flatMap ids, i ∈ root.ids → i ∈ n.ids := by
  obtain ⟨l, r, hids, hgrafted⟩ := site.exists_ids_eq
  have hmiddle : ∀ is : List Nat, (l ++ is ++ r).Nodup ↔
      is.Nodup ∧ (l ++ r).Nodup ∧ is.Disjoint (l ++ r) := by
    intro is
    have hperm : (l ++ is ++ r).Perm (is ++ (l ++ r)) := by
      rw [← List.append_assoc]
      exact List.perm_append_comm.append_right r
    rw [← List.nodup_append', hperm.nodup_iff]
  have hmem : ∀ i, i ∈ root.ids ↔ i ∈ n.ids ∨ i ∈ l ++ r := by
    intro i
    rw [hids]
    simp only [List.mem_append]
    tauto
  have hnodup := site.nodup
  rw [hids, hmiddle] at hnodup
  obtain ⟨-, hrest, hapart⟩ := hnodup
  rw [hgrafted, hmiddle]
  constructor
  · rintro ⟨hxs, -, hdisjoint⟩
    exact ⟨hxs, fun i hi hroot => ((hmem i).mp hroot).resolve_right (hdisjoint hi)⟩
  · rintro ⟨hxs, hfree⟩
    refine ⟨hxs, hrest, fun i hi hother => ?_⟩
    exact hapart (hfree i hi ((hmem i).mpr (.inr hother))) hother

theorem receives (site : GraftSite root around m n xs)
    (hchanged : root.ChangedAt n.id xs (root.grafted n.id xs)) :
    root.Receives n xs (root.grafted n.id xs) where
  changed := hchanged
  indexed := exists_ofTree_iff.trans site.nodup_grafted_iff

end GraftSite

end Node

/-! ## Edits through the index of the tree -/

namespace TreeIndex

variable {root m n : Node} {around : List Node}

/-- An edit that was made has changed the tree where it should. -/
theorem Spares.changedAt {i : Nat} {xs : List Node} {result : Except TreeError Node} {root' : Node}
    (h : Spares root i xs result) (hok : result = .ok root') : root.ChangedAt i xs root' := by
  obtain ⟨e, he⟩ | ⟨root'', hroot'', hchanged⟩ := h
  · cases he.symm.trans hok
  · obtain rfl := Except.ok.inj (hroot''.symm.trans hok)
    exact hchanged

theorem editParent_of_notMem {i : Nat} (h : i ∉ root.ids)
    (change : Node → Except TreeError Node) :
    (of root).editParent root i change = .error (.unattached i) := by
  unfold editParent placement
  rw [placement?_of_notMem h]
  rfl

theorem replace_of_notMem {i : Nat} {x : Node} (h : i ∉ root.ids) :
    (of root).replace root i x = .error (.unattached i) := by
  have hroot : root.id ≠ i := fun heq => h (heq ▸ root.id_mem_ids)
  rw [replace, if_neg hroot, editParent_of_notMem h]

theorem receives_replace (hnodup : root.ids.Nodup) (h : root.Occurs around n) (x : Node) :
    ∃ root', (of root).replace root n.id x = .ok root' ∧ root.Receives n [x] root' := by
  cases h with
  | root =>
    have hok := replace_root root x
    refine ⟨x, hok, (spares_replace (of root) hnodup root.id x).changedAt hok, ?_⟩
    rw [Node.exists_ofTree_iff, List.flatMap_singleton]
    exact ⟨fun hx => ⟨hx, fun _ _ hi => hi⟩, fun hx => hx.1⟩
  | child hm hn =>
    have hoccurs := hm.child hn
    have hok := replace_of_occurs hnodup hoccurs x
    refine ⟨_, hok, (Node.GraftSite.exchange hnodup hoccurs x).receives ?_⟩
    exact (spares_replace (of root) hnodup n.id x).changedAt hok

theorem receives_splice (hnodup : root.ids.Nodup) (h : root.Occurs (m :: around) n)
    (hplace : m.holdsIn Segment.isStatements n.id = true) (xs : List Node) :
    ∃ root', (of root).splice root n.id xs = .ok root' ∧ root.Receives n xs root' := by
  have hok := splice_of_occurs hnodup h xs
  rw [if_pos hplace] at hok
  refine ⟨_, hok, (Node.GraftSite.splice hnodup h hplace xs).receives ?_⟩
  exact (spares_editParent (of root) hnodup fun _ _ => Node.exists_of_spliceChild).changedAt hok

theorem receives_remove (hnodup : root.ids.Nodup) (h : root.Occurs (m :: around) n)
    (hplace : m.holdsIn Segment.isLoose n.id = true) :
    ∃ root', (of root).remove root n.id = .ok root' ∧ root.Receives n [] root' := by
  have hsort := (Node.holdsIn_isLoose m n.id).mp hplace
  have hok := remove_of_occurs hnodup h
  rw [if_pos (by simpa using hsort)] at hok
  refine ⟨_, hok, (Node.GraftSite.remove hnodup h hsort).receives ?_⟩
  exact (spares_editParent (of root) hnodup fun _ _ => Node.exists_of_removeChild).changedAt hok

/-- Through the index an edit of the tree is made where its place admits it, and is refused for what
the place is where it does not. -/
structure Guards (index : TreeIndex) (root : Node) : Prop where
  /-- What is not in the tree cannot be edited. -/
  unattached : ∀ i ∉ root.ids,
    (∀ x, index.replace root i x = .error (.unattached i)) ∧
    (∀ xs, index.splice root i xs = .error (.unattached i)) ∧
    index.remove root i = .error (.unattached i)
  /-- Any node can be exchanged. -/
  replaced : ∀ n ∈ root.preorder, ∀ x,
    ∃ root', index.replace root n.id x = .ok root' ∧ root.Receives n [x] root'
  root_kept : (∀ xs, index.splice root root.id xs = .error (.detachedRoot root.id)) ∧
    index.remove root root.id = .error (.detachedRoot root.id)
  /-- Statements can take the place of a statement. -/
  spliced : ∀ m around n, root.Occurs (m :: around) n → m.HasAsStatement n → ∀ xs,
    ∃ root', index.splice root n.id xs = .ok root' ∧ root.Receives n xs root'
  not_spliced : ∀ m around n, root.Occurs (m :: around) n → ¬ m.HasAsStatement n → ∀ xs,
    index.splice root n.id xs = .error (.notInStatements n.id m.id m.kind)
  /-- A node can go from where it can be left out. -/
  removed : ∀ m around n, root.Occurs (m :: around) n → m.CanLose n →
    ∃ root', index.remove root n.id = .ok root' ∧ root.Receives n [] root'
  not_removed : ∀ m around n, root.Occurs (m :: around) n → ¬ m.CanLose n →
    index.remove root n.id = .error (.required n.id m.id m.kind)
  /-- No parent has lost its child. -/
  never_notChild : ∀ i j k,
    (∀ x, index.replace root i x ≠ .error (.notChild j k)) ∧
    (∀ xs, index.splice root i xs ≠ .error (.notChild j k)) ∧
    index.remove root i ≠ .error (.notChild j k)

theorem ne_notChild (hnodup : root.ids.Nodup) (i j k : Nat) :
    (∀ x, (of root).replace root i x ≠ .error (.notChild j k)) ∧
    (∀ xs, (of root).splice root i xs ≠ .error (.notChild j k)) ∧
    (of root).remove root i ≠ .error (.notChild j k) := by
  by_cases hi : i ∈ root.ids
  · obtain ⟨n, hn, rfl⟩ := List.mem_map.mp hi
    obtain ⟨around, h⟩ := Node.mem_preorder_iff.mp hn
    have hreplace : ∀ x, (of root).replace root n.id x ≠ .error (.notChild j k) := by
      intro x
      obtain ⟨root', hok, -⟩ := receives_replace hnodup h x
      simp [hok]
    -- At the root the error is another one; below it a place that refuses an edit says so itself.
    cases h with
    | root =>
      refine ⟨hreplace, fun xs => ?_, ?_⟩
      · simp [splice, editParent_root root hnodup]
      · simp [remove, editParent_root root hnodup]
    | child hm hc =>
      refine ⟨hreplace, fun xs => ?_, ?_⟩
      · rw [splice_of_occurs hnodup (hm.child hc)]
        split <;> simp
      · rw [remove_of_occurs hnodup (hm.child hc)]
        split <;> simp
  · simp [replace_of_notMem hi, splice, remove, editParent_of_notMem hi]

/-- A tree without repeated identities has an index that guards it: each edit of each node is made
or refused as the place of the node demands. -/
theorem exists_guards (hnodup : root.ids.Nodup) :
    ∃ index, ofTree root = .ok index ∧ index.Guards root := by
  refine ⟨of root, ofTree_of_nodup hnodup, ?_⟩
  have hsort : ∀ {m n : Node} {around : List Node} {sort : Segment Node → Bool},
      root.Occurs (m :: around) n →
      (m.holdsIn sort n.id = true ↔ ∃ s ∈ m.form.segments, sort s = true ∧ n ∈ s.toList) :=
    fun h => Node.holdsIn_iff_of_mem (h.parent.1.nodup hnodup) h.parent.2
  constructor
  case unattached =>
    intro i hi
    exact ⟨fun x => replace_of_notMem hi, fun xs => editParent_of_notMem hi _,
      editParent_of_notMem hi _⟩
  case replaced =>
    intro n hn x
    obtain ⟨around, h⟩ := Node.mem_preorder_iff.mp hn
    exact receives_replace hnodup h x
  case root_kept =>
    exact ⟨fun xs => editParent_root root hnodup _, editParent_root root hnodup _⟩
  case spliced =>
    intro m around n h hplace xs
    exact receives_splice hnodup h ((hsort h).mpr (Node.hasAsStatement_iff.mp hplace)) xs
  case not_spliced =>
    intro m around n h hplace xs
    rw [splice_of_occurs hnodup h, if_neg]
    exact fun hholds => hplace (Node.hasAsStatement_iff.mpr ((hsort h).mp hholds))
  case removed =>
    intro m around n h hplace
    exact receives_remove hnodup h ((hsort h).mpr (Node.canLose_iff.mp hplace))
  case not_removed =>
    intro m around n h hplace
    rw [remove_of_occurs hnodup h, if_neg]
    rw [Bool.or_eq_true, ← Node.holdsIn_isLoose]
    exact fun hholds => hplace (Node.canLose_iff.mpr ((hsort h).mp hholds))
  case never_notChild => exact ne_notChild hnodup

/-- An `if` with an `else`. -/
def forked : Node :=
  ⟨3, .none, .ifStmt ⟨4, .none, .var "x"⟩ [⟨5, .none, .echo []⟩] []
    (some ⟨6, .none, .elseBranch []⟩)⟩

/-- A function with a default value and the `if`. -/
def forking : Node :=
  ⟨1, .none, .function "f" [⟨"x", none, some ⟨2, .none, .null⟩⟩] [forked]⟩

theorem exists_guards_forking :
    forking.ids.Nodup ∧ ∃ index, ofTree forking = .ok index ∧
      index.remove forking 7 = .error (.unattached 7) ∧
      (∃ root', index.remove forking 6 = .ok root' ∧ forking.ChangedAt 6 [] root') ∧
      index.splice forking 6 [] = .error (.notInStatements 6 3 .ifStmt) ∧
      index.remove forking 4 = .error (.required 4 3 .ifStmt) ∧
      ∃ root', index.splice forking 5 [⟨6, .none, .echo []⟩] = .ok root' ∧
        ¬ ∃ index', ofTree root' = .ok index' := by
  have hnodup : forking.ids.Nodup := by decide +kernel
  obtain ⟨index, hindex, hguards⟩ := exists_guards hnodup
  have hforked : forking.Occurs [forking] forked := .child .root (by
    simp [forking, Node.children, Form.children, Form.segments, Segment.toList])
  have hcond : forking.Occurs [forked, forking] ⟨4, .none, .var "x"⟩ := hforked.child (by
    simp [forked, Node.children, Form.children, Form.segments, Segment.toList])
  have hbody : forking.Occurs [forked, forking] ⟨5, .none, .echo []⟩ := hforked.child (by
    simp [forked, Node.children, Form.children, Form.segments, Segment.toList])
  have helse : forking.Occurs [forked, forking] ⟨6, .none, .elseBranch []⟩ := hforked.child (by
    simp [forked, Node.children, Form.children, Form.segments, Segment.toList])
  refine ⟨hnodup, index, hindex, ?_, ?_, ?_, ?_, ?_⟩
  · exact (hguards.unattached 7 (by decide +kernel)).2.2
  · obtain ⟨root', hok, hreceives⟩ :=
      hguards.removed _ _ _ helse (by simp [Node.CanLose, forked])
    exact ⟨root', hok, hreceives.changed⟩
  · exact hguards.not_spliced _ _ _ helse (by simp [Node.HasAsStatement, forked]) []
  · exact hguards.not_removed _ _ _ hcond (by simp [Node.CanLose, Node.HasAsStatement, forked])
  · obtain ⟨root', hok, hreceives⟩ := hguards.spliced _ _ _ hbody
      (by simp [Node.HasAsStatement, forked]) [⟨6, .none, .echo []⟩]
    refine ⟨root', hok, fun hindexed => ?_⟩
    -- The `else` has the identity of what came in, and it stays.
    have hfree := (hreceives.indexed.mp hindexed).2 6 (by decide +kernel) (by decide +kernel)
    exact absurd hfree (by decide +kernel)

end TreeIndex

end PhpRefactor
