import PhpRefactor.Proofs.Document.Depth

/-!
# Documents that are written and read again

What is written of a tree that was read from a document is read as the same tree again, unless its
written form nests too deep (`Batch.readTree_render_of_readTree`).  The written form may be deeper
than the document: at the innermost place it has a position or an empty list where the document has
nothing.  It is deeper by one at most, so only documents that nest as deep as the reader allows can
be lost, and some of them are (`Batch.readTree_render_nested`).
-/

set_option autoImplicit false

namespace PhpRefactor

namespace Document

/-- A tree whose written form is too deep is refused. -/
theorem readTree_tooDeep {tree : Node} (hreads : tree.FloatsReadBack)
    (hdepth : documentDepth < tree.toJson.depth) {text : String}
    (htext : text = writeTree tree ∨ text ++ "\n" = writeTree tree) (next : Nat) :
    readTree next text = .error (.notJson .tooDeep) := by
  have hroot := DocumentReader.root_tooDeep hdepth []
  rw [List.append_nil] at hroot
  rw [readTree, DocumentReader.run, scan_text hreads htext, hroot]
  rfl

theorem finiteFloats_of_readTree {next : Nat} {text : String} {read : Node × Nat}
    (h : readTree next text = .ok read) : read.1.FiniteFloats := by
  obtain ⟨n, hfinite, rfl⟩ := exists_of_readTree h
  rwa [← Node.finiteFloats_anonymous_iff, Node.anonymous_number, Node.finiteFloats_anonymous_iff]

end Document

/-- The document that is rendered for a tree that was read is read as this tree, up to identities,
if its nesting is allowed, and refused otherwise; it is at most one deeper than the first document.
-/
theorem Batch.readTree_render_of_readTree {batch : Batch} (hformat : batch.format = .json)
    {first next : Nat} {source : String} {tree : Node}
    (hread : Document.readTree first source = .ok (tree, next)) (hreads : tree.FloatsReadBack)
    (again : Nat) :
    tree.toJson.depth ≤ Json.nesting source + 1 ∧
      (tree.toJson.depth ≤ 127 → ∃ same after,
        Document.readTree again (batch.render tree) = .ok (same, after) ∧
          same.anonymous = tree.anonymous) ∧
      (127 < tree.toJson.depth →
        Document.readTree again (batch.render tree) = .error (.notJson .tooDeep)) := by
  have hfinite := Document.finiteFloats_of_readTree hread
  refine ⟨Document.depth_le_nesting hread, fun hdepth => ?_, fun hdepth => ?_⟩
  · rw [render, hformat]
    refine ⟨_, _, Document.readTree_text hfinite hreads hdepth (.inl rfl) again, ?_⟩
    rw [Node.anonymous_number, Node.anonymous_anonymous]
  · rw [render, hformat]
    exact Document.readTree_tooDeep hreads hdepth (.inl rfl) again

/-! ## Documents at the limit -/

/-- An object without a position is read by its members. -/
theorem DocumentReader.root_reads_members {key : String} {v : Json} {fields : List (String × Json)}
    {form : Form Node} (hkeys : ∀ f ∈ (key, v) :: fields, f.1 ≠ "span")
    (hdepth : Json.depthFields ((key, v) :: fields) < documentDepth)
    (hform : Decoder.construct (Decoder.node (Json.depthFields ((key, v) :: fields)))
      ((key, v) :: fields) = .ok form) :
    root.Reads (.object ((key, v) :: fields)) ⟨0, .none, form⟩ := by
  intro ts
  have hmembers := takes_rootMember none hkeys hdepth []
  rw [List.append_nil] at hmembers
  rw [root, container_object, bind_of_ok (members_reads hmembers ts)]
  simp only [List.reverse_reverse, hform]
  rfl

/-- A document without positions: arrays inside one another, and `null` inside them. -/
def nestedArrays : Nat → Json
  | 0 => .object [("kind", .string "Null")]
  | k + 1 => .object [("kind", .string "Array"), ("items", .array [nestedArrays k])]

/-- The tree of this document. -/
def arrayNest : Nat → Node
  | 0 => ⟨0, .none, .null⟩
  | k + 1 => ⟨0, .none, .array [arrayNest k]⟩

namespace Document

theorem depth_nestedArrays (k : Nat) : (nestedArrays k).depth = 2 * k + 1 := by
  induction k with
  | zero => rfl
  | succ k ih =>
    simp only [nestedArrays, Json.depth, Json.depthFields, Json.depthItems, ih]
    omega

theorem depth_arrayNest (k : Nat) : (arrayNest k).toJson.depth = 2 * k + 2 := by
  induction k with
  | zero => rw [arrayNest, Node.toJson_eq]; rfl
  | succ k ih =>
    rw [arrayNest, Node.toJson_eq]
    simp only [Node.fields, Form.map, Form.toFields, Span.toJson, List.map_cons, List.map_nil,
      Json.depth, Json.depthFields, Json.depthItems, ih]
    omega

theorem floatsReadBack_arrayNest (k : Nat) : (arrayNest k).FloatsReadBack := by
  refine Node.floatsReadBack_of_no_float fun n hn => ?_
  induction k with
  | zero =>
    rw [Node.preorder_eq, List.mem_cons] at hn
    rcases hn with rfl | hn
    · decide
    · exact absurd hn List.not_mem_nil
  | succ k ih =>
    rw [Node.preorder_eq, List.mem_cons] at hn
    rcases hn with rfl | hn
    · exact fun hkind => nomatch hkind
    · obtain ⟨c, hc, hn⟩ := List.mem_flatMap.mp hn
      exact ih (List.mem_singleton.mp hc ▸ hn)

theorem writable_nestedArrays (k : Nat) : (nestedArrays k).Writable := by
  induction k with
  | zero => exact .object (List.forall_mem_singleton.mpr (.string _))
  | succ k ih =>
    refine .object (List.forall_mem_cons.mpr ⟨.string _, List.forall_mem_singleton.mpr ?_⟩)
    exact .array (List.forall_mem_singleton.mpr ih)

/-- The construct is read when what stands in the array is. -/
theorem construct_nestedArrays {child : Decoder Node} {k : Nat}
    (h : child (nestedArrays k) = .ok (arrayNest k)) :
    Decoder.construct child [("kind", .string "Array"), ("items", .array [nestedArrays k])] =
      .ok (.array [arrayNest k]) := by
  have hitems : Decoder.list child (.array [nestedArrays k]) = .ok [arrayNest k] := by
    change [nestedArrays k].mapM child = _
    rw [List.mapM_cons, h]
    rfl
  have hform : (Members.form child .array).Finds
      [("kind", .string "Array"), ("items", .array [nestedArrays k])] (.array [arrayNest k]) :=
    .map (Members.finds_member rfl hitems)
  exact hform.decode

theorem node_nestedArrays {k depth : Nat} (hdepth : k < depth) :
    Decoder.node depth (nestedArrays k) = .ok (arrayNest k) := by
  induction k generalizing depth with
  | zero =>
    obtain ⟨depth, rfl⟩ := Nat.exists_eq_add_one_of_ne_zero (Nat.ne_zero_of_lt hdepth)
    rfl
  | succ k ih =>
    obtain ⟨depth, rfl⟩ := Nat.exists_eq_add_one_of_ne_zero (Nat.ne_zero_of_lt hdepth)
    have hform := construct_nestedArrays (ih (Nat.lt_of_succ_lt_succ hdepth))
    rw [nestedArrays, Decoder.node, hform]
    rfl

/-- The document is read as its tree, if its nesting is allowed. -/
theorem readTree_nestedArrays {k : Nat} (hdepth : 2 * k + 1 ≤ 127) (next : Nat) :
    readTree next (nestedArrays k).pretty = .ok (Node.number next (arrayNest k)) := by
  have hscan := (writable_nestedArrays k).scan_pretty Token.cut_nil rfl
  rw [List.append_nil] at hscan
  have hroot : DocumentReader.root.Reads (nestedArrays k) (arrayNest k) := by
    have hkeys : ∀ v : Json, ∀ f ∈ [("kind", v)], f.1 ≠ "span" := by simp
    cases k with
    | zero =>
      exact DocumentReader.root_reads_members (hkeys _) (by decide) rfl
    | succ k =>
      have hitems := depth_nestedArrays k
      refine DocumentReader.root_reads_members (by simp) ?_ (construct_nestedArrays ?_)
      · simp only [Json.depthFields, Json.depth, Json.depthItems, documentDepth]
        omega
      · refine node_nestedArrays ?_
        simp only [Json.depthFields, Json.depth, Json.depthItems]
        omega
  rw [readTree, DocumentReader.run_of_reads hroot hscan]
  rfl

end Document

/-- An array that holds `null` is written and read again. -/
theorem Batch.readTree_render_of_readTree_array :
    let batch : Batch := ⟨.standard, .json, none, false, fun _ => .inOrder⟩
    ∃ tree next, Document.readTree 1 (nestedArrays 1).pretty = .ok (tree, next) ∧
      ∃ same after, Document.readTree 1 (batch.render tree) = .ok (same, after) ∧
        same.anonymous = tree.anonymous := by
  intro batch
  have hread := Document.readTree_nestedArrays (k := 1) (by decide) 1
  have hreads := (Document.floatsReadBack_arrayNest 1).number 1
  have hdepth : (Node.number 1 (arrayNest 1)).1.toJson.depth ≤ 127 := by
    rw [Node.toJson_number, Document.depth_arrayNest]
    decide
  have hformat : batch.format = .json := rfl
  obtain ⟨-, hsame, -⟩ := Batch.readTree_render_of_readTree hformat hread hreads 1
  exact ⟨_, _, hread, hsame hdepth⟩

/-- A document that nests as deep as the reader allows is read; what is written of it is not. -/
theorem Batch.readTree_render_nested :
    let batch : Batch := ⟨.standard, .json, none, false, fun _ => .inOrder⟩
    ∃ tree next, Document.readTree 1 (nestedArrays 63).pretty = .ok (tree, next) ∧
      Document.readTree 1 (batch.render tree) = .error (.notJson .tooDeep) := by
  have hread := Document.readTree_nestedArrays (k := 63) (by decide) 1
  have hreads := (Document.floatsReadBack_arrayNest 63).number 1
  have hdepth : documentDepth < (Node.number 1 (arrayNest 63)).1.toJson.depth := by
    rw [Node.toJson_number, Document.depth_arrayNest]
    decide
  exact ⟨_, _, hread, Document.readTree_tooDeep hreads hdepth (.inl rfl) 1⟩

end PhpRefactor
