import PhpRefactor.Files.Batch
import PhpRefactor.Proofs.Document.Construct
import PhpRefactor.Proofs.Document.Reading
import PhpRefactor.Proofs.Syntax.Numbering

/-!
# Trees come back from their texts

A document says nothing of identities, so what comes back from the text of a tree is the tree with
the numbers of the reading (`Document.readTree_text`).  A text has no place for a float that is not
finite, a float comes back only if its own text is read back, and readers go down to a certain depth
only.  These are the conditions: everything else of a tree can be written and is read again.

The outermost node is read off the tokens, its members are decoded from values.  Both ways end in
the decoder of a construct, so the construct is dealt with once (`Decoder.construct_fields`).
-/

set_option autoImplicit false

namespace PhpRefactor

/-! ## Positions -/

theorem Decoder.span_toJson (s : Span) : Decoder.span s.toJson = .ok s :=
  Members.Finds.decode <| .seq (.seq (.map
    (Members.finds_member rfl (uint32_toNat s.start)))
    (Members.finds_member rfl (uint32_toNat s.stop)))
    (Members.finds_member rfl (uint32_toNat s.line))

theorem DocumentReader.span_reads (s : Span) : DocumentReader.span.Reads s.toJson s := by
  intro ts
  have hscalar : ∀ n : UInt32, (scalar Decoder.uint32).Reads (.int n.toNat) n := by
    intro n ts
    rw [scalar, bind_of_ok (x := none) rfl]
    refine (bind_of_ok (value_reads (v := .int n.toNat) le_rfl ts)).trans ?_
    rw [Decoder.uint32_toNat]
    rfl
  have hmembers : Takes spanMember ⟨none, none, none⟩
      [("start", .int s.start.toNat), ("end", .int s.stop.toNat), ("line", .int s.line.toNat)]
      ⟨some s.start, some s.stop, some s.line⟩ := by
    refine .cons (t := ⟨some s.start, none, none⟩) ?start
      (.cons (t := ⟨some s.start, some s.stop, none⟩) ?stop (.cons ?line (.nil _)))
    case start => exact fun ts => bind_of_ok (once_reads (hscalar s.start) ts)
    case stop => exact fun ts => bind_of_ok (once_reads (hscalar s.stop) ts)
    case line => exact fun ts => bind_of_ok (once_reads (hscalar s.line) ts)
  rw [Span.toJson, DocumentReader.span, container_object, bind_of_ok (members_reads hmembers ts)]
  rfl

/-! ## What is written of a node -/

theorem Form.map_eq_float_iff {α β : Type} {f : α → β} {form : Form α} {d : Double} :
    form.map f = .float d ↔ form = .float d := by
  cases form <;> simp [map]

namespace Node

/-- Every float literal of the tree is finite. -/
def FiniteFloats (root : Node) : Prop :=
  ∀ n ∈ root.preorder, ∀ d, n.form = .float d → d.isFinite

/-- Every finite float literal of the tree is read back from what is written for it. -/
def FloatsReadBack (root : Node) : Prop :=
  ∀ n ∈ root.preorder, ∀ d, n.form = .float d → d.isFinite → d.ReadsBack

variable {root c : Node}

theorem FiniteFloats.of_mem_children (h : root.FiniteFloats) (hc : c ∈ root.children) :
    c.FiniteFloats :=
  fun n hn => h n (preorder_subset_of_mem_children hc hn)

theorem FloatsReadBack.of_mem_children (h : root.FloatsReadBack) (hc : c ∈ root.children) :
    c.FloatsReadBack :=
  fun n hn => h n (preorder_subset_of_mem_children hc hn)

/-- Identities have nothing to do with floats. -/
theorem forall_float_anonymous_iff {P : Double → Prop} {root : Node} :
    (∀ n ∈ root.anonymous.preorder, ∀ d, n.form = .float d → P d) ↔
      ∀ n ∈ root.preorder, ∀ d, n.form = .float d → P d := by
  have hform : ∀ (p : Node) (d : Double), p.anonymous.form = .float d ↔ p.form = .float d := by
    intro p d
    rw [anonymous_eq]
    exact Form.map_eq_float_iff
  unfold anonymous
  rw [preorder_mapIds, List.forall_mem_map]
  exact forall₂_congr fun p _ => forall_congr' fun d => imp_congr (hform p d) Iff.rfl

theorem finiteFloats_anonymous_iff {n : Node} : n.anonymous.FiniteFloats ↔ n.FiniteFloats :=
  forall_float_anonymous_iff

theorem floatsReadBack_anonymous_iff {n : Node} : n.anonymous.FloatsReadBack ↔ n.FloatsReadBack :=
  forall_float_anonymous_iff

theorem FiniteFloats.number (h : root.FiniteFloats) (next : Nat) :
    (Node.number next root).1.FiniteFloats := by
  rw [← finiteFloats_anonymous_iff, anonymous_number, finiteFloats_anonymous_iff]
  exact h

theorem FloatsReadBack.number (h : root.FloatsReadBack) (next : Nat) :
    (Node.number next root).1.FloatsReadBack := by
  rw [← floatsReadBack_anonymous_iff, anonymous_number, floatsReadBack_anonymous_iff]
  exact h

theorem finiteFloats_of_no_float (h : ∀ n ∈ root.preorder, n.kind ≠ .float) : root.FiniteFloats :=
  fun n hn d hd => absurd (by rw [kind, hd]; rfl) (h n hn)

theorem floatsReadBack_of_no_float (h : ∀ n ∈ root.preorder, n.kind ≠ .float) :
    root.FloatsReadBack :=
  fun n hn d hd => absurd (by rw [kind, hd]; rfl) (h n hn)

/-- The members that are written for a node, its position left out. -/
def fields (n : Node) : List (String × Json) :=
  ("kind", .string n.kind.name) :: (n.form.map toJson).toFields

theorem toJson_eq (n : Node) : n.toJson = .object (("span", n.span.toJson) :: n.fields) := by
  rw [toJson, fold_eq, fields, kind, Form.kind_map]
  rfl

theorem values_kind_fields (n : Node) :
    Members.values "kind" n.fields = [.string n.kind.name] := by
  rw [fields, Members.values_cons, if_pos rfl, (Form.values_toFields_reserved _).2]

theorem values_fields {key : String} (hkey : key ≠ "kind") (n : Node) :
    Members.values key n.fields = Members.values key (n.form.map toJson).toFields := by
  rw [fields, Members.values_cons, if_neg hkey.symm]

theorem values_span_fields (n : Node) : Members.values "span" n.fields = [] := by
  rw [values_fields (by decide), (Form.values_toFields_reserved _).1]

theorem toJson_anonymous (n : Node) : n.anonymous.toJson = n.toJson := by
  induction n using Node.induction with
  | step n ih =>
    have hchildren : n.form.map (toJson ∘ anonymous) = n.form.map toJson := Form.map_congr ih
    rw [toJson_eq, toJson_eq n, fields, fields, kind, kind, anonymous_eq, Form.kind_map,
      Form.map_map, hchildren]

theorem toJson_number (next : Nat) (n : Node) : (number next n).1.toJson = n.toJson := by
  rw [← toJson_anonymous, anonymous_number, toJson_anonymous]

theorem writable_toJson (h : root.FloatsReadBack) : root.toJson.Writable := by
  induction root using Node.induction with
  | step n ih =>
    have hspan : n.span.toJson.Writable := by
      have hrange : ∀ k : UInt32, Token.IntRange k.toNat := by
        intro k
        have := k.toNat_lt
        constructor <;> omega
      refine .object fun f hf => ?_
      simp only [List.mem_cons, List.not_mem_nil, or_false] at hf
      rcases hf with rfl | rfl | rfl <;> exact .int (hrange _)
    have hfields : ∀ f ∈ (n.form.map toJson).toFields, f.2.Writable := by
      refine Form.writable_toFields ?_ fun d hd => h n n.mem_preorder_self d
        (Form.map_eq_float_iff.mp hd)
      rw [Form.children_map, List.forall_mem_map]
      exact fun c hc => ih c hc (h.of_mem_children hc)
    rw [toJson_eq]
    refine .object fun f hf => ?_
    rw [fields, List.mem_cons, List.mem_cons] at hf
    rcases hf with rfl | rfl | hf
    · exact hspan
    · exact .string _
    · exact hfields f hf

theorem depth_toJson_le (hc : c ∈ root.children) :
    c.toJson.depth ≤ Json.depthFields root.fields := by
  have hfields : c.toJson.depth ≤ Json.depthFields (root.form.map toJson).toFields := by
    refine Form.depth_le_of_mem_children ?_
    rw [Form.children_map]
    exact List.mem_map_of_mem hc
  rw [fields, Json.depthFields]
  omega

theorem depthFields_lt (n : Node) : Json.depthFields n.fields < n.toJson.depth := by
  rw [n.toJson_eq, Json.depth, Json.depthFields]
  omega

end Node

/-! ## What is read of a node -/

open Node (anonymous)

theorem Form.kind_attach {α : Type} (form : Form α) : form.attach.kind = form.kind := by
  rw [← Form.kind_map (fun c => c.1), Form.attach_map form (fun c => c), Form.kind_map]

/-- The construct of a node is read from its members, when the children are. -/
theorem Decoder.construct_fields {child : Decoder Node} {n : Node}
    (hchild : ∀ c ∈ n.children, child c.toJson = .ok c.anonymous) (hfinite : n.FiniteFloats)
    {fields : List (String × Json)}
    (hfields : ∀ key, key ≠ "span" → Members.values key fields = Members.values key n.fields) :
    Decoder.construct child fields = .ok (n.form.map anonymous) := by
  have hform : (Members.form child n.form.attach.kind).Finds fields
      (n.form.attach.map fun c => c.1.anonymous) := by
    have hwritten : ∀ c : { c // c ∈ n.form.children }, c.1.toJson ≠ .null ∧
        child c.1.toJson = .ok c.1.anonymous := by
      refine fun c => ⟨?_, hchild c.1 c.2⟩
      rw [Node.toJson_eq]
      exact Json.noConfusion
    refine Members.finds_form hwritten ?_ ?_
    · intro d hd
      refine hfinite n n.mem_preorder_self d (Form.map_eq_float_iff (f := fun c => c).mp ?_)
      rw [← Form.attach_map, hd]
      rfl
    · rw [Form.attach_map]
      exact Members.holds_of_values_eq fun key hspan hkind =>
        (hfields key hspan).trans (n.values_fields hkind)
  rw [Form.attach_map, Form.kind_attach] at hform
  have hname : (Members.required "kind" kind).Finds fields n.kind :=
    Members.finds_member ((hfields "kind" (by decide)).trans n.values_kind_fields) (kind_name _)
  rw [construct, hname.decode]
  exact hform.decode

/-- A tree is decoded from its JSON form, which is allowed to nest as deep as it does. -/
theorem Decoder.node_toJson {n : Node} (hfinite : n.FiniteFloats) {depth : Nat}
    (hdepth : n.toJson.depth ≤ depth) : Decoder.node depth n.toJson = .ok n.anonymous := by
  induction n using Node.induction generalizing depth with
  | step n ih =>
    have hlt := n.depthFields_lt.trans_le hdepth
    obtain ⟨depth, rfl⟩ := Nat.exists_eq_add_one_of_ne_zero (Nat.ne_zero_of_lt hlt)
    have hchild : ∀ c ∈ n.children, Decoder.node depth c.toJson = .ok c.anonymous := fun c hc =>
      ih c hc (hfinite.of_mem_children hc)
        ((Node.depth_toJson_le hc).trans (Nat.le_of_lt_succ hlt))
    have hspan : (Members.defaulted "span" span .none).Finds (("span", n.span.toJson) :: n.fields)
        n.span := by
      refine Members.finds_member ?_ (Decoder.span_toJson _)
      rw [Members.values_cons, if_pos rfl, n.values_span_fields]
    have hform : Decoder.construct (Decoder.node depth) (("span", n.span.toJson) :: n.fields) =
        .ok (n.form.map anonymous) := by
      refine Decoder.construct_fields hchild hfinite fun key hkey => ?_
      rw [Members.values_cons, if_neg hkey.symm]
    rw [n.toJson_eq, Decoder.node, hspan.decode, n.anonymous_eq, hform]
    rfl

namespace DocumentReader

/-- The position is read at once. -/
theorem rootMember_span (s : Span) :
    (rootMember ⟨none, []⟩ "span").ReadsBehindColon s.toJson ⟨some s, []⟩ := by
  intro ts
  rw [rootMember, if_pos rfl]
  exact bind_of_ok (once_reads (span_reads s) ts)

/-- A member that is not the position is kept as it is. -/
theorem rootMember_value (parts : RootParts) {key : String} {v : Json} (hkey : key ≠ "span")
    (hdepth : v.depth < documentDepth) :
    (rootMember parts key).ReadsBehindColon v
      { parts with fields := (key, v) :: parts.fields } := by
  have hvalue : (value (documentDepth - 1)).Reads v v := value_reads (by omega)
  intro ts
  rw [rootMember, if_neg hkey]
  exact bind_of_ok (behindColon_reads hvalue ts)

theorem takes_rootMember (position : Option Span) {fields : List (String × Json)}
    (hkeys : ∀ f ∈ fields, f.1 ≠ "span") (hdepth : Json.depthFields fields < documentDepth)
    (before : List (String × Json)) :
    Takes rootMember ⟨position, before⟩ fields ⟨position, fields.reverse ++ before⟩ := by
  induction fields generalizing before with
  | nil => exact .nil _
  | cons f fields ih =>
    obtain ⟨key, v⟩ := f
    rw [Json.depthFields] at hdepth
    have hrest := ih (fun g hg => hkeys g (List.mem_cons_of_mem _ hg)) (by omega)
      ((key, v) :: before)
    rw [List.reverse_cons, List.append_assoc, List.singleton_append]
    exact .cons (rootMember_value _ (hkeys _ List.mem_cons_self) (by omega)) hrest

/-- The outermost node is read off the tokens of its JSON form. -/
theorem root_reads {n : Node} (hfinite : n.FiniteFloats) (hdepth : n.toJson.depth ≤ documentDepth) :
    root.Reads n.toJson n.anonymous := by
  intro ts
  have hmembers : Takes rootMember ⟨none, []⟩ (("span", n.span.toJson) :: n.fields)
      ⟨some n.span, n.fields.reverse⟩ := by
    have hrest := takes_rootMember (some n.span)
      (Members.values_eq_nil_iff.mp n.values_span_fields) (n.depthFields_lt.trans_le hdepth) []
    rw [List.append_nil] at hrest
    exact .cons (rootMember_span n.span) hrest
  have hform : Decoder.construct (Decoder.node (Json.depthFields n.fields)) n.fields =
      .ok (n.form.map anonymous) := by
    refine Decoder.construct_fields (fun c hc => ?_) hfinite fun _ _ => rfl
    exact Decoder.node_toJson (hfinite.of_mem_children hc) (Node.depth_toJson_le hc)
  rw [root, n.toJson_eq, container_object, bind_of_ok (members_reads hmembers ts)]
  simp only [List.reverse_reverse, hform, n.anonymous_eq]
  rfl

end DocumentReader

/-! ## Round trip -/

namespace Document

/-- The text of a tree, with a line end or without, is scanned as the tokens of its JSON form. -/
theorem scan_text {tree : Node} (hreads : tree.FloatsReadBack) {text : String}
    (htext : text = writeTree tree ∨ text ++ "\n" = writeTree tree) :
    Token.scan text.toList = tree.toJson.tokens := by
  have hwritable := tree.writable_toJson hreads
  rcases htext with rfl | htext
  · rw [writeTree, String.toList_append]
    exact hwritable.scan_pretty (Token.cut_cons (by decide) _) rfl
  · rw [writeTree, String.append_left_inj] at htext
    have hscan := hwritable.scan_pretty Token.cut_nil rfl
    rwa [List.append_nil, ← htext] at hscan

/-- The text of a tree, with a line end or without, is read as the tree with new numbers. -/
theorem readTree_text {tree : Node} (hfinite : tree.FiniteFloats) (hreads : tree.FloatsReadBack)
    (hdepth : tree.toJson.depth ≤ documentDepth) {text : String}
    (htext : text = writeTree tree ∨ text ++ "\n" = writeTree tree) (next : Nat) :
    readTree next text = .ok (Node.number next tree.anonymous) := by
  have hroot := DocumentReader.root_reads hfinite hdepth
  rw [readTree, DocumentReader.run_of_reads hroot (scan_text hreads htext)]
  rfl

end Document

/-- What is rendered as a document, with its line end or without it, is read as the same tree: only
the identities differ. -/
theorem Batch.readTree_render {batch : Batch} (hformat : batch.format = .json) {tree : Node}
    (hfinite : tree.FiniteFloats) (hreads : tree.FloatsReadBack) (hdepth : tree.toJson.depth ≤ 127)
    {text : String} (htext : text = batch.render tree ∨ text ++ "\n" = batch.render tree)
    (next : Nat) :
    ∃ again after, Document.readTree next text = .ok (again, after) ∧
      again.anonymous = tree.anonymous := by
  rw [render, hformat] at htext
  refine ⟨_, _, Document.readTree_text hfinite hreads hdepth htext next, ?_⟩
  rw [Node.anonymous_number, Node.anonymous_anonymous]

/-- The text of a positive number is laid out from its shortest digits. -/
theorem Layout.text_of_shortest {layout : Layout} {d : Double} {digits : Nat} {power : Int}
    (hnegative : d.isNegative = false) (hzero : d.isZero = false)
    (hshortest : d.shortest layout.tie = (digits, power)) :
    layout.text d = layout.magnitudeText digits power := by
  rw [text, hnegative, hzero, hshortest]
  exact String.empty_append

/-- One and a half. -/
def oneAndAHalf : Double := ⟨0x3FF8000000000000⟩

theorem shortest_oneAndAHalf : oneAndAHalf.shortest .even = (15, -1) := by
  -- The power of ten is found first: all the digits are found by way of it.
  have hlength : (Nat.repr (4 * oneAndAHalf.significand * Nat.pow 2 oneAndAHalf.scale *
      Nat.pow 10 400 / Nat.pow 2 1076)).length = 401 := by
    rw [Nat.repr, String.length_ofList]
    decide +kernel
  rw [Double.shortest, hlength]
  decide +kernel

theorem readsBack_oneAndAHalf : oneAndAHalf.ReadsBack := by
  have hfinite : oneAndAHalf.isFinite := by decide
  have hdigits : Json.floatLayout.text oneAndAHalf = Json.floatLayout.magnitudeText 15 (-1) :=
    Layout.text_of_shortest (by decide) (by decide) shortest_oneAndAHalf
  have htext : (Json.pretty (.float oneAndAHalf)).toList = ['1', '.', '5'] := by
    simp only [Json.pretty, Json.prettyAt, Json.scalarText, hfinite, if_true, hdigits]
    decide
  have hnumeral : Token.readNumeral false ['1', '.', '5'] = .ok (⟨false, [1], [5], none⟩, []) := rfl
  have hvalue : (Decimal.mk false [1] [5] 0).scaled? = some oneAndAHalf := by decide +kernel
  have htoken : Token.startingWith '1' ['.', '5'] = (.scalar (.float oneAndAHalf), []) := by
    rw [Token.startingWith_of_isDigit (by decide), Token.numberToken, hnumeral]
    simp [Token.Numeral.value, hvalue]
  rw [Double.ReadsBack, Json.read, htext, Token.scan_of_not_blank rfl, htoken, Token.scan_nil]
  rfl

/-- The statement that returns this number. -/
def returnOneAndAHalf : Node :=
  ⟨7, ⟨1, 11, 3⟩, .returnStmt (some ⟨7, .none, .float oneAndAHalf⟩)⟩

theorem readTree_render_returnOneAndAHalf :
    let batch : Batch := ⟨.standard, .json, none, false, fun _ => .inOrder⟩
    ∃ again after,
      Document.readTree 1 (batch.render returnOneAndAHalf) = .ok (again, after) ∧
        again.anonymous = returnOneAndAHalf.anonymous := by
  have hpreorder : returnOneAndAHalf.preorder =
      [returnOneAndAHalf, ⟨7, .none, .float oneAndAHalf⟩] := by
    simp [returnOneAndAHalf, Node.preorder_eq, Node.children, Form.children, Form.segments,
      Segment.toList]
  have hfloat : ∀ n ∈ returnOneAndAHalf.preorder, ∀ d, n.form = .float d → d = oneAndAHalf := by
    rw [hpreorder]
    simp [returnOneAndAHalf]
  have hfinite : oneAndAHalf.isFinite := by decide
  have hdepth : returnOneAndAHalf.toJson.depth ≤ 127 := by
    simp [returnOneAndAHalf, Node.toJson_eq, Node.fields, Form.map, Form.toFields, Json.depth,
      Json.depthFields, Span.toJson, Json.ofOption, hfinite]
  refine Batch.readTree_render rfl ?_ ?_ hdepth (.inl rfl) 1
  · intro n hn d hd
    rw [hfloat n hn d hd]
    exact hfinite
  · intro n hn d hd _
    rw [hfloat n hn d hd]
    exact readsBack_oneAndAHalf

end PhpRefactor
