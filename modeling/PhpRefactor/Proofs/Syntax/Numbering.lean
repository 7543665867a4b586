import PhpRefactor.Proofs.Syntax.Renumber

/-!
# Numbering a tree

To number a tree is to put new children into each construct (`Form.refill`), as many as it has.  Any
such list of children is the image of a labelled construct (`Form.exists_zip`): one whose children
are pairs of an old child and the new one in its place.  What `Form.map` does on pairs then says
what the refilled construct is.

Numbering changes nothing but the identities, which come out as one run of numbers in pre-order.
-/

set_option autoImplicit false

namespace PhpRefactor

/-! ## Constructs above their runs -/

namespace Segment

variable {α β : Type} {f : α → β}

theorem map_eq_required_iff {s : Segment α} {c : β} :
    s.map f = .required c ↔ ∃ a, s = .required a ∧ f a = c := by
  cases s <;> simp [map]

theorem map_eq_slot_iff {s : Segment α} {c : Option β} :
    s.map f = .slot c ↔ ∃ a, s = .slot a ∧ a.map f = c := by
  cases s <;> simp [map]

theorem map_eq_stmts_iff {s : Segment α} {cs : List β} :
    s.map f = .stmts cs ↔ ∃ as, s = .stmts as ∧ as.map f = cs := by
  cases s <;> simp [map]

theorem map_eq_items_iff {s : Segment α} {cs : List β} :
    s.map f = .items cs ↔ ∃ as, s = .items as ∧ as.map f = cs := by
  cases s <;> simp [map]

end Segment

theorem Param.exists_map {α β : Type} {f : α → β} {ps : List (Param β)}
    {segments : List (Segment α)} (h : segments.map (Segment.map f) = ps.map Param.segment) :
    ∃ qs : List (Param α), qs.map (Param.map f) = ps ∧ qs.map Param.segment = segments := by
  induction ps generalizing segments with
  | nil => exact ⟨[], rfl, (List.map_eq_nil_iff.mp h).symm⟩
  | cons p ps ih =>
    obtain ⟨s, segments, rfl, hs, hrest⟩ := List.map_eq_cons_iff.mp h
    obtain ⟨qs, rfl, rfl⟩ := ih hrest
    obtain ⟨initial, rfl, hinitial⟩ := Segment.map_eq_slot_iff.mp hs
    exact ⟨⟨p.name, p.hint, initial⟩ :: qs, by simp [map, hinitial], rfl⟩

namespace Form

variable {α β : Type} {f : α → β}

/-- Runs above those of a construct are the runs of a construct above it. -/
theorem exists_map {form : Form β} {segments : List (Segment α)}
    (h : segments.map (Segment.map f) = form.segments) :
    ∃ above : Form α, above.map f = form ∧ above.segments = segments := by
  cases form
  -- A `finally` block that is there adds a run, and parameters have a run each.
  case tryBlock _ _ final =>
    cases final <;>
      simp only [Form.segments, List.map_eq_cons_iff, List.map_eq_nil_iff,
        Segment.map_eq_stmts_iff, Segment.map_eq_items_iff, ↓existsAndEq, true_and, and_true] at h
    · obtain ⟨cs, ss, rfl, rfl, rfl⟩ := h
      exact ⟨.tryBlock ss cs none, rfl, rfl⟩
    · obtain ⟨fs, cs, ss, rfl, rfl, rfl, rfl⟩ := h
      exact ⟨.tryBlock ss cs (some fs), rfl, rfl⟩
  all_goals
    simp only [Form.segments, List.map_eq_cons_iff, List.map_eq_append_iff, List.map_eq_nil_iff,
      Segment.map_eq_required_iff, Segment.map_eq_slot_iff, Segment.map_eq_stmts_iff,
      Segment.map_eq_items_iff, exists_eq_right_right, ↓existsAndEq, true_and] at h
  case method x v isStatic ps _ =>
    obtain ⟨_, ss, rfl, hps, rfl⟩ := h
    obtain ⟨qs, rfl, rfl⟩ := Param.exists_map hps
    exact ⟨.method x v isStatic qs ss, rfl, rfl⟩
  case function x ps _ =>
    obtain ⟨_, ss, rfl, hps, rfl⟩ := h
    obtain ⟨qs, rfl, rfl⟩ := Param.exists_map hps
    exact ⟨.function x qs ss, rfl, rfl⟩
  case closure ps _ _ =>
    obtain ⟨_, ss, us, rfl, hps, rfl, rfl⟩ := h
    obtain ⟨qs, rfl, rfl⟩ := Param.exists_map hps
    exact ⟨.closure qs us ss, rfl, rfl⟩
  case file =>
    obtain ⟨ss, rfl, rfl⟩ := h
    exact ⟨.file ss, rfl, rfl⟩
  case elseBranch =>
    obtain ⟨ss, rfl, rfl⟩ := h
    exact ⟨.elseBranch ss, rfl, rfl⟩
  case classDecl x parent _ =>
    obtain ⟨ms, rfl, rfl⟩ := h
    exact ⟨.classDecl x parent ms, rfl, rfl⟩
  case property v isStatic x _ =>
    obtain ⟨initial, rfl, rfl⟩ := h
    exact ⟨.property v isStatic x initial, rfl, rfl⟩
  case returnStmt =>
    obtain ⟨e, rfl, rfl⟩ := h
    exact ⟨.returnStmt e, rfl, rfl⟩
  case ifStmt =>
    obtain ⟨e, es, ss, c, rfl, rfl, rfl, rfl, rfl⟩ := h
    exact ⟨.ifStmt c ss es e, rfl, rfl⟩
  case elseIf =>
    obtain ⟨ss, c, rfl, rfl, rfl⟩ := h
    exact ⟨.elseIf c ss, rfl, rfl⟩
  case whileLoop =>
    obtain ⟨ss, c, rfl, rfl, rfl⟩ := h
    exact ⟨.whileLoop c ss, rfl, rfl⟩
  case catchClause ts _ _ =>
    obtain ⟨ss, v, rfl, rfl, rfl⟩ := h
    exact ⟨.catchClause ts v ss, rfl, rfl⟩
  case exprStmt =>
    obtain ⟨e, rfl, rfl⟩ := h
    exact ⟨.exprStmt e, rfl, rfl⟩
  case negation =>
    obtain ⟨e, rfl, rfl⟩ := h
    exact ⟨.negation e, rfl, rfl⟩
  case echo =>
    obtain ⟨es, rfl, rfl⟩ := h
    exact ⟨.echo es, rfl, rfl⟩
  case array =>
    obtain ⟨es, rfl, rfl⟩ := h
    exact ⟨.array es, rfl, rfl⟩
  case fetch _ x =>
    obtain ⟨o, rfl, rfl⟩ := h
    exact ⟨.fetch o x, rfl, rfl⟩
  case closureUse _ byRef =>
    obtain ⟨v, rfl, rfl⟩ := h
    exact ⟨.closureUse v byRef, rfl, rfl⟩
  case assign =>
    obtain ⟨v, t, rfl, rfl, rfl⟩ := h
    exact ⟨.assign t v, rfl, rfl⟩
  case binary op _ _ =>
    obtain ⟨r, l, rfl, rfl, rfl⟩ := h
    exact ⟨.binary op l r, rfl, rfl⟩
  case newObject x _ =>
    obtain ⟨as, rfl, rfl⟩ := h
    exact ⟨.newObject x as, rfl, rfl⟩
  case funcCall x _ =>
    obtain ⟨as, rfl, rfl⟩ := h
    exact ⟨.funcCall x as, rfl, rfl⟩
  case methodCall _ x _ =>
    obtain ⟨as, o, rfl, rfl, rfl⟩ := h
    exact ⟨.methodCall o x as, rfl, rfl⟩
  case var x => exact ⟨.var x, rfl, h.symm⟩
  case string x => exact ⟨.string x, rfl, h.symm⟩
  case int i => exact ⟨.int i, rfl, h.symm⟩
  case float d => exact ⟨.float d, rfl, h.symm⟩
  case bool b => exact ⟨.bool b, rfl, h.symm⟩
  case null => exact ⟨.null, rfl, h.symm⟩

end Form

/-! ## Refilled constructs -/

/-- As many others as a run has children can be set beside them. -/
theorem Segment.exists_zip {α β : Type} {s : Segment α} {cs : List β}
    (h : cs.length = s.toList.length) :
    ∃ zipped : Segment (α × β), zipped.map Prod.fst = s ∧ zipped.toList.map Prod.snd = cs := by
  have hzip : ∀ as : List α, cs.length = as.length →
      (as.zip cs).map Prod.fst = as ∧ (as.zip cs).map Prod.snd = cs := fun as hlength =>
    ⟨List.map_fst_zip (by omega), List.map_snd_zip (by omega)⟩
  cases s with
  | required c =>
    obtain ⟨x, rfl⟩ := List.length_eq_one_iff.mp h
    exact ⟨.required (c, x), rfl, rfl⟩
  | slot c =>
    cases c with
    | none =>
      rw [List.length_eq_zero_iff.mp h]
      exact ⟨.slot none, rfl, rfl⟩
    | some c =>
      obtain ⟨x, rfl⟩ := List.length_eq_one_iff.mp h
      exact ⟨.slot (some (c, x)), rfl, rfl⟩
  | stmts as =>
    obtain ⟨hfst, hsnd⟩ := hzip as h
    exact ⟨.stmts (as.zip cs), congrArg Segment.stmts hfst, hsnd⟩
  | items as =>
    obtain ⟨hfst, hsnd⟩ := hzip as h
    exact ⟨.items (as.zip cs), congrArg Segment.items hfst, hsnd⟩

namespace Form

theorem exists_zip_segments {α β : Type} {segments : List (Segment α)} {cs : List β}
    (h : cs.length = (segments.flatMap Segment.toList).length) :
    ∃ zipped : List (Segment (α × β)), zipped.map (Segment.map Prod.fst) = segments ∧
      (zipped.flatMap Segment.toList).map Prod.snd = cs := by
  induction segments generalizing cs with
  | nil =>
    rw [List.length_eq_zero_iff.mp h]
    exact ⟨[], rfl, rfl⟩
  | cons s segments ih =>
    rw [List.flatMap_cons, List.length_append] at h
    have htake : (cs.take s.toList.length).length = s.toList.length := by
      rw [List.length_take]
      omega
    obtain ⟨first, rfl, hfirst⟩ := Segment.exists_zip htake
    have hdrop : (cs.drop (first.map Prod.fst).toList.length).length =
        (segments.flatMap Segment.toList).length := by
      rw [List.length_drop]
      omega
    obtain ⟨zipped, rfl, hrest⟩ := ih hdrop
    refine ⟨first :: zipped, rfl, ?_⟩
    rw [List.flatMap_cons, List.map_append, hfirst, hrest, List.take_append_drop]

/-- As many others as a construct has children can be set beside them. -/
theorem exists_zip {α β : Type} {form : Form α} {cs : List β}
    (h : cs.length = form.children.length) :
    ∃ zipped : Form (α × β), zipped.map Prod.fst = form ∧ zipped.children.map Prod.snd = cs := by
  obtain ⟨segments, hfst, hsnd⟩ := exists_zip_segments h
  obtain ⟨zipped, hzipped, rfl⟩ := exists_map hfst
  exact ⟨zipped, hzipped, hsnd⟩

variable {α β : Type} {form : Form α} {cs : List α}

theorem children_refill (h : cs.length = form.children.length) :
    (form.refill cs).children = cs := by
  obtain ⟨zipped, rfl, rfl⟩ := exists_zip h
  rw [refill_map, children_map]

/-- New children that are mapped like the old ones make no difference to the map. -/
theorem map_refill {f g : α → β} (h : cs.map f = form.children.map g) :
    (form.refill cs).map f = form.map g := by
  have hlength : cs.length = form.children.length := by
    simpa using congrArg List.length h
  obtain ⟨zipped, rfl, rfl⟩ := exists_zip hlength
  rw [refill_map, map_map, map_map]
  refine map_congr ?_
  rw [children_map, List.map_map, List.map_map] at h
  exact List.map_inj_left.mp h

end Form

/-! ## Numbers -/

namespace Node

theorem mapIds_eq (f : Nat → Nat) (n : Node) :
    n.mapIds f = ⟨f n.id, n.span, n.form.map (mapIds f)⟩ := by
  rw [mapIds, fold_eq]
  rfl

section

variable {f : Nat → Nat}

@[simp] theorem id_mapIds (n : Node) : (n.mapIds f).id = f n.id := by
  rw [mapIds_eq]

@[simp] theorem span_mapIds (n : Node) : (n.mapIds f).span = n.span := by
  rw [mapIds_eq]

@[simp] theorem form_mapIds (n : Node) : (n.mapIds f).form = n.form.map (mapIds f) := by
  rw [mapIds_eq]

@[simp] theorem kind_mapIds (n : Node) : (n.mapIds f).kind = n.kind := by
  rw [kind, form_mapIds, Form.kind_map, kind]

@[simp] theorem children_mapIds (n : Node) :
    (n.mapIds f).children = n.children.map (mapIds f) := by
  rw [children, form_mapIds, Form.children_map]
  rfl

end

theorem preorder_mapIds (f : Nat → Nat) (n : Node) :
    (n.mapIds f).preorder = n.preorder.map (mapIds f) :=
  preorder_map children_mapIds n

theorem ids_mapIds (f : Nat → Nat) (n : Node) : (n.mapIds f).ids = n.ids.map f := by
  rw [ids, preorder_mapIds, List.map_map, ids, List.map_map]
  exact List.map_congr_left fun p _ => id_mapIds p

/-- Trees that differ in identities only are bare the same. -/
theorem bare_mapIds (f : Nat → Nat) (n : Node) : (n.mapIds f).bare = n.bare := by
  induction n using Node.induction with
  | step n ih =>
    rw [bare_eq, form_mapIds, Form.map_map, bare_eq n]
    exact congrArg (Node.mk _ _) (Form.map_congr ih)

/-- What is left of a tree when all identities are the same. -/
def anonymous : Node → Node := mapIds fun _ => 0

theorem anonymous_eq (n : Node) : n.anonymous = ⟨0, n.span, n.form.map anonymous⟩ := mapIds_eq _ n

theorem anonymous_mapIds (f : Nat → Nat) (n : Node) : (n.mapIds f).anonymous = n.anonymous := by
  induction n using Node.induction with
  | step n ih =>
    have hchildren : n.form.map (anonymous ∘ mapIds f) = n.form.map anonymous := Form.map_congr ih
    rw [anonymous_eq n, anonymous_eq, form_mapIds, Form.map_map, hchildren, span_mapIds]

theorem anonymous_anonymous (n : Node) : n.anonymous.anonymous = n.anonymous := anonymous_mapIds _ n

theorem bare_anonymous (n : Node) : n.anonymous.bare = n.bare := bare_mapIds _ n

theorem number_eq (next : Nat) (n : Node) :
    number next n = (⟨next, n.span, n.form.refill (numberAll (next + 1) n.children).1⟩,
      (numberAll (next + 1) n.children).2) := by
  rw [number]

theorem numberAll_cons (next : Nat) (t : Node) (ts : List Node) :
    numberAll next (t :: ts) = ((number next t).1 :: (numberAll (number next t).2 ts).1,
      (numberAll (number next t).2 ts).2) := by
  rw [numberAll]

theorem map_anonymous_numberAll {ts : List Node}
    (h : ∀ t ∈ ts, ∀ next, (number next t).1.anonymous = t.anonymous) (next : Nat) :
    (numberAll next ts).1.map anonymous = ts.map anonymous := by
  induction ts generalizing next with
  | nil => rw [numberAll]
  | cons t ts ih =>
    rw [numberAll_cons, List.map_cons, List.map_cons, h t List.mem_cons_self,
      ih fun u hu => h u (List.mem_cons_of_mem _ hu)]

/-- Numbering changes identities only. -/
theorem anonymous_number (next : Nat) (n : Node) :
    (number next n).1.anonymous = n.anonymous := by
  induction n using Node.induction generalizing next with
  | step n ih =>
    rw [number_eq, anonymous_eq, anonymous_eq n,
      Form.map_refill (map_anonymous_numberAll ih (next + 1))]

theorem ids_numberAll {ts : List Node}
    (h : ∀ t ∈ ts, ∀ next, (number next t).1.ids = List.range' next t.size ∧
      (number next t).2 = next + t.size) (next : Nat) :
    (numberAll next ts).1.flatMap ids = List.range' next (ts.flatMap preorder).length ∧
      (numberAll next ts).2 = next + (ts.flatMap preorder).length := by
  induction ts generalizing next with
  | nil =>
    rw [numberAll]
    exact ⟨rfl, rfl⟩
  | cons t ts ih =>
    obtain ⟨hids, hnext⟩ := h t List.mem_cons_self next
    obtain ⟨hrest, hafter⟩ := ih (fun u hu => h u (List.mem_cons_of_mem _ hu)) (next + t.size)
    rw [numberAll_cons, List.flatMap_cons, hids, hnext, hrest, hafter, List.flatMap_cons,
      List.length_append, size]
    constructor
    · rw [List.range'_append_1]
    · omega

theorem length_numberAll (next : Nat) (ts : List Node) :
    (numberAll next ts).1.length = ts.length := by
  induction ts generalizing next with
  | nil => rw [numberAll]
  | cons t ts ih => rw [numberAll_cons, List.length_cons, List.length_cons, ih]

/-- The identities of a numbered tree are the numbers from the first one on, in pre-order. -/
theorem ids_number (next : Nat) (n : Node) :
    (number next n).1.ids = List.range' next n.size ∧ (number next n).2 = next + n.size := by
  induction n using Node.induction generalizing next with
  | step n ih =>
    obtain ⟨hids, hnext⟩ := ids_numberAll ih (next + 1)
    have hchildren : (number next n).1.children = (numberAll (next + 1) n.children).1 := by
      rw [number_eq]
      exact Form.children_refill (length_numberAll _ _)
    rw [ids_eq, hchildren, hids, number_eq, size_eq, hnext, Nat.add_comm 1, List.range'_succ]
    exact ⟨rfl, by omega⟩

end Node

end PhpRefactor
