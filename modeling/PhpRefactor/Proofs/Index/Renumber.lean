import PhpRefactor.Proofs.Index.Edit
import PhpRefactor.Proofs.Syntax.Renumber

/-!
# Edits do not see numbers

An edit names its node by identity and finds it through the index.  In trees that are bare the same
an edit of nodes in the same place comes to trees that are bare the same again, or both places
refuse it, for the same reason (`Edit.agree_apply`).

Nodes are in the same place when their identities stand in the same place of the listing
(`Node.place`).  Seen from there the two trees are one, and a graft is told where to go by the place
alone (`Node.map_bare_graft`).
-/

set_option autoImplicit false

namespace PhpRefactor

/-- Two computations both succeed, with results that are related, or both fail, with errors that
are. -/
inductive Agree {ε δ α β : Type} (E : ε → δ → Prop) (R : α → β → Prop) :
    Except ε α → Except δ β → Prop where
  | ok {x : α} {y : β} (h : R x y) : Agree E R (.ok x) (.ok y)
  | error {e : ε} {d : δ} (h : E e d) : Agree E R (.error e) (.error d)

theorem Agree.exists_eq {ε δ α β : Type} {E : ε → δ → Prop} {R : α → β → Prop} {x : Except ε α}
    {y : Except δ β} (h : Agree E R x y) :
    (∃ a b, x = .ok a ∧ y = .ok b ∧ R a b) ∨ ∃ e d, x = .error e ∧ y = .error d ∧ E e d := by
  cases h with
  | ok h => exact .inl ⟨_, _, rfl, rfl, h⟩
  | error h => exact .inr ⟨_, _, rfl, rfl, h⟩

theorem any_congr_left {α : Type} {p q : α → Bool} {l : List α} (h : ∀ a ∈ l, p a = q a) :
    l.any p = l.any q := by
  induction l with
  | nil => rfl
  | cons a l ih =>
    rw [List.any_cons, List.any_cons, h a List.mem_cons_self,
      ih fun b hb => h b (List.mem_cons_of_mem _ hb)]

namespace TreeError

/-- The error without identities. -/
def bare : TreeError → TreeError := mapIds fun _ => 0

end TreeError

namespace Edit

/-- The edit with the nodes that it brings in changed. -/
def map (f : Node → Node) : Edit → Edit
  | keep => keep
  | replace x => replace (f x)
  | splice xs => splice (xs.map f)
  | remove => remove

/-- The edit without identities and positions. -/
def bare : Edit → Edit := map Node.bare

theorem eq_keep_of_bare_eq {edit edit' : Edit} (h : edit.bare = edit'.bare) :
    edit = .keep ↔ edit' = .keep := by
  cases edit <;> cases edit' <;> simp [bare, map] at h ⊢

end Edit

namespace Node

/-! ## Grafts -/

/-- What a graft leaves, without numbers, can be told from a renumbered tree in which the place
still has a number of its own. -/
theorem map_bare_graft {f : Nat → Nat} {i : Nat} (xs : List Node) {n : Node}
    (hf : ∀ j ∈ n.ids, f j = f i → j = i) :
    (n.graft i xs).map bare = ((n.renumber f).graft (f i) (xs.map bare)).map bare := by
  induction n using Node.induction with
  | step n ih =>
    by_cases hid : n.id = i
    · rw [graft_of_id_eq hid, graft_of_id_eq (by rw [id_renumber, hid]), List.map_map]
      exact List.map_congr_left fun x _ => (bare_renumber _ x).symm
    · have hne : (n.renumber f).id ≠ f i := fun h => hid (hf n.id n.id_mem_ids (by simpa using h))
      have hform : ((n.form.map (graft i xs)).join).map bare =
          (((n.renumber f).form.map (graft (f i) (xs.map bare))).join).map bare := by
        rw [Form.map_join_of_default bare_default, Form.map_join_of_default bare_default,
          form_renumber, Form.map_map, Form.map_map, Form.map_map]
        refine congrArg Form.join (Form.map_congr fun c hc => ?_)
        exact ih c hc fun j hj => hf j (ids_subset_of_mem_children hc hj)
      rw [graft_of_id_ne hid, graft_of_id_ne hne, List.map_singleton, List.map_singleton, bare_eq,
        bare_eq (grafted _ _ _), form_grafted, form_grafted, hform]

/-- A child stands in a run of the same sort where it gets another identity that tells it apart. -/
theorem holdsIn_map {f : Nat → Nat} {g : Node → Node} {i : Nat} {m : Node}
    {sort : Segment Node → Bool} (hform : (g m).form = m.form.map g)
    (hid : ∀ c : Node, (g c).id = f c.id)
    (hsort : ∀ s : Segment Node, sort (s.map g) = sort s)
    (hf : ∀ c ∈ m.children, f c.id = f i → c.id = i) :
    (g m).holdsIn sort (f i) = m.holdsIn sort i := by
  unfold holdsIn
  rw [hform, Form.segments_map, List.any_map]
  refine any_congr_left fun s hs => ?_
  have hholds : (s.map g).holds (f i) = s.holds i := by
    unfold Segment.holds
    rw [Segment.toList_map, List.any_map]
    refine any_congr_left fun c hc => ?_
    rw [Function.comp_apply, hid, decide_eq_decide]
    exact ⟨hf c (List.mem_flatMap_of_mem hs hc), fun h => by rw [h]⟩
  rw [Function.comp_apply, hsort, hholds]

end Node

/-! ## Edits in the same place -/

/-- Two nodes stand in the same place of trees that are bare the same. -/
structure Node.SamePlace (a b : Node) (around above : List Node) (n m : Node) : Prop where
  left : a.ids.Nodup
  right : b.ids.Nodup
  bare_eq : a.bare = b.bare
  occurs_left : a.Occurs around n
  occurs_right : b.Occurs above m
  place_eq : a.place n.id = b.place m.id

namespace Node.SamePlace

variable {a b n m p q : Node} {around above : List Node}

theorem around_eq (h : SamePlace a b around above n m) :
    around.map (renumber a.place) = above.map (renumber b.place) :=
  (h.occurs_left.renumber_place_eq h.left h.right h.bare_eq h.occurs_right h.place_eq).1

theorem node_eq (h : SamePlace a b around above n m) :
    n.renumber a.place = m.renumber b.place :=
  (h.occurs_left.renumber_place_eq h.left h.right h.bare_eq h.occurs_right h.place_eq).2

/-- Grafts in the same place come to the same. -/
theorem bare_grafted (h : SamePlace a b (p :: around) (q :: above) n m) {xs ys : List Node}
    (hxs : xs.map bare = ys.map bare) : (a.grafted n.id xs).bare = (b.grafted m.id ys).bare := by
  have hroot : ∀ {root x y : Node} {rest : List Node}, root.ids.Nodup →
      Occurs root (x :: rest) y → root.id ≠ y.id := fun hnodup hy heq =>
    List.cons_ne_nil _ _ (Occurs.root.unique hnodup hy heq).1.symm
  have hleft := map_bare_graft (f := a.place) (i := n.id) (n := a) xs
    fun _ hj hplace => place_inj hj hplace
  have hright := map_bare_graft (f := b.place) (i := m.id) (n := b) ys
    fun _ hj hplace => place_inj hj hplace
  rw [graft_of_id_ne (hroot h.left h.occurs_left), renumber_place_eq h.left h.right h.bare_eq,
    h.place_eq, hxs, ← hright, graft_of_id_ne (hroot h.right h.occurs_right)] at hleft
  exact List.singleton_inj.mp hleft

theorem kind_parent_eq (h : SamePlace a b (p :: around) (q :: above) n m) : p.kind = q.kind := by
  have heq := (List.cons.inj h.around_eq).1
  rw [← kind_renumber (n := p) (f := a.place), heq, kind_renumber]

/-- Children in the same place stand in runs of the same sort. -/
theorem holdsIn_eq (h : SamePlace a b (p :: around) (q :: above) n m)
    (sort : Segment Node → Bool)
    (hsort : ∀ (f : Nat → Nat) (s : Segment Node), sort (s.map (renumber f)) = sort s) :
    p.holdsIn sort n.id = q.holdsIn sort m.id := by
  have heq := (List.cons.inj h.around_eq).1
  have hleft : (p.renumber a.place).holdsIn sort (a.place n.id) = p.holdsIn sort n.id :=
    holdsIn_map (form_renumber p) id_renumber (hsort _) fun c hc hplace =>
      place_inj (h.occurs_left.parent.1.child hc).id_mem hplace
  have hright : (q.renumber b.place).holdsIn sort (b.place m.id) = q.holdsIn sort m.id :=
    holdsIn_map (form_renumber q) id_renumber (hsort _) fun c hc hplace =>
      place_inj (h.occurs_right.parent.1.child hc).id_mem hplace
  rw [← hleft, ← hright, heq, h.place_eq]

end Node.SamePlace

namespace Edit

variable {a b n m : Node} {around above : List Node}

/-- At the root only another node is let in. -/
theorem agree_apply_root (ha : a.ids.Nodup) (hb : b.ids.Nodup) (h : a.bare = b.bare)
    {edit edit' : Edit} (hedit : edit.bare = edit'.bare) :
    Agree (fun e d => TreeError.bare e = TreeError.bare d) (fun t u => Node.bare t = Node.bare u)
      (edit.apply (.of a) a a.id) (edit'.apply (.of b) b b.id) := by
  cases edit <;> cases edit' <;> simp only [bare, map, reduceCtorEq] at hedit
  case keep => exact .ok h
  case replace x y =>
    rw [apply, apply, TreeIndex.replace_root, TreeIndex.replace_root]
    exact .ok (Edit.replace.inj hedit)
  case splice xs ys =>
    rw [apply, apply, TreeIndex.splice, TreeIndex.splice, TreeIndex.editParent_root a ha,
      TreeIndex.editParent_root b hb]
    exact .error rfl
  case remove =>
    rw [apply, apply, TreeIndex.remove, TreeIndex.remove, TreeIndex.editParent_root a ha,
      TreeIndex.editParent_root b hb]
    exact .error rfl

/-- Below the root the parents see to what is let in. -/
theorem agree_apply_child {p q : Node} (h : Node.SamePlace a b (p :: around) (q :: above) n m)
    {edit edit' : Edit} (hedit : edit.bare = edit'.bare) :
    Agree (fun e d => TreeError.bare e = TreeError.bare d) (fun t u => Node.bare t = Node.bare u)
      (edit.apply (.of a) a n.id) (edit'.apply (.of b) b m.id) := by
  cases edit <;> cases edit' <;> simp only [bare, map, reduceCtorEq] at hedit
  case keep => exact .ok h.bare_eq
  case replace x y =>
    rw [apply, apply, TreeIndex.replace_of_occurs h.left h.occurs_left,
      TreeIndex.replace_of_occurs h.right h.occurs_right]
    exact .ok (h.bare_grafted (by simpa using hedit))
  case splice xs ys =>
    have hholds := h.holdsIn_eq Segment.isStatements fun f s => by cases s <;> rfl
    rw [apply, apply, TreeIndex.splice_of_occurs h.left h.occurs_left,
      TreeIndex.splice_of_occurs h.right h.occurs_right, hholds]
    split
    · exact .ok (h.bare_grafted (Edit.splice.inj hedit))
    · exact .error (by rw [h.kind_parent_eq]; rfl)
  case remove =>
    have hlist := h.holdsIn_eq Segment.isList fun f s => by cases s <;> rfl
    have hslot := h.holdsIn_eq Segment.isSlot fun f s => by cases s <;> rfl
    rw [apply, apply, TreeIndex.remove_of_occurs h.left h.occurs_left,
      TreeIndex.remove_of_occurs h.right h.occurs_right, hlist, hslot]
    split
    · exact .ok (h.bare_grafted rfl)
    · exact .error (by rw [h.kind_parent_eq]; rfl)

/-- Edits that are bare the same, in the same place of trees that are bare the same, come to the
same, and are refused for the same reason. -/
theorem agree_apply (h : Node.SamePlace a b around above n m) {edit edit' : Edit}
    (hedit : edit.bare = edit'.bare) :
    Agree (fun e d => TreeError.bare e = TreeError.bare d) (fun t u => Node.bare t = Node.bare u)
      (edit.apply (.of a) a n.id) (edit'.apply (.of b) b m.id) := by
  have hlength := congrArg List.length h.around_eq
  rw [List.length_map, List.length_map] at hlength
  match around, above, hlength with
  | [], [], _ =>
    obtain ⟨ha, hb, hbare, hn, hm, -⟩ := h
    cases hn
    cases hm
    exact agree_apply_root ha hb hbare hedit
  | p :: around, q :: above, _ => exact agree_apply_child h hedit

end Edit

end PhpRefactor
