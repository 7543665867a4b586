import PhpRefactor.Proofs.Syntax.Join
import PhpRefactor.Proofs.Syntax.Occurrence
import Mathlib.Data.List.Flatten

/-!
# Other nodes in place of one

`Node.graft i xs` puts the nodes `xs` where the node with the identity `i` stands: one node for an
exchange, a body for a statement that is unwrapped, no node for a removal.  It is defined on the
tree alone, by one walk from the bottom up; that the edits through an index do the same is proved in
`PhpRefactor.Proofs.Index.Edit`.

A node away from the place is `Node.grafted` afterwards: the same identity, position and construct,
with what became of its children.  A `GraftSite` is a place that can hold what is put in.  There the
identities of the tree change exactly where they should (`GraftSite.exists_ids_eq`), and every node
of the new tree is an old one, grafted, or stands in what was put in (`GraftSite.occurs_cases`).
-/

set_option autoImplicit false

namespace PhpRefactor

theorem findSome?_congr_left {α β : Type} {f g : α → Option β} {l : List α}
    (h : ∀ a ∈ l, f a = g a) : l.findSome? f = l.findSome? g := by
  induction l with
  | nil => rfl
  | cons a l ih =>
    rw [List.findSome?_cons, List.findSome?_cons, h a List.mem_cons_self,
      ih fun b hb => h b (List.mem_cons_of_mem _ hb)]

namespace Segment

/-- The place of the node with this identity can hold so many nodes instead. -/
def Admits (i count : Nat) : Segment Node → Prop
  | required c => c.id = i → count = 1
  | slot c => ∀ x ∈ c, x.id = i → count ≤ 1
  | stmts _ | items _ => True

end Segment

namespace Node

/-- Puts nodes in place of the node with this identity. -/
def graft (i : Nat) (xs : List Node) : Node → List Node :=
  fold fun id span form => if id = i then xs else [⟨id, span, form.join⟩]

/-- What a node with another identity becomes. -/
def grafted (i : Nat) (xs : List Node) (n : Node) : Node :=
  ⟨n.id, n.span, (n.form.map (graft i xs)).join⟩

section

variable {i : Nat} {xs : List Node} {n : Node}

theorem graft_of_id_eq (h : n.id = i) : n.graft i xs = xs := by
  rw [graft, fold_eq, if_pos h]

theorem graft_of_id_ne (h : n.id ≠ i) : n.graft i xs = [n.grafted i xs] := by
  rw [graft, fold_eq, if_neg h]
  rfl

@[simp] theorem id_grafted : (n.grafted i xs).id = n.id := rfl

@[simp] theorem kind_grafted : (n.grafted i xs).kind = n.kind := by
  simp [kind, grafted]

theorem form_grafted : (n.grafted i xs).form = (n.form.map (graft i xs)).join := rfl

/-- Where the identity is not met nothing changes. -/
theorem graft_of_notMem (h : i ∉ n.ids) : n.graft i xs = [n] := by
  induction n using Node.induction with
  | step n ih =>
    have hid : n.id ≠ i := fun heq => h (heq ▸ n.id_mem_ids)
    have hform : n.form.map (graft i xs) = n.form.map fun c => [c] :=
      Form.map_congr fun c hc => ih c hc fun hmem => h (ids_subset_of_mem_children hc hmem)
    rw [graft_of_id_ne hid, grafted, hform, Form.join_map_singleton, Form.map_id]
    cases n
    rfl

theorem grafted_of_notMem (h : i ∉ n.ids) : n.grafted i xs = n := by
  have hid : n.id ≠ i := fun heq => h (heq ▸ n.id_mem_ids)
  have hgraft : n.graft i xs = [n] := graft_of_notMem h
  rw [graft_of_id_ne hid] at hgraft
  exact List.singleton_inj.mp hgraft

/-- Only the child that holds the identity changes. -/
theorem exists_flatMap_graft_eq {c : Node} (xs : List Node) (h : n.ids.Nodup) (hc : c ∈ n.children)
    (hi : i ∈ c.ids) :
    ∃ ls rs, n.children = ls ++ c :: rs ∧
      n.children.flatMap (graft i xs) = ls ++ c.graft i xs ++ rs := by
  obtain ⟨ls, rs, hsplit, hother⟩ := exists_children_eq h hc
  have hsame : ∀ ds : List Node, (∀ d ∈ ds, d ∈ ls ++ rs) → ds.flatMap (graft i xs) = ds := by
    intro ds hds
    have hgraft : ds.flatMap (graft i xs) = ds.flatMap fun d => [d] :=
      List.flatMap_congr fun d hd => graft_of_notMem (hother d (hds d hd) i hi)
    rw [hgraft, List.flatMap_singleton']
  refine ⟨ls, rs, hsplit, ?_⟩
  rw [hsplit, List.flatMap_append, List.flatMap_cons,
    hsame ls fun _ hd => List.mem_append_left _ hd, hsame rs fun _ hd => List.mem_append_right _ hd,
    List.append_assoc]

/-- A place that can hold what is put in is filled with all of it. -/
theorem toList_join_graft {s : Segment Node} (h : s.Admits i xs.length) :
    (s.map (graft i xs)).Joinable ∧
      (s.map (graft i xs)).join.toList = s.toList.flatMap (graft i xs) := by
  have hjoin : (s.map (graft i xs)).Joinable := by
    cases s with
    | required c =>
      by_cases hc : c.id = i
      · simpa [Segment.map, Segment.Joinable, graft_of_id_eq hc] using h hc
      · simp [Segment.map, Segment.Joinable, graft_of_id_ne hc]
    | slot c =>
      intro ys hys
      obtain ⟨c, rfl, rfl⟩ := Option.map_eq_some_iff.mp (Option.mem_def.mp hys)
      by_cases hc : c.id = i
      · simpa [graft_of_id_eq hc] using h c rfl hc
      · simp [graft_of_id_ne hc]
    | stmts cs => trivial
    | items cs => trivial
  refine ⟨hjoin, ?_⟩
  rw [Segment.toList_join hjoin, Segment.toList_map, List.flatMap_def]

theorem joinable_graft (h : ∀ s ∈ n.form.segments, s.Admits i xs.length) :
    (n.form.map (graft i xs)).Joinable := by
  intro s hs
  rw [Form.segments_map, List.mem_map] at hs
  obtain ⟨s, hs, rfl⟩ := hs
  exact (toList_join_graft (h s hs)).1

/-- The children of a grafted node are what became of its children. -/
theorem children_grafted (h : ∀ s ∈ n.form.segments, s.Admits i xs.length) :
    (n.grafted i xs).children = n.children.flatMap (graft i xs) := by
  rw [children, form_grafted, Form.children_join (joinable_graft h), Form.children_map,
    ← List.flatMap_def]
  rfl

/-- A search through several trees, where each of them is known to be grafted. -/
theorem find?_flatMap_graft {P : Node → Bool} {cs : List Node}
    (h : ∀ c ∈ cs, ((c.graft i xs).flatMap preorder).find? P =
      (c.preorder.find? P).map (grafted i xs)) :
    ((cs.flatMap (graft i xs)).flatMap preorder).find? P =
      ((cs.flatMap preorder).find? P).map (grafted i xs) := by
  rw [List.flatMap_assoc, List.find?_flatMap, List.find?_flatMap, List.map_findSome?]
  exact findSome?_congr_left h

end

/-- The name of a variable. -/
def varName? (n : Node) : Option String :=
  match n.form with
  | .var x => some x
  | _ => none

theorem varName?_eq_some_iff {n : Node} {x : String} : n.varName? = some x ↔ n.form = .var x := by
  unfold varName?
  cases n.form <;> simp

/-- A graft elsewhere does not change a variable and makes none. -/
@[simp] theorem varName?_grafted {i : Nat} {xs : List Node} {n : Node} :
    (n.grafted i xs).varName? = n.varName? := by
  unfold varName? grafted
  cases n.form <;> rfl

theorem varName?_of_kind {n : Node} (h : n.kind ≠ .var) : n.varName? = none := by
  unfold varName?
  cases hform : n.form with
  | var x => exact absurd (by rw [kind, hform]; rfl) h
  | _ => rfl

theorem isVariable_eq (n : Node) (x : String) : n.isVariable x = (n.varName? == some x) := by
  unfold isVariable varName?
  cases n.form <;> simp [Bool.beq_eq_decide_eq]

/-- A place in a tree that can hold the nodes that are to be put in: the node `n` below its parent
`m`. -/
structure GraftSite (root : Node) (around : List Node) (m n : Node) (xs : List Node) : Prop where
  nodup : root.ids.Nodup
  occurs : Occurs root (m :: around) n
  admits : ∀ s ∈ m.form.segments, s.Admits n.id xs.length

namespace GraftSite

variable {root m n p : Node} {around : List Node} {xs : List Node}

theorem root_ne (site : GraftSite root around m n xs) : root.id ≠ n.id := by
  intro heq
  have h := (Occurs.root.unique site.nodup site.occurs heq).1
  exact absurd h (List.cons_ne_nil _ _).symm

/-- A child with the identity of the node is the node, and its parent the parent. -/
theorem eq_of_mem_children (site : GraftSite root around m n xs) {outer : List Node} {c : Node}
    (hp : Occurs root outer p) (hc : c ∈ p.children) (hid : c.id = n.id) :
    p = m ∧ outer = around ∧ c = n := by
  obtain ⟨hlist, rfl⟩ := (hp.child hc).unique site.nodup site.occurs hid
  obtain ⟨rfl, rfl⟩ := List.cons.inj hlist
  exact ⟨rfl, rfl, rfl⟩

theorem admits_of_occurs (site : GraftSite root around m n xs) {outer : List Node}
    (hp : Occurs root outer p) : ∀ s ∈ p.form.segments, s.Admits n.id xs.length := by
  intro s hs
  have hparent : ∀ c ∈ s.toList, c.id = n.id → s.Admits n.id xs.length := by
    intro c hc hid
    have hchild : c ∈ p.children := List.mem_flatMap_of_mem hs hc
    obtain ⟨rfl, -, -⟩ := site.eq_of_mem_children hp hchild hid
    exact site.admits s hs
  cases s with
  | required c => exact fun hid => hparent c (by simp [Segment.toList]) hid hid
  | slot c =>
    intro x hx hid
    exact hparent x (by simpa [Segment.toList] using hx) hid x hx hid
  | stmts cs => trivial
  | items cs => trivial

theorem children_grafted (site : GraftSite root around m n xs) {outer : List Node}
    (hp : Occurs root outer p) :
    (p.grafted n.id xs).children = p.children.flatMap (graft n.id xs) :=
  Node.children_grafted (site.admits_of_occurs hp)

/-- Around the place the listing stays as it is, in all that a graft elsewhere leaves to a node. -/
theorem exists_map_preorder_eq {α : Type} (site : GraftSite root around m n xs) (f : Node → α)
    (hf : ∀ p : Node, f (p.grafted n.id xs) = f p) :
    ∃ l r, root.preorder.map f = l ++ n.preorder.map f ++ r ∧
      (root.grafted n.id xs).preorder.map f = l ++ (xs.flatMap preorder).map f ++ r := by
  -- The induction is on the part of the tree above the place, and the place itself is its end.
  have key : ∀ (p : Node) (outer above : List Node), Occurs root outer p → Occurs p above n →
      ∃ l r, p.preorder.map f = l ++ n.preorder.map f ++ r ∧
        ((p.graft n.id xs).flatMap preorder).map f = l ++ (xs.flatMap preorder).map f ++ r := by
    intro p
    induction p using Node.induction with
    | step p ih =>
      intro outer above hp hn
      rcases hn.eq_root_or_below with ⟨-, rfl⟩ | ⟨c, hc, above, -, hn⟩
      · exact ⟨[], [], by simp, by simp [graft_of_id_eq]⟩
      · have hnodup := hp.nodup site.nodup
        have hid : p.id ≠ n.id := fun heq =>
          id_notMem_of_mem_children hnodup hc (heq ▸ hn.id_mem)
        obtain ⟨l, r, hlisting, hgraft⟩ := ih c hc (p :: outer) above (hp.child hc) hn
        obtain ⟨ls, rs, hsplit, hchildren⟩ :=
          exists_flatMap_graft_eq xs hnodup hc hn.id_mem
        refine ⟨f p :: (ls.flatMap preorder).map f ++ l, r ++ (rs.flatMap preorder).map f, ?_, ?_⟩
        · rw [preorder_eq, hsplit, List.flatMap_append, List.flatMap_cons, List.map_cons,
            List.map_append, List.map_append, hlisting]
          simp
        · rw [graft_of_id_ne hid, List.flatMap_singleton, preorder_eq, site.children_grafted hp,
            hchildren, List.flatMap_append, List.flatMap_append, List.map_cons, List.map_append,
            List.map_append, hgraft, hf]
          simp
  obtain ⟨l, r, hlisting, hgraft⟩ := key root [] (m :: around) .root site.occurs
  rw [graft_of_id_ne site.root_ne, List.flatMap_singleton] at hgraft
  exact ⟨l, r, hlisting, hgraft⟩

/-- Around the place the identities stay as they are. -/
theorem exists_ids_eq (site : GraftSite root around m n xs) :
    ∃ l r, root.ids = l ++ n.ids ++ r ∧
      (root.grafted n.id xs).ids = l ++ xs.flatMap ids ++ r := by
  obtain ⟨l, r, hids, hgrafted⟩ := site.exists_map_preorder_eq (·.id) fun _ => rfl
  rw [map_id_flatMap_preorder] at hgrafted
  exact ⟨l, r, hids, hgrafted⟩

/-- Children in place of their parent bring in nothing new. -/
theorem ids_grafted_sublist (site : GraftSite root around m n xs) (h : xs.Sublist n.children) :
    (root.grafted n.id xs).ids.Sublist root.ids := by
  obtain ⟨l, r, hids, hgrafted⟩ := site.exists_ids_eq
  rw [hids, hgrafted, ids_eq]
  refine List.Sublist.append_right (List.Sublist.append_left ?_ l) r
  exact (h.flatMap ids).cons n.id

/-- A part of the tree that lies beside the place is a part of the new tree. -/
theorem mem_preorder (site : GraftSite root around m n xs) (hp : p ∈ root.preorder)
    (habove : n.id ∉ p.ids) (hbelow : p ∉ n.preorder) :
    p ∈ (root.grafted n.id xs).preorder := by
  have key : ∀ (q : Node) (outer : List Node), Occurs root outer q → p ∈ q.preorder →
      ∃ r ∈ q.graft n.id xs, p ∈ r.preorder := by
    intro q
    induction q using Node.induction with
    | step q ih =>
      intro outer hq hmem
      have hid : q.id ≠ n.id := by
        intro heq
        obtain ⟨-, rfl⟩ := hq.unique site.nodup site.occurs heq
        exact hbelow hmem
      rw [preorder_eq, List.mem_cons, List.mem_flatMap] at hmem
      rcases hmem with rfl | ⟨c, hc, hmem⟩
      · refine ⟨p, ?_, by rw [preorder_eq]; exact List.mem_cons_self⟩
        rw [graft_of_notMem habove]
        exact List.mem_cons_self
      · obtain ⟨r, hr, hpr⟩ := ih c hc (q :: outer) (hq.child hc) hmem
        refine ⟨q.grafted n.id xs, ?_, ?_⟩
        · rw [graft_of_id_ne hid]
          exact List.mem_cons_self
        · rw [preorder_eq, site.children_grafted hq]
          exact List.mem_cons_of_mem _
            (List.mem_flatMap_of_mem (List.mem_flatMap_of_mem hc hr) hpr)
  obtain ⟨r, hr, hpr⟩ := key root [] .root hp
  rw [graft_of_id_ne site.root_ne, List.mem_singleton] at hr
  exact hr ▸ hpr

/-- A node that is neither in the place nor below it stands where it stood. -/
theorem occurs_of_apart (site : GraftSite root around m n xs) {outer : List Node}
    (hp : Occurs root outer p) (hne : ∀ a ∈ p :: outer, a.id ≠ n.id) :
    Occurs (root.grafted n.id xs) (outer.map (grafted n.id xs)) (p.grafted n.id xs) := by
  induction hp with
  | root => exact .root
  | @child outer q c hq hc ih =>
    refine (ih fun a ha => hne a (List.mem_cons_of_mem _ ha)).child ?_
    rw [site.children_grafted hq]
    refine List.mem_flatMap_of_mem hc ?_
    rw [graft_of_id_ne (hne c List.mem_cons_self)]
    exact List.mem_cons_self

/-- What was put in stands in the place. -/
theorem occurs_of_mem (site : GraftSite root around m n xs) {x : Node} (hx : x ∈ xs) :
    Occurs (root.grafted n.id xs) ((m :: around).map (grafted n.id xs)) x := by
  obtain ⟨hm, hn⟩ := site.occurs.parent
  refine (site.occurs_of_apart hm fun a ha heq => ?_).child ?_
  · exact site.occurs.id_notMem_of_mem_around site.nodup ha (heq ▸ n.id_mem_ids)
  · rw [site.children_grafted hm]
    refine List.mem_flatMap_of_mem hn ?_
    rw [graft_of_id_eq rfl]
    exact hx

/-- Every node of the new tree is an old one, grafted, or stands in what was put in. -/
theorem occurs_cases (site : GraftSite root around m n xs) {above : List Node} {q : Node}
    (hq : Occurs (root.grafted n.id xs) above q) :
    (∃ outer p, Occurs root outer p ∧ (∀ a ∈ p :: outer, a.id ≠ n.id) ∧
        q = p.grafted n.id xs ∧ above = outer.map (grafted n.id xs)) ∨
      ∃ x ∈ xs, ∃ inner, Occurs x inner q ∧
        above = inner ++ (m :: around).map (grafted n.id xs) := by
  induction hq with
  | root =>
    exact .inl ⟨[], root, .root, by simpa using site.root_ne, rfl, rfl⟩
  | @child above q c _ hc ih =>
    rcases ih with ⟨outer, p, hp, hne, rfl, rfl⟩ | ⟨x, hx, inner, hinner, rfl⟩
    · rw [site.children_grafted hp, List.mem_flatMap] at hc
      obtain ⟨d, hd, hc⟩ := hc
      by_cases hid : d.id = n.id
      · obtain ⟨rfl, rfl, rfl⟩ := site.eq_of_mem_children hp hd hid
        rw [graft_of_id_eq rfl] at hc
        exact .inr ⟨c, hc, [], .root, rfl⟩
      · rw [graft_of_id_ne hid, List.mem_singleton] at hc
        refine .inl ⟨p :: outer, d, hp.child hd, ?_, hc, rfl⟩
        intro a ha
        rcases List.mem_cons.mp ha with rfl | ha
        · exact hid
        · exact hne a ha
    · exact .inr ⟨x, hx, q :: inner, hinner.child hc, rfl⟩

/-- What holds of the old nodes, grafted, and of what was put in holds of the whole new tree. -/
theorem forall_preorder (site : GraftSite root around m n xs) {P : Node → Prop}
    (hold : ∀ outer p, Occurs root outer p → P (p.grafted n.id xs))
    (hnew : ∀ x ∈ xs, ∀ p ∈ x.preorder, P p) : ∀ p ∈ (root.grafted n.id xs).preorder, P p := by
  intro q hq
  obtain ⟨above, hq⟩ := mem_preorder_iff.mp hq
  rcases site.occurs_cases hq with ⟨outer, p, hp, -, rfl, -⟩ | ⟨x, hx, inner, hinner, -⟩
  · exact hold outer p hp
  · exact hnew x hx q (mem_preorder_iff.mpr ⟨inner, hinner⟩)

/-- A search through a tree commutes with a graft, if what is looked for can be seen of a grafted
node as well and the search of the place is answered by what was put in. -/
theorem find?_graft (site : GraftSite root around m n xs) {P : Node → Bool}
    (hP : ∀ outer q, Occurs root outer q → q.id ≠ n.id → P (q.grafted n.id xs) = P q)
    (hplace : (xs.flatMap preorder).find? P = (n.preorder.find? P).map (grafted n.id xs))
    (p : Node) :
    ∀ outer, Occurs root outer p →
      ((p.graft n.id xs).flatMap preorder).find? P =
        (p.preorder.find? P).map (grafted n.id xs) := by
  induction p using Node.induction with
  | step p ih =>
    intro outer hp
    by_cases hid : p.id = n.id
    · obtain ⟨-, rfl⟩ := hp.unique site.nodup site.occurs hid
      rw [graft_of_id_eq rfl]
      exact hplace
    · have hbelow := find?_flatMap_graft fun c hc => ih c hc (p :: outer) (hp.child hc)
      rw [graft_of_id_ne hid, List.flatMap_singleton, preorder_eq, List.find?_cons, preorder_eq p,
        List.find?_cons, hP outer p hp hid, site.children_grafted hp, hbelow]
      cases P p <;> rfl

end GraftSite

end Node

end PhpRefactor
