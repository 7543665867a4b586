import PhpRefactor.Proofs.Syntax.Occurrence
import PhpRefactor.Proofs.Syntax.Join
import PhpRefactor.Syntax.Equality

/-!
# Trees up to numbers and positions

The identities of nodes and their positions in a text are no part of the program.
`Node.renumber` replaces all identities of a tree and forgets the positions; what it comes to when
every identity is replaced by the same one is `Node.bare`, the program itself.  Trees that are bare
the same differ in identities and positions only, and, NaN literals aside, they are structurally
equal (`Node.same_of_bare_eq`).
-/

set_option autoImplicit false

namespace PhpRefactor

/-! ## Putting children in -/

/-- A run takes new children for its own, whatever stood in their places. -/
theorem Segment.refill_map {α β : Type} (g h : α → β) (s : Segment α) (rest : List β) :
    (s.map g).refill (s.toList.map h ++ rest) = s.map h := by
  cases s with
  | required c => rfl
  | slot c => cases c <;> rfl
  | stmts cs | items cs => simp [map, refill, toList]

namespace Form

variable {α β : Type}

theorem refillSegments_map (g h : α → β) (segments : List (Segment α)) :
    refillSegments (segments.map (Segment.map g)) ((segments.flatMap Segment.toList).map h) =
      segments.map (Segment.map h) := by
  induction segments with
  | nil => rfl
  | cons s segments ih =>
    rw [List.map_cons, List.flatMap_cons, List.map_append, refillSegments, Segment.refill_map,
      Segment.toList_map, List.length_map, List.drop_left' (List.length_map h), ih, List.map_cons]

/-- A construct is determined by what it is without its children, and by its children. -/
theorem refill_map (g h : α → β) (form : Form α) :
    (form.map g).refill (form.children.map h) = form.map h := by
  rw [refill, segments_map, children, refillSegments_map, ← segments_map, withSegments_map]

theorem headD_map [Inhabited α] [Inhabited β] {g : α → β} (hg : g default = default) (l : List α) :
    (l.map g).headD default = g (l.headD default) := by
  cases l with
  | nil => exact hg.symm
  | cons a l => rfl

/-- A map that keeps the default goes through the layout of any lists. -/
theorem map_join_of_default [Inhabited α] [Inhabited β] {g : α → β} (hg : g default = default)
    (form : Form (List α)) : form.join.map g = (form.map (List.map g)).join := by
  have hparams : ∀ ps : List (Param (List α)), (ps.map Param.join).map (·.map g) =
      (ps.map (·.map (List.map g))).map Param.join := by
    intro ps
    rw [List.map_map, List.map_map]
    refine List.map_congr_left fun p _ => ?_
    cases hinitial : p.initial with
    | none => simp [Param.map, Param.join, hinitial]
    | some l => cases l <;> simp [Param.map, Param.join, hinitial]
  have hslot : ∀ l : Option (List α), (l.bind List.head?).map g =
      (l.map (List.map g)).bind List.head? := by
    intro l
    cases l with
    | none => rfl
    | some l => cases l <;> rfl
  cases form with
  | tryBlock ss cs fin => cases fin <;> simp [map, join, List.map_flatten]
  | _ => simp only [map, join, List.map_flatten, headD_map hg, hparams, hslot]

end Form

namespace Node

/-- The tree with every identity replaced and without positions. -/
def renumber (f : Nat → Nat) : Node → Node := fold fun id _ form => ⟨f id, .none, form⟩

/-- The tree without identities and positions. -/
def bare : Node → Node := renumber fun _ => 0

variable {f g : Nat → Nat}

theorem renumber_eq (f : Nat → Nat) (n : Node) :
    n.renumber f = ⟨f n.id, .none, n.form.map (renumber f)⟩ := by
  rw [renumber, fold_eq]

theorem bare_eq (n : Node) : n.bare = ⟨0, .none, n.form.map bare⟩ := renumber_eq _ n

@[simp] theorem id_renumber (n : Node) : (n.renumber f).id = f n.id := by
  rw [renumber_eq]

@[simp] theorem form_renumber (n : Node) : (n.renumber f).form = n.form.map (renumber f) := by
  rw [renumber_eq]

@[simp] theorem kind_renumber (n : Node) : (n.renumber f).kind = n.kind := by
  rw [kind, form_renumber, Form.kind_map, kind]

@[simp] theorem children_renumber (n : Node) :
    (n.renumber f).children = n.children.map (renumber f) := by
  rw [children, form_renumber, Form.children_map]
  rfl

theorem preorder_renumber (n : Node) : (n.renumber f).preorder = n.preorder.map (renumber f) :=
  preorder_map children_renumber n

theorem ids_renumber (n : Node) : (n.renumber f).ids = n.ids.map f := by
  rw [ids, preorder_renumber, List.map_map, ids, List.map_map]
  exact List.map_congr_left fun p _ => id_renumber p

theorem size_renumber (n : Node) : (n.renumber f).size = n.size := by
  rw [size, preorder_renumber, List.length_map, size]

theorem renumber_renumber (f g : Nat → Nat) (n : Node) :
    (n.renumber f).renumber g = n.renumber (g ∘ f) := by
  induction n using Node.induction with
  | step n ih =>
    rw [renumber_eq, id_renumber, form_renumber, Form.map_map, renumber_eq _ n]
    exact congrArg (Node.mk _ _) (Form.map_congr ih)

theorem bare_renumber (f : Nat → Nat) (n : Node) : (n.renumber f).bare = n.bare :=
  renumber_renumber f (fun _ => 0) n

theorem bare_default : (default : Node).bare = default := by
  rw [bare, renumber_eq]
  rfl

theorem form_shape_of_bare_eq {a b : Node} (h : a.bare = b.bare) : a.form.shape = b.form.shape := by
  have hshape : ∀ n : Node, n.bare.form.shape = n.form.shape := by
    intro n
    rw [bare, form_renumber, Form.shape, Form.map_map, Form.shape]
  rw [← hshape a, ← hshape b, h]

theorem children_bare (n : Node) : n.bare.children = n.children.map bare := children_renumber n

theorem map_bare_children_of_bare_eq {a b : Node} (h : a.bare = b.bare) :
    a.children.map bare = b.children.map bare := by
  rw [← children_bare, ← children_bare, h]

/-- Trees that are bare the same are put together from their children in the same way. -/
theorem map_form_eq_of_bare_eq {a b : Node} {F G : Node → Node} (h : a.bare = b.bare)
    (hchildren : a.children.map F = b.children.map G) : a.form.map F = b.form.map G := by
  have hform : a.form.map bare = b.form.map bare := by
    rw [bare_eq, bare_eq b] at h
    exact (Node.mk.inj h).2.2
  rw [← Form.refill_map bare F a.form, ← Form.refill_map bare G b.form, hform]
  exact congrArg _ hchildren

theorem size_eq_of_bare_eq {a b : Node} (h : a.bare = b.bare) : a.size = b.size := by
  rw [← size_renumber (f := fun _ => 0), ← size_renumber (n := b) (f := fun _ => 0)]
  exact congrArg size h

/-- Trees side by side, with the same numbers in order, have the same numbers each. -/
theorem map_renumber_eq {cs ds : List Node} (h : cs.map bare = ds.map bare)
    (hids : (cs.flatMap ids).map f = (ds.flatMap ids).map g)
    (hone : ∀ c ∈ cs, ∀ d : Node, c.bare = d.bare → c.ids.map f = d.ids.map g →
      c.renumber f = d.renumber g) :
    cs.map (renumber f) = ds.map (renumber g) := by
  induction cs generalizing ds with
  | nil =>
    rw [List.map_nil, eq_comm, List.map_eq_nil_iff] at h
    rw [h]
    rfl
  | cons c cs ih =>
    cases ds with
    | nil => exact absurd h (by simp)
    | cons d ds =>
      obtain ⟨hcd, hrest⟩ := List.cons.inj h
      have hlength : (c.ids.map f).length = (d.ids.map g).length := by
        rw [List.length_map, List.length_map, length_ids, length_ids, size_eq_of_bare_eq hcd]
      rw [List.flatMap_cons, List.flatMap_cons, List.map_append, List.map_append] at hids
      obtain ⟨hfirst, hids⟩ := List.append_inj hids hlength
      rw [List.map_cons, List.map_cons, hone c List.mem_cons_self d hcd hfirst,
        ih hrest hids fun e he => hone e (List.mem_cons_of_mem _ he)]

/-- A tree is what it is without numbers, and its numbers in order. -/
theorem renumber_eq_of_bare_eq {a b : Node} (h : a.bare = b.bare)
    (hids : a.ids.map f = b.ids.map g) : a.renumber f = b.renumber g := by
  induction a using Node.induction generalizing b with
  | step a ih =>
    rw [ids_eq, ids_eq b, List.map_cons, List.map_cons] at hids
    obtain ⟨hid, hbelow⟩ := List.cons.inj hids
    have hchildren := map_renumber_eq (map_bare_children_of_bare_eq h) hbelow
      fun c hc d hcd hnumbers => ih c hc hcd hnumbers
    rw [renumber_eq, renumber_eq g, hid, map_form_eq_of_bare_eq h hchildren]

/-- A literal that is not a number, and so differs from itself. -/
def isNaN (n : Node) : Bool :=
  match n.form with
  | .float d => d.isNaN
  | _ => false

/-- No literal of the tree is a NaN. -/
def NoNaN (root : Node) : Prop := ∀ n ∈ root.preorder, n.isNaN = false

instance (root : Node) : Decidable root.NoNaN :=
  inferInstanceAs (Decidable (∀ n ∈ root.preorder, n.isNaN = false))

/-- Trees that are bare the same are structurally equal, if no literal is a NaN. -/
theorem same_of_bare_eq {a b : Node} (h : a.bare = b.bare) (hnan : a.NoNaN) :
    a.same b = true := by
  induction a using Node.induction generalizing b with
  | step a ih =>
    rw [same_eq, Bool.and_eq_true, List.all_eq_true]
    constructor
    · rw [← form_shape_of_bare_eq h]
      cases hform : a.form with
      | float d =>
        have hd := hnan a (by rw [preorder_eq]; exact List.mem_cons_self)
        rw [isNaN, hform] at hd
        simp [Form.shape, Form.map, Form.sameShape, Double.ieeeEq, hd]
      | _ => simp [Form.shape, Form.map, Form.sameShape]
    · rintro ⟨c, d⟩ hmem
      have hc : c ∈ a.children := (List.of_mem_zip hmem).1
      refine ih c hc ?_ fun n hn => hnan n ?_
      · -- Children in the same position are bare the same.
        obtain ⟨i, hi, hzip⟩ := List.getElem_of_mem hmem
        have hlists := map_bare_children_of_bare_eq h
        rw [List.length_zip] at hi
        have hat := congrArg (fun l => l[i]?) hlists
        rw [List.getElem_zip] at hzip
        obtain ⟨rfl, rfl⟩ := Prod.mk.inj hzip
        simpa [List.getElem?_map, List.getElem?_eq_getElem (show i < a.children.length by omega),
          List.getElem?_eq_getElem (show i < b.children.length by omega)] using hat
      · rw [preorder_eq]
        exact List.mem_cons_of_mem _ (List.mem_flatMap_of_mem hc hn)

/-! ## Numbers by place -/

/-- The place of an identity in the listing. -/
def place (n : Node) (i : Nat) : Nat := n.ids.idxOf i

/-- Identities in the listing are told apart by their places. -/
theorem place_inj {n : Node} {i j : Nat} (hi : i ∈ n.ids) (h : n.place i = n.place j) : i = j :=
  (List.idxOf_inj hi).mp h

theorem ids_map_place {n : Node} (h : n.ids.Nodup) : n.ids.map n.place = List.range n.size := by
  refine List.ext_getElem (by rw [List.length_map, length_ids, List.length_range]) ?_
  intro k hk _
  rw [List.getElem_map, List.getElem_range]
  exact h.idxOf_getElem k (by simpa using hk)

/-- Trees that are bare the same become one when their nodes are numbered by place. -/
theorem renumber_place_eq {a b : Node} (ha : a.ids.Nodup) (hb : b.ids.Nodup)
    (h : a.bare = b.bare) : a.renumber a.place = b.renumber b.place := by
  refine renumber_eq_of_bare_eq h ?_
  rw [ids_map_place ha, ids_map_place hb, size_eq_of_bare_eq h]

/-- Replacing the identities leaves every node where it stands. -/
theorem Occurs.renumber {root n : Node} {around : List Node} (f : Nat → Nat)
    (h : Occurs root around n) :
    Occurs (root.renumber f) (around.map (Node.renumber f)) (n.renumber f) :=
  h.map children_renumber

/-- In trees that are bare the same, nodes in the same place have the same around them. -/
theorem Occurs.renumber_place_eq {a b n m : Node} {around above : List Node} (ha : a.ids.Nodup)
    (hb : b.ids.Nodup) (h : a.bare = b.bare) (hn : Occurs a around n) (hm : Occurs b above m)
    (hplace : a.place n.id = b.place m.id) :
    around.map (Node.renumber a.place) = above.map (Node.renumber b.place) ∧
      n.renumber a.place = m.renumber b.place := by
  have hn' := hn.renumber a.place
  have hm' := hm.renumber b.place
  rw [← Node.renumber_place_eq ha hb h] at hm'
  refine hn'.unique ?_ hm' ?_
  · rw [ids_renumber, ids_map_place ha]
    exact List.nodup_range
  · rw [id_renumber, id_renumber, hplace]

end Node

end PhpRefactor
