import PhpRefactor.Proofs.Index.Renumber
import PhpRefactor.Proofs.Syntax.Numbering

/-!
# Other identities for some nodes

`Node.mapIds` replaces the identities of a tree and keeps the positions.  What was there stays in
its place (`Node.Occurs.mapIds`), and a graft can be made before or after
(`Node.mapIds_grafted`), as long as identities that were apart stay apart.

Identities from another supply are such a replacement (`Renames`): `renew` leaves all numbers below
a supply and moves the others.
-/

set_option autoImplicit false

namespace PhpRefactor

/-- What comes from a supply that begins at `a`, out of one that begins at `b`; what was there
before stays. -/
def renew (a b i : Nat) : Nat := if i < a then i else i - a + b

theorem renew_of_lt {a i : Nat} (b : Nat) (h : i < a) : renew a b i = i := if_pos h

theorem renew_add (a b k : Nat) : renew a b (a + k) = b + k := by
  rw [renew, if_neg (Nat.not_lt.mpr (Nat.le_add_right a k)), Nat.add_sub_cancel_left, Nat.add_comm]

/-- Numbers from a supply that begins at `a` become those from one that begins at `b`.  What becomes
of numbers before is left open, but for the one of the default node. -/
structure Renames (f : Nat → Nat) (a b : Nat) : Prop where
  zero : f 0 = 0
  add : ∀ k, f (a + k) = b + k

theorem renames_renew {a : Nat} (h : 0 < a) (b : Nat) : Renames (renew a b) a b :=
  ⟨renew_of_lt b h, renew_add a b⟩

theorem Edit.map_eq_keep_iff {edit : Edit} {f : Node → Node} :
    edit.map f = .keep ↔ edit = .keep := by
  cases edit <;> simp [map]

theorem Edit.puts_map (edit : Edit) (f : Node → Node) : (edit.map f).puts = edit.puts.map f := by
  cases edit <;> rfl

namespace Node

variable {f : Nat → Nat}

/-- Only the identities of the tree matter. -/
theorem mapIds_congr {g : Nat → Nat} {n : Node} (h : ∀ i ∈ n.ids, f i = g i) :
    n.mapIds f = n.mapIds g := by
  induction n using Node.induction with
  | step n ih =>
    have hchildren : n.form.map (mapIds f) = n.form.map (mapIds g) :=
      Form.map_congr fun c hc => ih c hc fun i hi => h i (ids_subset_of_mem_children hc hi)
    rw [mapIds_eq, mapIds_eq, h n.id n.id_mem_ids, hchildren]

theorem mapIds_id (n : Node) : n.mapIds (fun i => i) = n := by
  induction n using Node.induction with
  | step n ih =>
    have hchildren : n.form.map (mapIds fun i => i) = n.form.map fun c => c := Form.map_congr ih
    rw [mapIds_eq, hchildren, Form.map_id]
    cases n
    rfl

/-- Nothing changes if no identity of the tree does. -/
theorem mapIds_of_forall_eq {n : Node} (h : ∀ i ∈ n.ids, f i = i) : n.mapIds f = n :=
  (mapIds_congr h).trans (mapIds_id n)

theorem Occurs.mapIds {root n : Node} {around : List Node} (f : Nat → Nat)
    (h : Occurs root around n) :
    Occurs (root.mapIds f) (around.map (Node.mapIds f)) (n.mapIds f) :=
  h.map children_mapIds

/-- If identities stay apart a node is in the same place afterwards. -/
theorem Occurs.samePlace_mapIds {root n : Node} {around : List Node}
    (hnodup : (root.ids.map f).Nodup) (h : Occurs root around n) :
    SamePlace root (root.mapIds f) around (around.map (Node.mapIds f)) n (n.mapIds f) where
  left := .of_map f hnodup
  right := by
    rw [ids_mapIds]
    exact hnodup
  bare_eq := (bare_mapIds f root).symm
  occurs_left := h
  occurs_right := h.mapIds f
  place_eq := by
    have hlt : root.ids.idxOf n.id < root.ids.length := List.idxOf_lt_length_of_mem h.id_mem
    have hlt' : root.ids.idxOf n.id < (root.ids.map f).length := by
      rw [List.length_map]
      exact hlt
    have hat : (root.ids.map f)[root.ids.idxOf n.id] = f n.id := by
      rw [List.getElem_map, List.getElem_idxOf hlt]
    rw [place, place, ids_mapIds, id_mapIds, ← hat]
    exact (hnodup.idxOf_getElem _ _).symm

/-! ## Grafts -/

section

variable {i : Nat} {root n : Node}

/-- Only in a place where it is missing would the default node be put in. -/
theorem mapIds_default (hzero : f 0 = 0) : (default : Node).mapIds f = default := by
  rw [mapIds_eq]
  exact congrArg (fun id => (⟨id, .none, .null⟩ : Node)) hzero

theorem map_mapIds_graft (hzero : f 0 = 0) (xs : List Node) (hf : ∀ j ∈ n.ids, f j = f i → j = i) :
    (n.graft i xs).map (mapIds f) = (n.mapIds f).graft (f i) (xs.map (mapIds f)) := by
  induction n using Node.induction with
  | step n ih =>
    by_cases hid : n.id = i
    · rw [graft_of_id_eq hid, graft_of_id_eq (by rw [id_mapIds, hid])]
    · have hne : (n.mapIds f).id ≠ f i := fun h => hid (hf n.id n.id_mem_ids (by simpa using h))
      have hform : ((n.form.map (graft i xs)).join).map (mapIds f) =
          ((n.mapIds f).form.map (graft (f i) (xs.map (mapIds f)))).join := by
        rw [Form.map_join_of_default (mapIds_default hzero), form_mapIds, Form.map_map,
          Form.map_map]
        refine congrArg Form.join (Form.map_congr fun c hc => ?_)
        exact ih c hc fun j hj => hf j (ids_subset_of_mem_children hc hj)
      rw [graft_of_id_ne hid, graft_of_id_ne hne, List.map_singleton, mapIds_eq, form_grafted,
        hform]
      simp only [grafted, id_mapIds, span_mapIds]

/-- A graft can be made before or after. -/
theorem mapIds_grafted {m : Node} {around xs : List Node} (hzero : f 0 = 0)
    (hnodup : (root.ids.map f).Nodup) (site : GraftSite root around m n xs) :
    (root.grafted n.id xs).mapIds f = (root.mapIds f).grafted (f n.id) (xs.map (mapIds f)) := by
  have hf : ∀ j ∈ root.ids, f j = f n.id → j = n.id := fun j hj heq =>
    List.inj_on_of_nodup_map hnodup hj site.occurs.id_mem heq
  have hgraft := map_mapIds_graft hzero xs hf
  have hne : (root.mapIds f).id ≠ f n.id := by
    rw [id_mapIds]
    exact fun heq => site.root_ne (hf root.id root.id_mem_ids heq)
  rw [graft_of_id_ne site.root_ne, graft_of_id_ne hne] at hgraft
  exact List.singleton_inj.mp hgraft

end

end Node

/-! ## Refusals -/

/-- A parent refuses the same edits afterwards, and for the same reason. -/
theorem Edit.refusal?_mapIds {f : Nat → Nat} {m : Node} {i : Nat}
    (hf : ∀ c ∈ m.children, f c.id = f i → c.id = i) (edit : Edit) :
    (edit.map (Node.mapIds f)).refusal? (m.mapIds f) (f i) =
      (edit.refusal? m i).map (TreeError.mapIds f) := by
  have hholds : ∀ sort : Segment Node → Bool,
      (∀ s : Segment Node, sort (s.map (Node.mapIds f)) = sort s) →
      (m.mapIds f).holdsIn sort (f i) = m.holdsIn sort i := fun sort hsort =>
    Node.holdsIn_map (Node.form_mapIds m) Node.id_mapIds hsort hf
  cases edit with
  | keep => rfl
  | replace x => rfl
  | splice xs =>
    rw [map, refusal?, refusal?, hholds _ fun s => by cases s <;> rfl]
    split
    · rfl
    · rw [Node.kind_mapIds, Node.id_mapIds]
      rfl
  | remove =>
    rw [map, refusal?, refusal?, hholds _ fun s => by cases s <;> rfl,
      hholds _ fun s => by cases s <;> rfl]
    split
    · rfl
    · rw [Node.kind_mapIds, Node.id_mapIds]
      rfl

/-- An edit that is refused names the node and its parent. -/
theorem Edit.mapIds_of_refusal? {f : Nat → Nat} {edit : Edit} {m : Node} {i : Nat} {e : TreeError}
    (h : edit.refusal? m i = some e) (hm : f m.id = m.id) (hi : f i = i) : e.mapIds f = e := by
  cases edit with
  | keep => cases h
  | replace x => cases h
  | splice xs =>
    rw [refusal?] at h
    split at h
    · cases h
    · rw [← Option.some.inj h, TreeError.mapIds, hm, hi]
  | remove =>
    rw [refusal?] at h
    split at h
    · cases h
    · rw [← Option.some.inj h, TreeError.mapIds, hm, hi]

end PhpRefactor
