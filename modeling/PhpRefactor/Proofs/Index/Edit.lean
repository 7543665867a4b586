import PhpRefactor.Proofs.Index.Fresh
import PhpRefactor.Proofs.Syntax.Graft

/-!
# What an edit does to a tree

An edit goes through the index to the parent of a node, changes one run of its children and puts the
parent back along its path.  With the index of the tree at hand all this amounts to a graft: the
edit either puts its nodes in the place of the node (`TreeIndex.replace_of_occurs`,
`TreeIndex.splice_of_occurs`, `TreeIndex.remove_of_occurs`) or is refused because of what the place
is, and never for any other reason.
-/

set_option autoImplicit false

namespace PhpRefactor

/-! ## Changing one run of children -/

namespace Segment

/-- The run has a child with this identity. -/
def holds (i : Nat) (s : Segment Node) : Bool := s.toList.any (·.id = i)

def isStatements {α : Type} : Segment α → Bool
  | stmts _ => true
  | _ => false

def isList {α : Type} : Segment α → Bool
  | stmts _ | items _ => true
  | _ => false

def isSlot {α : Type} : Segment α → Bool
  | slot _ => true
  | _ => false

/-- Puts nodes in place of a child with this identity. -/
def put (i : Nat) (xs : List Node) (c : Node) : List Node := if c.id = i then xs else [c]

/-- A child of the run can go without another coming in its place. -/
def isLoose {α : Type} : Segment α → Bool
  | required _ => false
  | slot _ | stmts _ | items _ => true

variable {i : Nat} {xs : List Node}

theorem holds_iff {s : Segment Node} : s.holds i = true ↔ i ∈ s.toList.map (·.id) := by
  simp only [holds, List.any_eq_true, decide_eq_true_eq, List.mem_map]

theorem join_put_of_not_holds {s : Segment Node} (h : s.holds i = false) :
    (s.map (put i xs)).join = s := by
  have hput : s.map (put i xs) = s.map fun c => [c] := by
    refine map_congr ?_
    intro c hc
    have hne : c.id ≠ i := by
      intro heq
      rw [Bool.eq_false_iff, ne_eq, holds_iff] at h
      exact h (heq ▸ List.mem_map_of_mem hc)
    rw [put, if_neg hne]
  rw [hput, join_map_singleton, map_id]

theorem spliceFirst?_eq {cs : List Node} (h : (cs.map (·.id)).Nodup) :
    spliceFirst? (·.id = i) xs cs =
      if cs.any (·.id = i) then some (cs.map (put i xs)).flatten else none := by
  induction cs with
  | nil => rfl
  | cons c cs ih =>
    rw [List.map_cons, List.nodup_cons] at h
    by_cases hc : c.id = i
    · have hrest : (stmts cs).holds i = false := by
        rw [Bool.eq_false_iff, ne_eq, holds_iff]
        exact hc ▸ h.1
      have hsame : (cs.map (put i xs)).flatten = cs :=
        Segment.stmts.inj (join_put_of_not_holds hrest)
      simp [spliceFirst?, hc, put, hsame]
    · have hput : put i xs c = [c] := if_neg hc
      rw [spliceFirst?, if_neg (by simpa using hc), ih h.2]
      by_cases hany : cs.any (·.id = i)
      · simp [hc, hany, hput]
      · simp [hc, hany]

/-- A change of a run puts nodes in place of a child, wherever the run is of the right sort and has
the child. -/
def Puts (change : Segment Node → Option (Segment Node)) (accepts : Segment Node → Bool) (i : Nat)
    (xs : List Node) : Prop :=
  ∀ s : Segment Node, (s.toList.map (·.id)).Nodup →
    change s = if accepts s && s.holds i then some (s.map (put i xs)).join else none

theorem puts_exchange (i : Nat) (x : Node) :
    Puts (exchange? (·.id = i) x) (fun _ => true) i [x] := by
  intro s h
  cases s with
  | required c => by_cases hc : c.id = i <;> simp [exchange?, holds, toList, hc, map, join, put]
  | slot c =>
    cases c with
    | none => rfl
    | some c => by_cases hc : c.id = i <;> simp [exchange?, holds, toList, hc, map, join, put]
  | stmts cs =>
    rw [exchange?, spliceFirst?_eq (show (cs.map (·.id)).Nodup from h)]
    by_cases hany : cs.any (·.id = i) <;> simp [holds, toList, hany, map, join]
  | items cs =>
    rw [exchange?, spliceFirst?_eq (show (cs.map (·.id)).Nodup from h)]
    by_cases hany : cs.any (·.id = i) <;> simp [holds, toList, hany, map, join]

theorem puts_splice (i : Nat) (xs : List Node) :
    Puts (splice? (·.id = i) xs) isStatements i xs := by
  intro s h
  cases s with
  | stmts cs =>
    rw [splice?, spliceFirst?_eq (show (cs.map (·.id)).Nodup from h)]
    by_cases hany : cs.any (·.id = i) <;> simp [isStatements, holds, toList, hany, map, join]
  | _ => rfl

theorem puts_takeOut (i : Nat) : Puts (takeOut? (·.id = i)) isList i [] := by
  intro s h
  cases s with
  | stmts cs =>
    rw [takeOut?, spliceFirst?_eq (show (cs.map (·.id)).Nodup from h)]
    by_cases hany : cs.any (·.id = i) <;> simp [isList, holds, toList, hany, map, join]
  | items cs =>
    rw [takeOut?, spliceFirst?_eq (show (cs.map (·.id)).Nodup from h)]
    by_cases hany : cs.any (·.id = i) <;> simp [isList, holds, toList, hany, map, join]
  | _ => rfl

theorem puts_vacate (i : Nat) : Puts (vacate? (·.id = i)) isSlot i [] := by
  intro s _
  cases s with
  | slot c =>
    cases c with
    | none => rfl
    | some c =>
      by_cases hc : c.id = i <;> simp [vacate?, isSlot, holds, toList, hc, map, join, put]
  | _ => rfl

/-- Of several runs the one that has the child is changed, and only if it is of the right sort. -/
theorem changeFirst?_eq {change : Segment Node → Option (Segment Node)}
    {accepts : Segment Node → Bool} (hchange : Puts change accepts i xs)
    {segments : List (Segment Node)} (h : ((segments.flatMap toList).map (·.id)).Nodup) :
    changeFirst? change segments =
      if segments.any (fun s => accepts s && s.holds i) then
        some (segments.map fun s => (s.map (put i xs)).join)
      else none := by
  induction segments with
  | nil => rfl
  | cons s segments ih =>
    rw [List.flatMap_cons, List.map_append, List.nodup_append] at h
    obtain ⟨hs, hrest, hdisjoint⟩ := h
    have hapart : s.holds i = true → ∀ t ∈ segments, t.holds i = false := by
      intro hhas t ht
      rw [Bool.eq_false_iff, ne_eq, holds_iff]
      rw [holds_iff] at hhas
      intro hmem
      obtain ⟨c, hc, hid⟩ := List.mem_map.mp hmem
      exact hdisjoint i hhas i
        (List.mem_map.mpr ⟨c, List.mem_flatMap_of_mem ht hc, hid⟩) rfl
    rw [changeFirst?, hchange s hs]
    cases hhas : s.holds i with
    | true =>
      have hothers : segments.map (fun t => (t.map (put i xs)).join) = segments := by
        conv_rhs => rw [← List.map_id segments]
        exact List.map_congr_left fun t ht => join_put_of_not_holds (hapart hhas t ht)
      have hnone : segments.any (fun t => accepts t && t.holds i) = false := by
        rw [List.any_eq_false]
        intro t ht
        simp [hapart hhas t ht]
      cases haccepts : accepts s with
      | true => simp [hhas, haccepts, hothers]
      | false => simp [hhas, haccepts, hnone, ih hrest]
    | false =>
      rw [ih hrest, List.any_cons, hhas, Bool.and_false, Bool.false_or]
      by_cases hany : segments.any (fun t => accepts t && t.holds i)
      · simp [hany, join_put_of_not_holds hhas]
      · simp [hany]

end Segment

namespace Node

/-- The child with this identity stands in a run of this sort. -/
def holdsIn (m : Node) (sort : Segment Node → Bool) (i : Nat) : Bool :=
  m.form.segments.any fun s => sort s && s.holds i

/-- A node with a run changed is the node with the nodes put in place of its child. -/
theorem changeSegment?_eq {m n : Node} {change : Segment Node → Option (Segment Node)}
    {accepts : Segment Node → Bool} {xs : List Node} (h : m.ids.Nodup) (hn : n ∈ m.children)
    (hchange : Segment.Puts change accepts n.id xs) :
    m.changeSegment? change =
      if m.holdsIn accepts n.id then some (m.grafted n.id xs) else none := by
  have hids : (m.children.map (·.id)).Nodup := by
    refine (nodup_children h).map_on ?_
    intro c hc d hd heq
    exact eq_of_mem_ids h hc hd c.id_mem_ids (heq ▸ d.id_mem_ids)
  have hput : m.form.map (graft n.id xs) = m.form.map (Segment.put n.id xs) := by
    refine Form.map_congr ?_
    intro c hc
    by_cases hid : c.id = n.id
    · rw [graft_of_id_eq hid, Segment.put, if_pos hid]
    · rw [Segment.put, if_neg hid]
      refine graft_of_notMem fun hmem => hid ?_
      rw [eq_of_mem_ids h hc hn hmem n.id_mem_ids]
  have hsegments : m.form.segments.map (fun s => (s.map (Segment.put n.id xs)).join) =
      (m.form.map (graft n.id xs)).join.segments := by
    rw [hput, Form.segments_join, Form.segments_map, List.map_map]
    rfl
  rw [changeSegment?, Segment.changeFirst?_eq hchange hids]
  change Option.map _ (if m.holdsIn accepts n.id then _ else none) = _
  cases m.holdsIn accepts n.id with
  | true =>
    rw [if_pos rfl, if_pos rfl, Option.map_some, hsegments, Form.withSegments_join]
    rfl
  | false => rfl

theorem holdsIn_mono {m : Node} {sort sort' : Segment Node → Bool} {i : Nat}
    (hsort : ∀ s, sort s = true → sort' s = true) (h : m.holdsIn sort i = true) :
    m.holdsIn sort' i = true := by
  obtain ⟨s, hs, hboth⟩ := List.any_eq_true.mp h
  rw [Bool.and_eq_true] at hboth
  refine List.any_eq_true.mpr ⟨s, hs, ?_⟩
  rw [Bool.and_eq_true]
  exact ⟨hsort s hboth.1, hboth.2⟩

/-- A child can be left out of a list and of a place for at most one. -/
theorem holdsIn_isLoose (m : Node) (i : Nat) :
    m.holdsIn Segment.isLoose i = true ↔
      m.holdsIn Segment.isList i = true ∨ m.holdsIn Segment.isSlot i = true := by
  constructor
  · intro h
    obtain ⟨s, hs, hboth⟩ := List.any_eq_true.mp h
    cases s with
    | required c => cases hboth
    | slot c => exact .inr (List.any_eq_true.mpr ⟨_, hs, hboth⟩)
    | stmts cs => exact .inl (List.any_eq_true.mpr ⟨_, hs, hboth⟩)
    | items cs => exact .inl (List.any_eq_true.mpr ⟨_, hs, hboth⟩)
  · rintro (h | h)
    · exact holdsIn_mono (fun s hs => by cases s <;> first | rfl | exact hs) h
    · exact holdsIn_mono (fun s hs => by cases s <;> first | rfl | exact hs) h

theorem holdsIn_any {m n : Node} (hn : n ∈ m.children) : m.holdsIn (fun _ => true) n.id = true := by
  obtain ⟨s, hs, hmem⟩ := List.mem_flatMap.mp hn
  refine List.any_eq_true.mpr ⟨s, hs, ?_⟩
  rw [Bool.true_and, Segment.holds_iff]
  exact List.mem_map_of_mem hmem

/-- The object of a fetch must be there. -/
theorem kind_ne_fetch_of_holdsIn {m : Node} {i : Nat} (h : m.holdsIn Segment.isLoose i = true) :
    m.kind ≠ .fetch := by
  intro hkind
  unfold holdsIn at h
  cases hform : m.form with
  | fetch object name => simp [hform, Form.segments, Segment.isLoose] at h
  | _ => simp [kind, hform, Form.kind] at hkind

/-- A run of another sort does not have the child as well. -/
theorem id_ne_of_holdsIn {m : Node} {sort : Segment Node → Bool} {i : Nat} (h : m.ids.Nodup)
    (hholds : m.holdsIn sort i = true) {s : Segment Node} (hs : s ∈ m.form.segments)
    (hsort : sort s = false) {d : Node} (hd : d ∈ s.toList) : d.id ≠ i := by
  obtain ⟨t, ht, hboth⟩ := List.any_eq_true.mp hholds
  rw [Bool.and_eq_true, Segment.holds_iff] at hboth
  obtain ⟨hright, hmem⟩ := hboth
  obtain ⟨c, hc, rfl⟩ := List.mem_map.mp hmem
  intro hid
  have hdm : d ∈ m.children := List.mem_flatMap_of_mem hs hd
  have hcm : c ∈ m.children := List.mem_flatMap_of_mem ht hc
  obtain rfl : d = c := eq_of_mem_ids h hdm hcm d.id_mem_ids (hid ▸ c.id_mem_ids)
  have hchildren : (m.form.segments.flatMap Segment.toList).Nodup := nodup_children h
  have hsymm :
      Std.Symm (Function.onFun List.Disjoint (Segment.toList : Segment Node → List Node)) :=
    ⟨fun _ _ hxy a ha ha' => hxy ha' ha⟩
  have hne : s ≠ t := fun heq => Bool.false_ne_true (hsort.symm.trans (heq ▸ hright))
  exact (List.nodup_flatMap.mp hchildren).2.forall hs ht hne hd hc

theorem admits_of_holdsIn {m : Node} {sort : Segment Node → Bool} {i count : Nat}
    (h : m.ids.Nodup) (hholds : m.holdsIn sort i = true)
    (hsort : ∀ s, sort s = true → s.Admits i count) :
    ∀ s ∈ m.form.segments, s.Admits i count := by
  intro s hs
  by_cases haccepts : sort s = true
  · exact hsort s haccepts
  rw [Bool.not_eq_true] at haccepts
  cases s with
  | required d =>
    exact fun hid => absurd hid (id_ne_of_holdsIn h hholds hs haccepts (by simp [Segment.toList]))
  | slot d =>
    intro x hx hid
    exact absurd hid (id_ne_of_holdsIn h hholds hs haccepts (by simpa [Segment.toList] using hx))
  | stmts ds => trivial
  | items ds => trivial

end Node

/-! ## Putting a changed node back -/

namespace Form

variable {α : Type}

theorem setInSegments_eq_map {f : α → α} {segments : List (Segment α)} {i : Nat} {x : α}
    (h : (segments.flatMap Segment.toList).set i x = (segments.flatMap Segment.toList).map f) :
    setInSegments segments i x = segments.map (Segment.map f) := by
  induction segments generalizing i with
  | nil => rfl
  | cons s segments ih =>
    rw [List.flatMap_cons, List.set_append, List.map_append] at h
    rw [setInSegments, List.map_cons]
    split at h
    · rename_i hlt
      obtain ⟨hs, hrest⟩ := List.append_inj h (by simp)
      have hsame : segments.map (Segment.map f) = segments := by
        conv_rhs => rw [← List.map_id segments]
        refine List.map_congr_left ?_
        intro t ht
        rw [id_eq, ← Segment.map_id t, Segment.map_map]
        refine Segment.map_congr ?_
        intro c hc
        have hmem : c ∈ segments.flatMap Segment.toList := List.mem_flatMap_of_mem ht hc
        exact (List.map_eq_map_iff.mp ((List.map_id _).trans hrest) c hmem).symm
      rw [if_pos hlt, hsame]
      congr 1
      cases s with
      | required c =>
        obtain rfl : i = 0 := by simpa [Segment.toList] using hlt
        simpa [Segment.set, Segment.map, Segment.toList] using hs
      | slot c =>
        cases c with
        | none => simp [Segment.toList] at hlt
        | some c =>
          obtain rfl : i = 0 := by simpa [Segment.toList] using hlt
          simpa [Segment.set, Segment.map, Segment.toList] using hs
      | stmts cs => exact congrArg Segment.stmts hs
      | items cs => exact congrArg Segment.items hs
    · rename_i hge
      obtain ⟨hs, hrest⟩ := List.append_inj h (by simp)
      have hsame : s.map f = s := by
        conv_rhs => rw [← Segment.map_id s]
        exact Segment.map_congr fun c hc =>
          (List.map_eq_map_iff.mp ((List.map_id _).trans hs) c hc).symm
      rw [if_neg hge, ih hrest, hsame]

/-- A map that changes one child only overwrites it. -/
theorem setChild_eq_map {f : α → α} {form : Form α} {i : Nat} {x : α}
    (h : form.children.set i x = form.children.map f) : form.setChild i x = form.map f := by
  have hfit := withSegments_map (fun c => c) f form
  rw [map_id] at hfit
  rw [setChild, setInSegments_eq_map h, ← segments_map, hfit]

end Form

namespace Node

variable {root m n : Node} {xs : List Node}

/-- Where a child holds the place, the others stay. -/
theorem set_children_eq {c : Node} {k : Nat} (h : root.ids.Nodup) (hk : root.children[k]? = some c)
    (hn : n.id ∈ c.ids) :
    root.children.set k (c.grafted n.id xs) = root.children.map (grafted n.id xs) := by
  have hc : c ∈ root.children := List.mem_of_getElem? hk
  obtain ⟨hlt, rfl⟩ := List.getElem?_eq_some_iff.mp hk
  refine List.ext_getElem (by simp) ?_
  intro j _ hj
  rw [List.length_map] at hj
  rw [List.getElem_set, List.getElem_map]
  split
  · rename_i hkj
    subst hkj
    rfl
  · rename_i hkj
    refine (grafted_of_notMem fun hmem => hkj ?_).symm
    have heq := eq_of_mem_ids h hc (List.getElem_mem hj) hn hmem
    exact (nodup_children h).getElem_inj_iff.mp heq

/-- Putting the parent back along its path makes the graft of the whole tree. -/
theorem setAt?_grafted {path : List Nat} (h : root.ids.Nodup) (hm : root.at? path = some m)
    (hn : n ∈ m.children) :
    root.setAt? path (m.grafted n.id xs) = some (root.grafted n.id xs) := by
  induction path generalizing root with
  | nil =>
    rw [at?, Option.some_inj] at hm
    rw [setAt?, hm]
  | cons k path ih =>
    rw [at?] at hm
    obtain ⟨c, hk, hm⟩ := Option.bind_eq_some_iff.mp hm
    have hc : c ∈ root.children := List.mem_of_getElem? hk
    have hcnodup := nodup_of_mem_children h hc
    obtain ⟨above, hocc⟩ := exists_occurs_of_at? hm
    have hmem : n.id ∈ c.ids := (hocc.child hn).id_mem
    have hother : ∀ d ∈ root.children, d.graft n.id xs = [d.grafted n.id xs] := by
      intro d hd
      refine graft_of_id_ne ?_
      intro heq
      obtain rfl := eq_of_mem_ids h hc hd hmem (heq ▸ d.id_mem_ids)
      have hroot := (Occurs.root.unique hcnodup (hocc.child hn) heq).1
      exact absurd hroot.symm (List.cons_ne_nil _ _)
    have hform : root.form.setChild k (c.grafted n.id xs) =
        (root.form.map (graft n.id xs)).join := by
      rw [Form.map_congr hother, Form.join_map_singleton]
      exact Form.setChild_eq_map (set_children_eq h hk hmem)
    rw [setAt?, hk]
    change (c.setAt? path (m.grafted n.id xs) >>= fun d => some (root.setChild k d)) = _
    rw [ih hcnodup hm]
    exact congrArg (fun form => some (⟨root.id, root.span, form⟩ : Node)) hform

end Node

/-! ## The edits -/

namespace Node.GraftSite

variable {root m n : Node} {around : List Node}

/-- One node can take the place of any other. -/
theorem exchange (hnodup : root.ids.Nodup) (h : Occurs root (m :: around) n) (x : Node) :
    GraftSite root around m n [x] where
  nodup := hnodup
  occurs := h
  admits s _ := by
    cases s with
    | required c => exact fun _ => rfl
    | slot c => exact fun _ _ _ => Nat.le_refl 1
    | stmts cs => trivial
    | items cs => trivial

/-- In a list of statements any number of nodes can take the place of one. -/
theorem splice (hnodup : root.ids.Nodup) (h : Occurs root (m :: around) n)
    (hholds : m.holdsIn Segment.isStatements n.id = true) (xs : List Node) :
    GraftSite root around m n xs where
  nodup := hnodup
  occurs := h
  admits := by
    refine admits_of_holdsIn (h.parent.1.nodup hnodup) hholds ?_
    intro s hs
    cases s with
    | stmts cs => trivial
    | _ => exact Bool.noConfusion hs

/-- A node can go from any list and from any optional place. -/
theorem remove (hnodup : root.ids.Nodup) (h : Occurs root (m :: around) n)
    (hholds : m.holdsIn Segment.isList n.id = true ∨ m.holdsIn Segment.isSlot n.id = true) :
    GraftSite root around m n [] where
  nodup := hnodup
  occurs := h
  admits := by
    have hmnodup := h.parent.1.nodup hnodup
    rcases hholds with hholds | hholds
    · refine admits_of_holdsIn hmnodup hholds ?_
      intro s hs
      cases s with
      | stmts cs => trivial
      | items cs => trivial
      | _ => exact Bool.noConfusion hs
    · refine admits_of_holdsIn hmnodup hholds ?_
      intro s hs
      cases s with
      | slot c => exact fun _ _ _ => Nat.zero_le 1
      | _ => exact Bool.noConfusion hs

end Node.GraftSite

namespace TreeIndex

variable {root m n : Node} {around : List Node}

/-- An edit of the parent that is refused is refused as a whole. -/
theorem editParent_error (hnodup : root.ids.Nodup) (h : root.Occurs (m :: around) n)
    {change : Node → Except TreeError Node} {e : TreeError} (hchange : change m = .error e) :
    (of root).editParent root n.id change = .error e := by
  obtain ⟨p, hplacement, hp⟩ := IndexedTree.placement_of_occurs hnodup h
  change (of root).placement n.id = .ok p at hplacement
  have hparent : p.parent = some m.id := hp.parent
  have hfind : (of root).find? root m.id = some m := find?_of_occurs hnodup h.parent.1
  unfold editParent
  simp only [hplacement, hparent, hfind, hchange, bind, Except.bind]

/-- An edit of the parent that puts nodes in the place puts them into the tree. -/
theorem editParent_ok (hnodup : root.ids.Nodup) (h : root.Occurs (m :: around) n)
    {change : Node → Except TreeError Node} {xs : List Node}
    (hchange : change m = .ok (m.grafted n.id xs)) :
    (of root).editParent root n.id change = .ok (root.grafted n.id xs) := by
  obtain ⟨hm, hn⟩ := h.parent
  obtain ⟨p, hplacement, hp⟩ := IndexedTree.placement_of_occurs hnodup h
  obtain ⟨q, hlookup, hq⟩ := hm.exists_placement?_eq hnodup
  change (of root).placement n.id = .ok p at hplacement
  have hparent : p.parent = some m.id := hp.parent
  have hfind : (of root).find? root m.id = some m := find?_of_occurs hnodup hm
  have hupdate : ((of root).update? root m.id fun _ => m.grafted n.id xs) =
      some (root.grafted n.id xs) := by
    rw [update?, hlookup]
    change ((of root).find? root m.id >>= fun _ => root.setAt? q.path (m.grafted n.id xs)) = _
    rw [hfind]
    exact Node.setAt?_grafted hnodup hq.path hn
  unfold editParent
  simp only [hplacement, hparent, hfind, hchange, bind, Except.bind]
  rw [hupdate]
  rfl

/-- Any node can be exchanged. -/
theorem replace_of_occurs (hnodup : root.ids.Nodup) (h : root.Occurs (m :: around) n) (x : Node) :
    (of root).replace root n.id x = .ok (root.grafted n.id [x]) := by
  rw [replace, if_neg (Node.GraftSite.exchange hnodup h x).root_ne]
  refine editParent_ok hnodup h ?_
  obtain ⟨hm, hn⟩ := h.parent
  rw [Node.exchangeChild,
    Node.changeSegment?_eq (hm.nodup hnodup) hn (Segment.puts_exchange n.id x), Node.holdsIn_any hn]
  rfl

theorem replace_root (root x : Node) : (of root).replace root root.id x = .ok x := by
  rw [replace, if_pos rfl]

/-- Statements can take the place of a statement, and of nothing else. -/
theorem splice_of_occurs (hnodup : root.ids.Nodup) (h : root.Occurs (m :: around) n)
    (xs : List Node) :
    (of root).splice root n.id xs =
      if m.holdsIn Segment.isStatements n.id then .ok (root.grafted n.id xs)
      else .error (.notInStatements n.id m.id m.kind) := by
  obtain ⟨hm, hn⟩ := h.parent
  have hsegment := Node.changeSegment?_eq (hm.nodup hnodup) hn (Segment.puts_splice n.id xs)
  cases hholds : m.holdsIn Segment.isStatements n.id with
  | true =>
    refine editParent_ok hnodup h ?_
    rw [Node.spliceChild, hsegment, hholds]
    rfl
  | false =>
    refine editParent_error hnodup h ?_
    rw [Node.spliceChild, hsegment, hholds]
    rfl

/-- A node can be removed from a list or an optional place, and from no other. -/
theorem remove_of_occurs (hnodup : root.ids.Nodup) (h : root.Occurs (m :: around) n) :
    (of root).remove root n.id =
      if m.holdsIn Segment.isList n.id || m.holdsIn Segment.isSlot n.id then
        .ok (root.grafted n.id [])
      else .error (.required n.id m.id m.kind) := by
  obtain ⟨hm, hn⟩ := h.parent
  have hmnodup := hm.nodup hnodup
  have hlist := Node.changeSegment?_eq hmnodup hn (Segment.puts_takeOut n.id)
  have hslot := Node.changeSegment?_eq hmnodup hn (Segment.puts_vacate n.id)
  cases hinList : m.holdsIn Segment.isList n.id with
  | true =>
    refine editParent_ok hnodup h ?_
    rw [Node.removeChild, hlist, hinList]
    rfl
  | false =>
    cases hinSlot : m.holdsIn Segment.isSlot n.id with
    | true =>
      refine editParent_ok hnodup h ?_
      rw [Node.removeChild, hlist, hinList, hslot, hinSlot]
      rfl
    | false =>
      refine editParent_error hnodup h ?_
      have hany : m.children.any (·.id = n.id) = true := List.any_eq_true.mpr ⟨n, hn, by simp⟩
      rw [Node.removeChild, hlist, hinList, hslot, hinSlot]
      simp [hany]

/-- Nothing takes the place of the root but another node. -/
theorem editParent_root (root : Node) (hnodup : root.ids.Nodup)
    (change : Node → Except TreeError Node) :
    (of root).editParent root root.id change = .error (.detachedRoot root.id) := by
  obtain ⟨p, hplacement, hp⟩ := IndexedTree.placement_of_occurs hnodup .root
  change (of root).placement root.id = .ok p at hplacement
  have hparent : p.parent = none := hp.parent
  unfold editParent
  simp only [hplacement, hparent, bind, Except.bind]
  rfl

end TreeIndex

/-! ## Edits as one -/

namespace TreeError

/-- The place of a node does not admit the edit. -/
def IsRefusal : TreeError → Prop
  | notInStatements .. | required .. | detachedRoot _ => True
  | unattached _ | duplicate _ | notChild .. => False

/-- The place of a child does not let the child go. -/
def IsMisplaced : TreeError → Prop
  | notInStatements .. | required .. => True
  | unattached _ | duplicate _ | notChild .. | detachedRoot _ => False

end TreeError

namespace Edit

/-- The nodes that an edit puts in the place of a node. -/
def puts : Edit → List Node
  | replace x => [x]
  | splice xs => xs
  | keep | remove => []

variable {root m n : Node} {around : List Node}

/-- An edit below the root is a graft, or the place refuses it.  A list of statements refuses
nothing, and only another node comes in the place of a child that must be there. -/
theorem apply_of_occurs {edit : Edit} (hedit : edit ≠ .keep) (hnodup : root.ids.Nodup)
    (h : root.Occurs (m :: around) n) :
    (∃ e : TreeError, edit.apply (.of root) root n.id = .error e ∧ e.IsRefusal ∧
      m.holdsIn Segment.isStatements n.id = false ∧ ∀ x, edit ≠ .replace x) ∨
    (edit.apply (.of root) root n.id = .ok (root.grafted n.id edit.puts) ∧
      Node.GraftSite root around m n edit.puts ∧
      (m.holdsIn Segment.isLoose n.id = true ∨ ∃ x, edit = .replace x)) := by
  cases edit with
  | keep => exact absurd rfl hedit
  | replace x =>
    exact .inr ⟨TreeIndex.replace_of_occurs hnodup h x, .exchange hnodup h x, .inr ⟨x, rfl⟩⟩
  | splice xs =>
    have happly := TreeIndex.splice_of_occurs hnodup h xs
    cases hholds : m.holdsIn Segment.isStatements n.id with
    | false =>
      rw [hholds] at happly
      exact .inl ⟨_, happly, trivial, rfl, by simp⟩
    | true =>
      rw [hholds] at happly
      have hloose : m.holdsIn Segment.isLoose n.id = true :=
        Node.holdsIn_mono (fun s hs => by cases s <;> first | rfl | exact hs) hholds
      exact .inr ⟨happly, .splice hnodup h hholds xs, .inl hloose⟩
  | remove =>
    have happly := TreeIndex.remove_of_occurs hnodup h
    cases hholds : m.holdsIn Segment.isList n.id || m.holdsIn Segment.isSlot n.id with
    | false =>
      rw [hholds] at happly
      refine .inl ⟨_, happly, trivial, ?_, by simp⟩
      rw [Bool.or_eq_false_iff] at hholds
      rw [Bool.eq_false_iff]
      intro hstmts
      have hlist : m.holdsIn Segment.isList n.id = true :=
        Node.holdsIn_mono (fun s hs => by cases s <;> first | rfl | exact hs) hstmts
      exact absurd (hlist.symm.trans hholds.1) (by simp)
    | true =>
      rw [hholds] at happly
      rw [Bool.or_eq_true] at hholds
      exact .inr ⟨happly, .remove hnodup h hholds, .inl ((Node.holdsIn_isLoose m n.id).mpr hholds)⟩

/-- Why a parent does not let an edit take one of its children away. -/
def refusal? (m : Node) (i : Nat) : Edit → Option TreeError
  | keep | replace _ => none
  | splice _ =>
    if m.holdsIn Segment.isStatements i then none else some (.notInStatements i m.id m.kind)
  | remove =>
    if m.holdsIn Segment.isList i || m.holdsIn Segment.isSlot i then none
    else some (.required i m.id m.kind)

theorem isMisplaced_of_refusal? {edit : Edit} {i : Nat} {e : TreeError}
    (h : edit.refusal? m i = some e) : e.IsMisplaced := by
  cases edit with
  | keep => exact nomatch h
  | replace x => exact nomatch h
  | splice xs =>
    rw [refusal?] at h
    split at h
    · exact nomatch h
    · exact Option.some.inj h ▸ trivial
  | remove =>
    rw [refusal?] at h
    split at h
    · exact nomatch h
    · exact Option.some.inj h ▸ trivial

/-- What becomes of an edit below the root is for the parent to say. -/
theorem apply_eq_of_occurs {edit : Edit} (hedit : edit ≠ .keep) (hnodup : root.ids.Nodup)
    (h : root.Occurs (m :: around) n) :
    edit.apply (.of root) root n.id =
      match edit.refusal? m n.id with
      | none => .ok (root.grafted n.id edit.puts)
      | some e => .error e := by
  cases edit with
  | keep => exact absurd rfl hedit
  | replace x => exact TreeIndex.replace_of_occurs hnodup h x
  | splice xs =>
    rw [apply, TreeIndex.splice_of_occurs hnodup h, refusal?]
    split <;> rfl
  | remove =>
    rw [apply, TreeIndex.remove_of_occurs hnodup h, refusal?]
    split <;> rfl

/-- The root can be exchanged, and nothing else. -/
theorem apply_root {edit : Edit} (hedit : edit ≠ .keep) (hnodup : root.ids.Nodup) :
    (∃ e : TreeError, edit.apply (.of root) root root.id = .error e ∧ e.IsRefusal) ∨
      ∃ x, edit = .replace x ∧ edit.apply (.of root) root root.id = .ok x := by
  cases edit with
  | keep => exact absurd rfl hedit
  | replace x => exact .inr ⟨x, rfl, TreeIndex.replace_root root x⟩
  | splice xs => exact .inl ⟨_, TreeIndex.editParent_root root hnodup _, trivial⟩
  | remove => exact .inl ⟨_, TreeIndex.editParent_root root hnodup _, trivial⟩

end Edit

end PhpRefactor
