import PhpRefactor.Proofs.Engine.Run
import PhpRefactor.Proofs.Index.Edit

/-!
# How far a pass has come

Between two visits of a pass the tree falls into what was visited and what is still to come.  In
pre-order the identities of the visited nodes stand first, and then come, one whole subtree after
the other, the nodes that are pending: this is `PassState.Frontier`, and it holds whatever the
rules answer.  It says that the index is that of the present tree, so that a node is always found
where the index leads, and that pending subtrees lie apart, so that an edit of one leaves the
others.

`Frontier.apply_cases` is what one edit does to it.
-/

set_option autoImplicit false

namespace PhpRefactor

namespace Edit

/-- The identities that an edit brings in and that count as visited: that of a node in place of
another. -/
def passed : Edit → List Nat
  | replace x => [x.id]
  | keep | splice _ | remove => []

/-- The nodes that an edit brings in and that are to be visited. -/
def incoming : Edit → List Node
  | replace x => x.children
  | splice xs => xs
  | keep | remove => []

/-- The identities that an edit brings in. -/
def brought (edit : Edit) : List Nat := edit.passed ++ edit.incoming.flatMap Node.ids

theorem brought_eq (edit : Edit) : edit.brought = edit.puts.flatMap Node.ids := by
  cases edit with
  | replace x => simp [brought, passed, incoming, puts, Node.ids_eq x]
  | _ => simp [brought, passed, incoming, puts]

theorem exists_puts_of_mem_incoming (edit : Edit) {p : Node} (hp : p ∈ edit.incoming) :
    ∃ x ∈ edit.puts, p ∈ x.preorder := by
  cases edit with
  | replace x => exact ⟨x, List.mem_cons_self, Node.mem_preorder_iff.mpr ⟨_, .child .root hp⟩⟩
  | splice xs => exact ⟨p, hp, Node.mem_preorder_iff.mpr ⟨_, .root⟩⟩
  | keep => exact absurd hp List.not_mem_nil
  | remove => exact absurd hp List.not_mem_nil

theorem arrivals_eq (edit : Edit) : edit.arrivals = edit.incoming.map (·.id) := by
  cases edit <;> rfl

end Edit

namespace PassState

/-- In pre-order, the identities of the visited nodes come first and then the pending subtrees. -/
structure Frontier (s : PassState) (done : List Nat) (ahead : List Node) : Prop where
  index_eq : s.index = .of s.tree
  nodup : s.tree.ids.Nodup
  pending_eq : s.pending = ahead.map (·.id)
  ids_eq : s.tree.ids = done ++ ahead.flatMap Node.ids
  mem : ∀ n ∈ ahead, n ∈ s.tree.preorder

/-- The state in which a node is offered to the rules, and what they found. -/
def asked (s : PassState) (n : Node) (rest : List Nat) (found : Offer) : PassState :=
  { s with
    pending := rest, visits := s.visits + 1, offered := n.id :: s.offered, stats := found.stats
    next := found.next }

namespace Frontier

variable {s : PassState} {done : List Nat} {n : Node} {ahead : List Node}

theorem start {tree : Node} (h : tree.ids.Nodup) (next : Nat) (stats : Stats) :
    Frontier (.start tree (.of tree) next stats) [] [tree] where
  index_eq := rfl
  nodup := h
  pending_eq := rfl
  ids_eq := by
    rw [List.flatMap_singleton]
    rfl
  mem m hm := by
    rw [List.mem_singleton.mp hm, Node.preorder_eq]
    exact List.mem_cons_self

theorem find?_eq (F : Frontier s done ahead) (hn : n ∈ ahead) :
    s.index.find? s.tree n.id = some n := by
  obtain ⟨around, h⟩ := Node.mem_preorder_iff.mp (F.mem n hn)
  rw [F.index_eq]
  exact TreeIndex.find?_of_occurs F.nodup h

/-- What was visited and what is ahead can be read off the state. -/
theorem unique {done' : List Nat} {ahead' : List Node} (F : Frontier s done ahead)
    (F' : Frontier s done' ahead') :
    done = done' ∧ ahead = ahead' := by
  have hfound : ∀ {d : List Nat} {l : List Node}, Frontier s d l →
      s.pending.map (s.index.find? s.tree) = l.map some := by
    intro d l G
    rw [G.pending_eq, List.map_map]
    exact List.map_congr_left fun p hp => G.find?_eq hp
  have hahead : ahead = ahead' :=
    List.map_injective_iff.mpr (fun _ _ => Option.some.inj) ((hfound F).symm.trans (hfound F'))
  subst hahead
  exact ⟨List.append_cancel_right (F.ids_eq.symm.trans F'.ids_eq), rfl⟩

/-- The next visit is that of the first pending node. -/
theorem step_eq (F : Frontier s done (n :: ahead)) (rules : List Rule) (oracle : Oracle)
    (pass : Nat) :
    s.step rules oracle pass =
      visit rules oracle pass { s with pending := ahead.map (·.id) } n := by
  have hpending : s.pending = n.id :: ahead.map (·.id) := F.pending_eq
  rw [step, hpending]
  dsimp only
  rw [F.find?_eq List.mem_cons_self]

section

variable {rules : List Rule} {oracle : Oracle} {pass : Nat}

/-- A node that was offered before is only walked through. -/
theorem step_of_offered (F : Frontier s done (n :: ahead)) (h : n.id ∈ s.offered) :
    s.step rules oracle pass =
      .ok (descend { s with pending := ahead.map (·.id), visits := s.visits + 1 } n) := by
  rw [F.step_eq, visit]
  exact if_pos h

/-- A node that was not offered before is offered to the rules, and kept. -/
theorem step_of_keep (F : Frontier s done (n :: ahead)) (h : n.id ∉ s.offered) {found : Offer}
    (hfound : offer ⟨⟨s.tree, s.index⟩, oracle, pass⟩ n s.stats s.next rules = found)
    (hanswer : found.answer = .ok .keep) :
    s.step rules oracle pass = .ok ((s.asked n (ahead.map (·.id)) found).descend n) := by
  subst hfound
  rw [F.step_eq, visit]
  dsimp only
  rw [if_neg h, hanswer]
  rfl

/-- A rule that fails fails the visit. -/
theorem step_of_error (F : Frontier s done (n :: ahead)) (h : n.id ∉ s.offered) {found : Offer}
    (hfound : offer ⟨⟨s.tree, s.index⟩, oracle, pass⟩ n s.stats s.next rules = found)
    {e : RunError} (hanswer : found.answer = .error e) :
    s.step rules oracle pass = .error ⟨e, s.asked n (ahead.map (·.id)) found⟩ := by
  subst hfound
  rw [F.step_eq, visit]
  dsimp only
  rw [if_neg h, hanswer]
  rfl

/-- A node that was not offered before is offered to the rules, and edited. -/
theorem step_of_edit (F : Frontier s done (n :: ahead)) (h : n.id ∉ s.offered) {found : Offer}
    (hfound : offer ⟨⟨s.tree, s.index⟩, oracle, pass⟩ n s.stats s.next rules = found) {edit : Edit}
    (hanswer : found.answer = .ok edit) (hedit : edit ≠ .keep) :
    s.step rules oracle pass = (s.asked n (ahead.map (·.id)) found).carryOut n.id edit := by
  subst hfound
  rw [F.step_eq, visit]
  dsimp only
  rw [if_neg h, hanswer]
  cases edit with
  | keep => exact absurd rfl hedit
  | _ => rfl

end

/-- Walking on to the children of a node. -/
theorem descend (F : Frontier s done (n :: ahead)) {s' : PassState} (htree : s'.tree = s.tree)
    (hindex : s'.index = s.index)
    (hpending : s'.pending = n.children.map (·.id) ++ ahead.map (·.id)) :
    Frontier s' (done ++ [n.id]) (n.children ++ ahead) where
  index_eq := by rw [htree, hindex, F.index_eq]
  nodup := htree ▸ F.nodup
  pending_eq := by rw [hpending, List.map_append]
  ids_eq := by
    rw [htree, F.ids_eq, List.flatMap_cons, Node.ids_eq, List.flatMap_append]
    simp
  mem m hm := by
    rw [htree]
    obtain ⟨around, hn⟩ := Node.mem_preorder_iff.mp (F.mem n List.mem_cons_self)
    rcases List.mem_append.mp hm with hm | hm
    · exact Node.mem_preorder_iff.mpr ⟨_, hn.child hm⟩
    · exact F.mem m (List.mem_cons_of_mem _ hm)

/-- What is pending lies apart from the node whose turn it is. -/
theorem apart (F : Frontier s done (n :: ahead)) {p : Node} (hp : p ∈ ahead) {i : Nat}
    (hi : i ∈ n.ids) : i ∉ p.ids := by
  have h := F.nodup
  rw [F.ids_eq, List.flatMap_cons, List.nodup_append, List.nodup_append] at h
  exact fun hip => h.2.1.2.2 i hi i (List.mem_flatMap_of_mem hp hip) rfl

/-- A graft at the node whose turn it is changes the listing in its place, whatever is listed of the
nodes, as long as that tells them apart and a graft elsewhere does not change it. -/
theorem map_preorder_grafted {α : Type} (F : Frontier s done (n :: ahead)) {around : List Node}
    {m : Node} {xs : List Node} (site : Node.GraftSite s.tree around m n xs) {f : Node → α}
    (hf : ∀ p : Node, f (p.grafted n.id xs) = f p) (hid : ∀ p q : Node, f p = f q → p.id = q.id)
    {before : List α}
    (heq : s.tree.preorder.map f = before ++ ((n :: ahead).flatMap Node.preorder).map f) :
    (s.tree.grafted n.id xs).preorder.map f =
      before ++ (xs.flatMap Node.preorder).map f ++ (ahead.flatMap Node.preorder).map f := by
  obtain ⟨l, r, hlisting, hgrafted⟩ := site.exists_map_preorder_eq f hf
  have hnodup : (s.tree.preorder.map f).Nodup := by
    have hids : (s.tree.preorder.map (·.id)).Nodup := F.nodup
    rw [List.Nodup, List.pairwise_map] at hids ⊢
    exact hids.imp fun hne h => hne (hid _ _ h)
  have hsplit : l ++ f n :: ((n.children.flatMap Node.preorder).map f ++ r) =
      before ++ f n :: ((n.children.flatMap Node.preorder).map f ++
        (ahead.flatMap Node.preorder).map f) := by
    rw [hlisting, List.flatMap_cons, Node.preorder_eq] at heq
    simpa using heq
  have hl : f n ∉ l := by
    have h := hnodup
    rw [hlisting, Node.preorder_eq, List.nodup_append, List.nodup_append] at h
    exact fun hmem => h.1.2.2 (f n) hmem (f n) List.mem_cons_self rfl
  have hr : f n ∉ (n.children.flatMap Node.preorder).map f ++ r := by
    have h := hnodup
    rw [hlisting, Node.preorder_eq, List.map_cons, List.append_assoc, List.nodup_append,
      List.cons_append, List.nodup_cons] at h
    exact h.2.1.1
  obtain ⟨rfl, -, hrest⟩ := (List.append_cons_inj_of_notMem hl hr).mp hsplit
  obtain rfl := List.append_cancel_left hrest
  exact hgrafted

/-- A graft at the node whose turn it is changes the identities in its place. -/
theorem ids_grafted (F : Frontier s done (n :: ahead)) {around : List Node} {m : Node}
    {xs : List Node} (site : Node.GraftSite s.tree around m n xs) :
    (s.tree.grafted n.id xs).ids = done ++ xs.flatMap Node.ids ++ ahead.flatMap Node.ids := by
  have heq := F.ids_eq
  rw [← Node.map_id_flatMap_preorder] at heq
  rw [← Node.map_id_flatMap_preorder, ← Node.map_id_flatMap_preorder]
  exact F.map_preorder_grafted site (fun _ => rfl) (fun _ _ h => h) heq

/-- What is pending stays where a graft is made elsewhere, and what is put in is there. -/
theorem mem_grafted (F : Frontier s done (n :: ahead)) {around : List Node} {m : Node}
    {xs : List Node} (site : Node.GraftSite s.tree around m n xs) {p : Node}
    (hp : p ∈ xs ++ ahead) : p ∈ (s.tree.grafted n.id xs).preorder := by
  rcases List.mem_append.mp hp with hp | hp
  · exact Node.mem_preorder_iff.mpr ⟨_, site.occurs_of_mem hp⟩
  · refine site.mem_preorder (F.mem p (List.mem_cons_of_mem _ hp)) ?_ ?_
    · exact F.apart hp n.id_mem_ids
    · exact fun hbelow => F.apart hp (List.mem_map_of_mem hbelow) p.id_mem_ids

/-- The node whose turn it is, if it is the root, is all that is pending. -/
theorem eq_nil_of_root (F : Frontier s done (n :: ahead)) (h : s.tree = n) :
    done = [] ∧ ahead = [] := by
  have hids := F.ids_eq
  rw [h, List.flatMap_cons] at hids
  have hlength := congrArg List.length hids
  rw [List.length_append, List.length_append] at hlength
  have hdone : done = [] := List.length_eq_zero_iff.mp (by omega)
  have hahead : ahead.flatMap Node.ids = [] := List.length_eq_zero_iff.mp (by omega)
  refine ⟨hdone, List.eq_nil_iff_forall_not_mem.mpr fun p hp => ?_⟩
  have hmem := List.mem_flatMap_of_mem hp p.id_mem_ids
  rw [hahead] at hmem
  exact absurd hmem List.not_mem_nil

/-- An edit of the node whose turn it is: the place refuses it, or what it brings in comes between
what was visited and what is pending. -/
theorem apply_cases (F : Frontier s done (n :: ahead)) {edit : Edit} (hedit : edit ≠ .keep) :
    (∃ e : TreeError, edit.apply s.index s.tree n.id = .error e ∧ e.IsRefusal) ∨
      ∃ tree, edit.apply s.index s.tree n.id = .ok tree ∧
        tree.ids = done ++ edit.passed ++ (edit.incoming ++ ahead).flatMap Node.ids ∧
        ∀ p ∈ edit.incoming ++ ahead, p ∈ tree.preorder := by
  obtain ⟨around, hn⟩ := Node.mem_preorder_iff.mp (F.mem n List.mem_cons_self)
  rw [F.index_eq]
  cases around with
  | nil =>
    obtain ⟨-, rfl⟩ | ⟨c, hc, above, habove, -⟩ := hn.eq_root_or_below
    · obtain ⟨rfl, rfl⟩ := F.eq_nil_of_root rfl
      rcases Edit.apply_root hedit F.nodup with ⟨e, happly, hrefusal⟩ | ⟨x, rfl, happly⟩
      · exact .inl ⟨e, happly, hrefusal⟩
      · refine .inr ⟨x, happly, ?_, fun p hp => ?_⟩
        · simp [Edit.passed, Edit.incoming, Node.ids_eq x]
        · rw [List.append_nil] at hp
          exact Node.mem_preorder_iff.mpr ⟨_, .child .root hp⟩
    · exact absurd habove (by simp)
  | cons m around =>
    rcases Edit.apply_of_occurs hedit F.nodup hn with ⟨e, happly, hrefusal, -⟩ | ⟨happly, site, -⟩
    · exact .inl ⟨e, happly, hrefusal⟩
    · refine .inr ⟨_, happly, ?_, fun p hp => ?_⟩
      · rw [F.ids_grafted site, ← edit.brought_eq, Edit.brought, List.flatMap_append]
        simp
      · rcases List.mem_append.mp hp with hp | hp
        · obtain ⟨x, hx, hbelow⟩ := edit.exists_puts_of_mem_incoming hp
          obtain ⟨_, hoccurs⟩ :=
            Node.mem_preorder_iff.mp (F.mem_grafted site (List.mem_append_left _ hx))
          exact hoccurs.preorder_subset hbelow
        · exact F.mem_grafted site (List.mem_append_right _ hp)

/-- An identity that is repeated after an edit was brought in by it. -/
theorem mem_brought (F : Frontier s done (n :: ahead)) {edit : Edit} {tree : Node} {i : Nat}
    (hids : tree.ids = done ++ edit.passed ++ (edit.incoming ++ ahead).flatMap Node.ids)
    (htwice : 2 ≤ tree.ids.count i) : i ∈ edit.brought := by
  by_contra hnot
  have hnone : edit.brought.count i = 0 := List.count_eq_zero.mpr hnot
  have hold : (done ++ ahead.flatMap Node.ids).count i ≤ 1 := by
    have hsublist : (done ++ ahead.flatMap Node.ids).Sublist s.tree.ids := by
      rw [F.ids_eq, List.flatMap_cons]
      exact (List.Sublist.refl done).append (List.sublist_append_right _ _)
    exact Nat.le_trans (hsublist.count_le i) (List.nodup_iff_count_le_one.mp F.nodup i)
  rw [hids] at htwice
  simp only [Edit.brought, List.flatMap_append, List.count_append] at hnone hold htwice
  omega

/-- Carrying out what the rules asked for: the place refuses it, or an identity that was brought in
is repeated in the new tree, or the pass goes on with the new tree and its index. -/
theorem carryOut_cases (F : Frontier s done (n :: ahead)) {edit : Edit} (hedit : edit ≠ .keep)
    (found : Offer) :
    (∃ e : TreeError, edit.apply s.index s.tree n.id = .error e ∧ e.IsRefusal ∧
      (s.asked n (ahead.map (·.id)) found).carryOut n.id edit =
        .error ⟨.badTree e, { s.asked n (ahead.map (·.id)) found with edits := s.edits + 1 }⟩) ∨
    (∃ tree i, edit.apply s.index s.tree n.id = .ok tree ∧
      TreeIndex.ofTree tree = .error (.duplicate i) ∧ i ∈ edit.brought ∧
      (s.asked n (ahead.map (·.id)) found).carryOut n.id edit =
        .error ⟨.badTree (.duplicate i),
          { s.asked n (ahead.map (·.id)) found with tree, edits := s.edits + 1 }⟩) ∨
    ∃ tree s', edit.apply s.index s.tree n.id = .ok tree ∧
      s' = { s.asked n (ahead.map (·.id)) found with
        tree, index := .of tree, edits := s.edits + 1
        pending := edit.arrivals ++ ahead.map (·.id) } ∧
      (s.asked n (ahead.map (·.id)) found).carryOut n.id edit = .ok s' ∧
      Frontier s' (done ++ edit.passed) (edit.incoming ++ ahead) := by
  rcases F.apply_cases hedit with ⟨e, happly, hrefusal⟩ | ⟨tree, happly, hids, hmem⟩
  · refine .inl ⟨e, happly, hrefusal, ?_⟩
    rw [carryOut]
    simp only [asked, happly]
  · by_cases hnodup : tree.ids.Nodup
    · refine .inr (.inr ⟨tree, _, happly, rfl, ?_, ?_⟩)
      · rw [carryOut]
        simp only [asked, happly, TreeIndex.ofTree_of_nodup hnodup]
      · refine ⟨rfl, hnodup, ?_, hids, hmem⟩
        rw [List.map_append, ← edit.arrivals_eq]
    · obtain ⟨i, hrepeated, htwice⟩ := TreeIndex.exists_duplicate_of_not_nodup hnodup
      refine .inr (.inl ⟨tree, i, happly, hrepeated, F.mem_brought hids htwice, ?_⟩)
      rw [carryOut]
      simp only [asked, happly, hrepeated]

end Frontier

end PassState

end PhpRefactor
