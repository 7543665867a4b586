import PhpRefactor.Proofs.Rule.Quiet
import PhpRefactor.Proofs.Syntax.Rewrite

/-!
# What an unwrapped `if` changes for others

Where an `if` that is always true stands in a list of statements, its body comes in its place
(`Node.UnwrapSite`).  Every node of the new tree was there before, and the nodes around it are those
that were around it, less the `if` (`UnwrapSite.occurs_cases`).

The `if` is no declaration, so classes, functions and constructors are found as before, and it
rebinds nothing.  So whether a fetch is to be made longer does not depend on it
(`UnwrapSite.containerIn?_graftedAround`).
-/

set_option autoImplicit false

namespace PhpRefactor

namespace Node

/-- An `if` that is always true, in a list of statements. -/
structure UnwrapSite (root : Node) (around : List Node) (m n : Node) (body : List Node) :
    Prop extends GraftSite root around m n body where
  stmts : m.holdsIn Segment.isStatements n.id = true
  noClass : m.kind ≠ .classDecl
  noConstructor : m.isConstructor = false
  form : ∃ cond member, n.form = .ifStmt cond body [] none ∧
    TrueCondition.fetchedMember? cond = some member

namespace UnwrapSite

variable {root m n p : Node} {around outer body : List Node}

theorem kind_eq (site : UnwrapSite root around m n body) : n.kind = .ifStmt := by
  obtain ⟨cond, member, hform, -⟩ := site.form
  rw [kind, hform]
  rfl

/-- The condition is a fetch from a variable. -/
theorem exists_children_eq (site : UnwrapSite root around m n body) :
    ∃ cond object, n.children = cond :: body ∧ cond.preorder = [cond, object] ∧
      cond.kind = .fetch ∧ object.kind = .var := by
  obtain ⟨cond, member, hform, hmember⟩ := site.form
  obtain ⟨object, hcond, hobject⟩ := TrueCondition.fetchedMember?_eq_some_iff.mp hmember
  refine ⟨cond, object, ?_, ?_, by rw [kind, hcond]; rfl, by rw [kind, hobject]; rfl⟩
  · simp [children, Form.children, hform, Form.segments, Segment.toList]
  · simp [preorder_eq, children, Form.children, hcond, hobject, Form.segments, Segment.toList]

/-- What the body holds was in the tree before. -/
theorem mem_preorder_of_mem_body (site : UnwrapSite root around m n body) {x : Node} (hx : x ∈ body)
    (hp : p ∈ x.preorder) : p ∈ root.preorder := by
  obtain ⟨cond, object, hchildren, -⟩ := site.exists_children_eq
  have hxn : x ∈ n.children := by
    rw [hchildren]
    exact List.mem_cons_of_mem _ hx
  exact (site.occurs.child hxn).preorder_subset hp

/-- Wherever the `if` is met around a node, it is the `if`. -/
theorem kind_of_mem_around (site : UnwrapSite root around m n body) (hp : Occurs root outer p) :
    ∀ a ∈ outer, a.id = n.id → a.kind = .ifStmt := by
  intro a ha hid
  obtain ⟨-, rest, -, hoccurs, -⟩ := hp.of_mem_around ha
  obtain ⟨-, rfl⟩ := hoccurs.unique site.nodup site.occurs hid
  exact site.kind_eq

/-- What is not the `if` and not in its condition is found in the body first if it is found in the
`if` first. -/
theorem find?_place (site : UnwrapSite root around m n body) {P : Node → Bool}
    (hP : ∀ q : Node, P q = true → q.kind ≠ .ifStmt ∧ q.kind ≠ .fetch ∧ q.kind ≠ .var) :
    (body.flatMap preorder).find? P = (n.preorder.find? P).map (grafted n.id body) := by
  obtain ⟨cond, object, hchildren, hcond, hfetch, hvar⟩ := site.exists_children_eq
  have hn : P n = false := by
    rw [Bool.eq_false_iff]
    exact fun h => (hP n h).1 site.kind_eq
  have hnone : (n.preorder.find? P) = (body.flatMap preorder).find? P := by
    have h1 : P cond = false := by
      rw [Bool.eq_false_iff]
      exact fun h => (hP cond h).2.1 hfetch
    have h2 : P object = false := by
      rw [Bool.eq_false_iff]
      exact fun h => (hP object h).2.2 hvar
    rw [preorder_eq, hchildren, List.flatMap_cons, hcond]
    simp [hn, h1, h2]
  rw [hnone]
  cases hfound : (body.flatMap preorder).find? P with
  | none => rfl
  | some q =>
    -- What stands in the body is not touched by the graft.
    obtain ⟨c, hc, hq⟩ := List.mem_flatMap.mp (List.mem_of_find?_eq_some hfound)
    obtain ⟨above, hoccurs⟩ := mem_preorder_iff.mp hq
    have hcn : c ∈ n.children := by
      rw [hchildren]
      exact List.mem_cons_of_mem _ hc
    have hnodup := site.occurs.nodup site.nodup
    have hnot : n.id ∉ q.ids :=
      fun hmem => id_notMem_of_mem_children hnodup hcn (hoccurs.ids_subset hmem)
    rw [Option.map_some, grafted_of_notMem hnot]

theorem quiet (site : UnwrapSite root around m n body) : QuietSite root around m n body where
  toGraftSite := site.toGraftSite
  single s hs hsort hholds := by
    obtain ⟨c, hc, hid⟩ := List.mem_map.mp (Segment.holds_iff.mp hholds)
    have hnodup := site.occurs.parent.1.nodup site.nodup
    exact absurd hid (id_ne_of_holdsIn hnodup site.stmts hs hsort hc)
  rebindings name := by
    refine site.find?_place fun q hq => ?_
    unfold Scope.isRebinding at hq
    split at hq
    · rename_i hform
      simp [kind, hform, Form.kind]
    · rename_i hform
      simp [kind, hform, Form.kind]
    · exact absurd hq (by simp)

/-! ## Where nodes stand afterwards -/

/-- What stands in the body stays as it is, and the `if` is no longer around it. -/
theorem in_body (site : UnwrapSite root around m n body) {x q : Node} {inner : List Node}
    (hx : x ∈ body) (hq : Occurs x inner q) :
    Occurs root (inner ++ n :: m :: around) q ∧ q.id ≠ n.id ∧ q.grafted n.id body = q ∧
      graftedAround n.id body (inner ++ n :: m :: around) =
        inner ++ (m :: around).map (grafted n.id body) := by
  obtain ⟨cond, object, hchildren, -⟩ := site.exists_children_eq
  have hxn : x ∈ n.children := by
    rw [hchildren]
    exact List.mem_cons_of_mem _ hx
  have hnot := id_notMem_of_mem_children (site.occurs.nodup site.nodup) hxn
  have hsame : ∀ a : Node, a.ids ⊆ x.ids → a.id ≠ n.id ∧ a.grafted n.id body = a := by
    intro a ha
    exact ⟨fun heq => hnot (ha (heq ▸ a.id_mem_ids)), grafted_of_notMem fun hmem => hnot (ha hmem)⟩
  have hinner : ∀ a ∈ inner, a.id ≠ n.id ∧ a.grafted n.id body = a := by
    intro a ha
    obtain ⟨-, rest, -, hoccurs, -⟩ := hq.of_mem_around ha
    exact hsame a hoccurs.ids_subset
  have houter : ∀ a ∈ m :: around, a.id ≠ n.id := by
    intro a ha heq
    exact site.occurs.id_notMem_of_mem_around site.nodup ha (heq ▸ n.id_mem_ids)
  have hmap : inner.map (grafted n.id body) = inner := by
    conv_rhs => rw [← List.map_id inner]
    exact List.map_congr_left fun a ha => (hinner a ha).2
  obtain ⟨hne, hgrafted⟩ := hsame q hq.ids_subset
  refine ⟨(site.occurs.child hxn).trans hq, hne, hgrafted, ?_⟩
  rw [graftedAround, List.filter_append, List.map_append]
  change graftedAround n.id body inner ++ graftedAround n.id body (n :: m :: around) = _
  rw [graftedAround_of_apart fun a ha => (hinner a ha).1, graftedAround_cons_of_eq rfl,
    graftedAround_of_apart houter, hmap]

/-- Every node of the new tree was there before, and below the same nodes but for the `if`. -/
theorem occurs_cases (site : UnwrapSite root around m n body) {above : List Node} {q : Node}
    (hq : Occurs (root.grafted n.id body) above q) :
    ∃ outer p, Occurs root outer p ∧ p.id ≠ n.id ∧ q = p.grafted n.id body ∧
      above = graftedAround n.id body outer := by
  rcases site.toGraftSite.occurs_cases hq with
    ⟨outer, p, hp, hne, rfl, rfl⟩ | ⟨x, hx, inner, hinner, rfl⟩
  · refine ⟨outer, p, hp, hne p List.mem_cons_self, rfl, ?_⟩
    exact (graftedAround_of_apart fun a ha => hne a (List.mem_cons_of_mem _ ha)).symm
  · obtain ⟨hoccurs, hne, hgrafted, haround⟩ := site.in_body hx hinner
    exact ⟨_, q, hoccurs, hne, hgrafted.symm, haround.symm⟩

/-- Every `if` but the one that made way is still there. -/
theorem occurs_of_ne (site : UnwrapSite root around m n body) (hp : Occurs root outer p)
    (hne : p.id ≠ n.id) (hkind : p.kind = .ifStmt) :
    Occurs (root.grafted n.id body) (graftedAround n.id body outer) (p.grafted n.id body) := by
  by_cases hbelow : ∃ a ∈ outer, a.id = n.id
  · obtain ⟨a, ha, hid⟩ := hbelow
    obtain ⟨above, rest, rfl, hoccurs, hunder⟩ := hp.of_mem_around ha
    obtain ⟨rfl, rfl⟩ := hoccurs.unique site.nodup site.occurs hid
    obtain ⟨cond, object, hchildren, hcond, hfetch, hvar⟩ := site.exists_children_eq
    rcases hunder.eq_root_or_below with ⟨hnil, -⟩ | ⟨c, hc, inner, heq, hinner⟩
    · exact absurd hnil (by simp)
    · obtain ⟨rfl, -⟩ := List.append_inj' heq rfl
      rw [hchildren, List.mem_cons] at hc
      rcases hc with rfl | hc
      · -- The condition holds no statement.
        have hmem : p ∈ c.preorder := mem_preorder_iff.mpr ⟨above, hinner⟩
        rw [hcond] at hmem
        simp only [List.mem_cons, List.not_mem_nil, or_false] at hmem
        rcases hmem with rfl | rfl
        · exact absurd (hfetch.symm.trans hkind) (by decide)
        · exact absurd (hvar.symm.trans hkind) (by decide)
      · obtain ⟨-, -, hgrafted, haround⟩ := site.in_body hc hinner
        rw [hgrafted, haround]
        exact (site.occurs_of_mem hc).trans hinner
  · have hapart : ∀ a ∈ p :: outer, a.id ≠ n.id := by
      intro a ha hid
      rcases List.mem_cons.mp ha with rfl | ha
      · exact hne hid
      · exact hbelow ⟨a, ha, hid⟩
    rw [graftedAround_of_apart fun a ha => hapart a (List.mem_cons_of_mem _ ha)]
    exact site.occurs_of_apart hp hapart

/-- What a node stands below is a fetch if it was one before. -/
theorem isFetched_graftedAround (site : UnwrapSite root around m n body)
    (hp : Occurs root outer p) :
    ((graftedAround n.id body outer).head?.any fun parent => parent.kind = .fetch) =
      outer.head?.any fun parent => parent.kind = .fetch := by
  cases outer with
  | nil => rfl
  | cons a outer =>
    by_cases hid : a.id = n.id
    · -- Now the parent of the `if` is the parent, and it has statements.
      obtain ⟨rfl, rfl⟩ := hp.parent.1.unique site.nodup site.occurs hid
      have hne : m.id ≠ a.id := fun heq =>
        site.occurs.id_notMem_of_mem_around site.nodup List.mem_cons_self (heq ▸ a.id_mem_ids)
      have hloose : m.holdsIn Segment.isLoose a.id = true :=
        holdsIn_mono (fun s hs => by cases s <;> first | rfl | exact hs) site.stmts
      have hm := kind_ne_fetch_of_holdsIn hloose
      rw [graftedAround_cons_of_eq rfl, graftedAround_cons_of_ne hne]
      simp [hm, site.kind_eq]
    · rw [graftedAround_cons_of_ne hid]
      simp

/-- Whether a fetch is to be made longer does not depend on the `if`. -/
theorem containerIn?_graftedAround (site : UnwrapSite root around m n body)
    (hp : Occurs root outer p) (access : CanonicalAccess) :
    access.containerIn? .declared (graftedAround n.id body outer) (p.grafted n.id body) =
      access.containerIn? .declared outer p := by
  have hkind := site.kind_of_mem_around hp
  exact site.quiet.containerIn?_grafted hp (nearestClass?_graftedAround body hkind)
    (nearestFunction?_graftedAround body hkind) (site.isFetched_graftedAround hp)

/-- A walk that opens the `if` comes to the same end if the `if` has made way before. -/
theorem rewrite_grafted (site : UnwrapSite root around m n body)
    {fate fate' : List Node → Node → Fate}
    (hfate : ∀ outer p, Occurs root outer p → p.id ≠ n.id →
      fate' (graftedAround n.id body outer) (p.grafted n.id body) = fate outer p)
    (hn : fate (m :: around) n = .opens) :
    (root.grafted n.id body).rewrite fate' = root.rewrite fate := by
  refine site.toGraftSite.rewrite_grafted ?_ ?_
  · intro outer p hp hne
    have h := hfate outer p hp (hne p List.mem_cons_self)
    rw [graftedAround_of_apart fun a ha => hne a (List.mem_cons_of_mem _ ha)] at h
    exact h
  · obtain ⟨cond, member, hform, -⟩ := site.form
    rw [rewriteIn_eq, hn, hform]
    dsimp only [Form.ifBody]
    rw [← List.flatMap_def]
    refine List.flatMap_congr fun x hx => ?_
    refine rewriteIn_congr fun inner q hq => ?_
    obtain ⟨hoccurs, hne, hgrafted, haround⟩ := site.in_body hx hq
    have h := hfate _ q hoccurs hne
    rw [haround, hgrafted] at h
    exact h

end UnwrapSite

end Node

end PhpRefactor
