import PhpRefactor.Proofs.Rule.Quiet

/-!
# What a longer fetch changes for others

A fetch that is made longer stays a fetch where it stood, and its variable is still not given a
value.  So the graft is quiet, and the access rules want of every other fetch what they wanted of
it.  Of the three nodes of the longer fetch they want none: the outer fetch is from a fetch, and the
inner one is fetched from.
-/

set_option autoImplicit false

namespace PhpRefactor

namespace CanonicalAccess

variable {access : CanonicalAccess} {oracle : Oracle} {n : Node} {x : String} {next : Nat}

theorem quietSite {root m : Node} {around outer : List Node}
    (hx : access.containerIn? oracle around n = some x)
    (site : Node.GraftSite root outer m n [access.lengthened n x next]) :
    Node.QuietSite root outer m n [access.lengthened n x next] where
  toGraftSite := site
  single s _ _ _ := by
    obtain ⟨object, hform, -⟩ := containerIn?_eq_some_iff.mp hx
    exact ⟨_, rfl, rfl, by rw [Node.kind, hform]; rfl⟩
  rebindings name := by
    obtain ⟨object, hform, hobject, -⟩ := containerIn?_eq_some_iff.mp hx
    simp [lengthened, Node.preorder_eq, Node.children, Form.children, Form.segments, Segment.toList,
      hform, hobject, Scope.isRebinding]

/-- No access rule wants a node of a fetch that was made longer. -/
theorem containerIn?_lengthened (access' : CanonicalAccess) (rest : List Node) {inner : List Node}
    {q : Node} (hq : (access.lengthened n x next).Occurs inner q) :
    access'.containerIn? oracle (inner ++ rest) q = none := by
  cases hq with
  | root => simp [containerIn?, lengthened]
  | @child inner p q hp hc =>
    -- Every node below the outer fetch is fetched from.
    have hkind : p.kind = .fetch := by
      have hmem : p ∈ (access.lengthened n x next).preorder := Node.mem_preorder_iff.mpr ⟨inner, hp⟩
      rcases mem_preorder_lengthened.mp hmem with rfl | rfl | rfl
      · rfl
      · rfl
      · exact absurd hc List.not_mem_nil
    rw [Option.eq_none_iff_forall_ne_some]
    intro y hy
    obtain ⟨_, -, -, -, hparent⟩ := containerIn?_eq_some_iff.mp hy
    exact hparent p rfl hkind

/-- The access rules want of every other node what they wanted of it. -/
theorem containerIn?_grafted {root m p : Node} {around above outer : List Node}
    (hx : access.containerIn? oracle around n = some x)
    (site : Node.GraftSite root above m n [access.lengthened n x next])
    (hp : root.Occurs outer p) (hne : ∀ a ∈ p :: outer, a.id ≠ n.id) (access' : CanonicalAccess) :
    access'.containerIn? .declared (outer.map (Node.grafted n.id [access.lengthened n x next]))
        (p.grafted n.id [access.lengthened n x next]) =
      access'.containerIn? .declared outer p := by
  have hapart : ∀ a ∈ outer, a.id ≠ n.id := fun a ha => hne a (List.mem_cons_of_mem _ ha)
  have hkind : ∀ a ∈ outer, a.id = n.id → a.kind = .ifStmt := fun a ha h => absurd h (hapart a ha)
  have hclass := Node.nearestClass?_graftedAround [access.lengthened n x next] hkind
  have hfunction := Node.nearestFunction?_graftedAround [access.lengthened n x next] hkind
  rw [Node.graftedAround_of_apart hapart] at hclass hfunction
  refine (quietSite hx site).containerIn?_grafted hp hclass hfunction ?_
  cases outer with
  | nil => rfl
  | cons a outer => simp

end CanonicalAccess

end PhpRefactor
