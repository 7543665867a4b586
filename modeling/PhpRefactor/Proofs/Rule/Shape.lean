import PhpRefactor.Proofs.Rule.Lengthen
import PhpRefactor.Proofs.Rule.Settled

/-!
# Trees in which every `if` is a statement

Where every `if` is an element of a list of statements, and not a class member, its body can always
come in its place (`StatementShaped.unwrapSite`).  The edits of the rules keep trees in this shape
(`StatementShaped.unwrapped`, `StatementShaped.lengthened`), so in such a tree no edit is refused.
-/

set_option autoImplicit false

namespace PhpRefactor

namespace Node

/-- Every `if` below the node as a child is an element of a list of statements, and not a class
member. -/
def HasIfsAsStatements (p : Node) : Prop :=
  ∀ s ∈ p.form.segments, ∀ c ∈ s.toList, c.kind = .ifStmt →
    s.isStatements = true ∧ p.kind ≠ .classDecl

instance (p : Node) : Decidable p.HasIfsAsStatements :=
  inferInstanceAs (Decidable (∀ s ∈ p.form.segments, ∀ c ∈ s.toList, c.kind = .ifStmt →
    s.isStatements = true ∧ p.kind ≠ .classDecl))

/-- Every `if` of the tree is an element of a list of statements, and not a class member. -/
structure StatementShaped (root : Node) : Prop where
  root_ne : root.kind ≠ .ifStmt
  below : ∀ p ∈ root.preorder, p.HasIfsAsStatements

variable {root m n : Node} {around body xs : List Node}

namespace StatementShaped

theorem place_of_occurs (h : root.StatementShaped) (hn : Occurs root (m :: around) n)
    (hkind : n.kind = .ifStmt) :
    m.holdsIn Segment.isStatements n.id = true ∧ m.kind ≠ .classDecl := by
  obtain ⟨hm, hmem⟩ := hn.parent
  obtain ⟨s, hs, hns⟩ := List.mem_flatMap.mp hmem
  obtain ⟨hstmts, hclass⟩ := h.below m (mem_preorder_iff.mpr ⟨around, hm⟩) s hs n hns hkind
  have hholds : s.holds n.id = true := Segment.holds_iff.mpr (List.mem_map_of_mem hns)
  refine ⟨List.any_eq_true.mpr ⟨s, hs, ?_⟩, hclass⟩
  rw [hstmts, hholds]
  rfl

/-- In such a tree an `if` that is always true can be unwrapped. -/
theorem unwrapSite (h : root.StatementShaped) (site : GraftSite root around m n body)
    (hbody : TrueCondition.settledBody? .declared (m :: around) n = some body) :
    UnwrapSite root around m n body := by
  obtain ⟨cond, member, _, _, hform, hmember, -, hunder, -⟩ :=
    TrueCondition.settledBody?_eq_some_iff.mp hbody
  have hkind : n.kind = .ifStmt := by rw [kind, hform]; rfl
  obtain ⟨hholds, hclass⟩ := h.place_of_occurs site.occurs hkind
  refine ⟨site, hholds, hclass, ?_, cond, member, hform, hmember⟩
  unfold underConstructor at hunder
  rw [List.takeWhile_cons_of_pos (by simpa using hclass), List.any_cons, Bool.or_eq_false_iff]
    at hunder
  exact hunder.1

/-- A graft that brings in no `if` where none was keeps the shape. -/
theorem grafted (h : root.StatementShaped) (site : GraftSite root around m n xs)
    (hplace : ∀ x ∈ xs, x.kind = .ifStmt → n.kind = .ifStmt)
    (hbelow : ∀ x ∈ xs, ∀ p ∈ x.preorder, p.HasIfsAsStatements) :
    (root.grafted n.id xs).StatementShaped where
  root_ne := by
    rw [kind_grafted]
    exact h.root_ne
  below := by
    refine site.forall_preorder (fun outer p hp => ?_) hbelow
    intro s hs c hc hkind
    rw [form_grafted, Form.segments_join, Form.segments_map, List.map_map, List.mem_map] at hs
    obtain ⟨t, ht, rfl⟩ := hs
    rw [Function.comp_apply, (toList_join_graft (site.admits_of_occurs hp t ht)).2,
      List.mem_flatMap] at hc
    obtain ⟨d, hd, hc⟩ := hc
    have hd' : d.kind = .ifStmt := by
      by_cases hid : d.id = n.id
      · obtain ⟨rfl, -, rfl⟩ := site.eq_of_mem_children hp (List.mem_flatMap_of_mem ht hd) hid
        rw [graft_of_id_eq rfl] at hc
        exact hplace c hc hkind
      · rw [graft_of_id_ne hid, List.mem_singleton] at hc
        rw [hc, kind_grafted] at hkind
        exact hkind
    obtain ⟨hstmts, hclass⟩ := h.below p (mem_preorder_iff.mpr ⟨outer, hp⟩) t ht d hd hd'
    refine ⟨?_, by rw [kind_grafted]; exact hclass⟩
    cases t with
    | stmts cs => rfl
    | _ => exact absurd hstmts (by simp [Segment.isStatements])

theorem unwrapped (h : root.StatementShaped) (site : UnwrapSite root around m n body) :
    (root.grafted n.id body).StatementShaped :=
  h.grafted site.toGraftSite (fun _ _ _ => site.kind_eq) fun _ hx p hp =>
    h.below p (site.mem_preorder_of_mem_body hx hp)

theorem lengthened (h : root.StatementShaped) {access : CanonicalAccess} {x : String} {next : Nat}
    (site : GraftSite root around m n [access.lengthened n x next]) :
    (root.grafted n.id [access.lengthened n x next]).StatementShaped := by
  refine h.grafted site (fun y hy hkind => ?_) fun y hy p hp => ?_
  · rw [List.mem_singleton.mp hy] at hkind
    exact absurd hkind (by simp [CanonicalAccess.lengthened, kind, Form.kind])
  · rw [List.mem_singleton.mp hy] at hp
    rcases CanonicalAccess.mem_preorder_lengthened.mp hp with rfl | rfl | rfl <;>
      simp [CanonicalAccess.lengthened, HasIfsAsStatements, Form.segments, Segment.toList, kind,
        Form.kind]

end StatementShaped

end Node

end PhpRefactor
