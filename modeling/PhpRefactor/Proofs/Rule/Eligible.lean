import PhpRefactor.Proofs.Rule.Shape
import PhpRefactor.Proofs.Syntax.Rewrite

/-!
# Unwrapping all at once

A pass unwraps one `if` after the other and judges each of them when its turn comes, in a tree that
has changed by then.  What should come of it can be said without a pass: judge every `if` on the
tree as it is before (`Node.isEligible`), and in one walk leave the bodies of those that are
eligible (`Node.unwrapAll`).

If one of them is unwrapped before that walk, the walk comes to the same end
(`UnwrapSite.unwrapAll_grafted`) and has one less to unwrap (`UnwrapSite.length_eligible`).
-/

set_option autoImplicit false

namespace PhpRefactor

namespace IndexedTree

/-- The constructor of the class sets the property to an object. -/
def setsToObject (tree : IndexedTree) (cls : Node) (member : String) : Bool :=
  match tree.memberType .declared cls member with
  | .ok (.resolved (.object _)) => true
  | _ => false

end IndexedTree

namespace Node

/-- A node below these nodes is an `if` without other branches, its condition is `$this->member`,
the nearest class sets the member to an object, and no constructor lies between the class and the
`if`. -/
def isEligible (tree : IndexedTree) (around : List Node) (n : Node) : Bool :=
  match n.form with
  | .ifStmt cond _ [] none =>
    match TrueCondition.fetchedMember? cond, nearestClass? around with
    | some member, some cls => !underConstructor around && tree.setsToObject cls member
    | _, _ => false
  | _ => false

/-- The nodes of a tree that are eligible there. -/
def eligible (root : Node) : List Node :=
  ((root.places []).filter fun p => isEligible root.indexed p.1 p.2).map (·.2)

/-- What a node below these nodes becomes when whatever is eligible in the tree makes way for its
statements, which are treated in the same way. -/
def unwrapIn (tree : IndexedTree) (around : List Node) (n : Node) : List Node :=
  let form := n.form.attach.map fun ⟨c, _⟩ => c.unwrapIn tree (n :: around)
  if isEligible tree around n then form.ifBody.flatten else [⟨n.id, n.span, form.join⟩]
termination_by sizeOf n
decreasing_by exact sizeOf_lt_of_mem_children ‹_›

/-- The tree with everything unwrapped that is eligible. -/
def unwrapAll (root : Node) : List Node := root.unwrapIn root.indexed []

theorem mem_eligible_iff {root n : Node} :
    n ∈ root.eligible ↔
      ∃ around, Occurs root around n ∧ isEligible root.indexed around n = true := by
  rw [eligible, List.mem_map]
  constructor
  · rintro ⟨⟨around, p⟩, hp, rfl⟩
    obtain ⟨hmem, heligible⟩ := List.mem_filter.mp hp
    obtain ⟨above, rfl, hoccurs⟩ := mem_places_iff.mp hmem
    rw [List.append_nil] at heligible
    exact ⟨above, hoccurs, heligible⟩
  · rintro ⟨around, hoccurs, heligible⟩
    refine ⟨(around, n), List.mem_filter.mpr ⟨mem_places_iff.mpr ⟨around, ?_, hoccurs⟩, ?_⟩, rfl⟩
    · rw [List.append_nil]
    · exact heligible

theorem nodup_eligible {root : Node} (h : root.ids.Nodup) :
    (root.eligible.map (·.id)).Nodup := by
  have hsublist : root.eligible.Sublist root.preorder := by
    rw [eligible, ← map_snd_places [] root]
    exact List.filter_sublist.map _
  exact (hsublist.map _).nodup h

/-! ## What is eligible -/

section

variable {root n : Node} {around : List Node}

theorem isEligible_iff {tree : IndexedTree} :
    isEligible tree around n = true ↔
      ∃ cond body member cls, n.form = .ifStmt cond body [] none ∧
        TrueCondition.fetchedMember? cond = some member ∧ nearestClass? around = some cls ∧
        underConstructor around = false ∧ tree.setsToObject cls member = true := by
  constructor
  · intro h
    unfold isEligible at h
    split at h
    · rename_i cond body hform
      split at h
      · rename_i member cls hmember hclass
        rw [Bool.and_eq_true, Bool.not_eq_true'] at h
        exact ⟨cond, body, member, cls, hform, hmember, hclass, h.1, h.2⟩
      · exact absurd h Bool.false_ne_true
    · exact absurd h Bool.false_ne_true
  · rintro ⟨cond, body, member, cls, hform, hmember, hclass, hunder, hobject⟩
    simp [isEligible, hform, hmember, hclass, hunder, hobject]

theorem kind_of_isEligible {tree : IndexedTree} (h : isEligible tree around n = true) :
    n.kind = .ifStmt := by
  obtain ⟨cond, body, _, _, hform, -⟩ := isEligible_iff.mp h
  rw [kind, hform]
  rfl

/-- What is eligible is what the rule wants. -/
theorem isEligible_iff_wants (hnodup : root.ids.Nodup) (h : Occurs root around n) :
    isEligible root.indexed around n = true ↔ RuleConfig.trueCondition.Wants around n := by
  have hobject : ∀ cls member, nearestClass? around = some cls →
      (root.indexed.setsToObject cls member = true ↔
        ∃ type, cls.memberResolution .declared member = .resolved type ∧
          type.isAlwaysTrue = true) := by
    intro cls member hclass
    obtain ⟨-, outer, -, hcls, -⟩ := h.of_mem_around (List.mem_of_find?_eq_some hclass)
    rw [IndexedTree.setsToObject, IndexedTree.memberType_of_occurs hnodup hcls]
    cases cls.memberResolution .declared member with
    | unresolved reason => simp
    | resolved type => cases type <;> simp [StaticType.isAlwaysTrue]
  unfold RuleConfig.Wants
  rw [isEligible_iff, Option.isSome_iff_exists]
  constructor
  · rintro ⟨cond, body, member, cls, hform, hmember, hclass, hunder, hsets⟩
    obtain ⟨type, htype, htrue⟩ := (hobject cls member hclass).mp hsets
    exact ⟨body, TrueCondition.settledBody?_eq_some_iff.mpr
      ⟨cond, member, cls, type, hform, hmember, hclass, hunder, htype, htrue⟩⟩
  · rintro ⟨body, hbody⟩
    obtain ⟨cond, member, cls, type, hform, hmember, hclass, hunder, htype, htrue⟩ :=
      TrueCondition.settledBody?_eq_some_iff.mp hbody
    have hsets := (hobject cls member hclass).mpr ⟨type, htype, htrue⟩
    exact ⟨cond, body, member, cls, hform, hmember, hclass, hunder, hsets⟩

end

/-! ## The walk -/

theorem unwrapIn_eq (tree : IndexedTree) (around : List Node) (n : Node) :
    n.unwrapIn tree around =
      if isEligible tree around n then (n.form.ifBody.map (unwrapIn tree (n :: around))).flatten
      else [⟨n.id, n.span, (n.form.map (unwrapIn tree (n :: around))).join⟩] := by
  rw [unwrapIn, Form.attach_map n.form (unwrapIn tree (n :: around)), Form.ifBody_map]

/-- What is eligible opens. -/
def unwrapFate (tree : IndexedTree) (around : List Node) (n : Node) : Fate :=
  if isEligible tree around n then .opens else .stays

theorem unwrapIn_eq_rewriteIn (tree : IndexedTree) (around : List Node) (n : Node) :
    n.unwrapIn tree around = n.rewriteIn (unwrapFate tree) around := by
  induction n using Node.induction generalizing around with
  | step n ih =>
    rw [unwrapIn_eq, rewriteIn_eq, unwrapFate]
    split
    · exact congrArg List.flatten
        (List.map_congr_left fun c hc => ih c (Form.mem_children_of_mem_ifBody hc) _)
    · rw [Form.map_congr fun c hc => ih c hc _]

/-- Where nothing is eligible nothing changes. -/
theorem unwrapAll_of_none {root : Node}
    (hnone : ∀ around p, Occurs root around p → isEligible root.indexed around p = false) :
    root.unwrapAll = [root] := by
  rw [unwrapAll, unwrapIn_eq_rewriteIn]
  refine rewriteIn_of_stays fun inner p hp => ?_
  rw [List.append_nil, unwrapFate, hnone inner p hp, if_neg Bool.false_ne_true]

/-! ## One of them first -/

namespace UnwrapSite

variable {root m n p : Node} {around outer body : List Node}

theorem nodup_grafted (site : UnwrapSite root around m n body) :
    (root.grafted n.id body).ids.Nodup := by
  obtain ⟨cond, _, hchildren, -⟩ := site.exists_children_eq
  have hsublist : body.Sublist n.children := by
    rw [hchildren]
    exact List.sublist_cons_self cond body
  exact (site.ids_grafted_sublist hsublist).nodup site.nodup

/-- What was eligible beside the `if` is eligible without it. -/
theorem isEligible_grafted (site : UnwrapSite root around m n body) (hp : Occurs root outer p)
    (hne : p.id ≠ n.id) :
    isEligible (root.grafted n.id body).indexed (graftedAround n.id body outer)
      (p.grafted n.id body) = isEligible root.indexed outer p := by
  by_cases hkind : p.kind = .ifStmt
  · have hoccurs := site.occurs_of_ne hp hne hkind
    rw [Bool.eq_iff_iff, isEligible_iff_wants site.nodup_grafted hoccurs,
      isEligible_iff_wants site.nodup hp]
    exact site.wants_iff hp .trueCondition
  · have hnone : ∀ (tree : IndexedTree) (above : List Node) (q : Node), q.kind = p.kind →
        isEligible tree above q = false := by
      intro tree above q hq
      rw [Bool.eq_false_iff]
      exact fun h => hkind (hq.symm.trans (kind_of_isEligible h))
    rw [hnone _ _ _ kind_grafted, hnone _ _ _ rfl]

/-- One `if` less is eligible. -/
theorem length_eligible (site : UnwrapSite root around m n body)
    (hn : isEligible root.indexed (m :: around) n = true) :
    (root.grafted n.id body).eligible.length + 1 = root.eligible.length := by
  have hrest : n.id ∉ (root.grafted n.id body).eligible.map (·.id) := by
    intro hmem
    obtain ⟨q, hq, hid⟩ := List.mem_map.mp hmem
    obtain ⟨above, hoccurs, -⟩ := mem_eligible_iff.mp hq
    obtain ⟨outer, p, -, hne, rfl, -⟩ := site.occurs_cases hoccurs
    exact hne hid
  have hperm : (root.eligible.map (·.id)).Perm
      (n.id :: (root.grafted n.id body).eligible.map (·.id)) := by
    have hnodup : (n.id :: (root.grafted n.id body).eligible.map (·.id)).Nodup :=
      List.nodup_cons.mpr ⟨hrest, nodup_eligible site.nodup_grafted⟩
    rw [List.perm_ext_iff_of_nodup (nodup_eligible site.nodup) hnodup]
    intro i
    rw [List.mem_cons, List.mem_map, List.mem_map]
    constructor
    · rintro ⟨p, hp, rfl⟩
      obtain ⟨outer, hoccurs, heligible⟩ := mem_eligible_iff.mp hp
      by_cases hid : p.id = n.id
      · exact .inl hid
      · have hgrafted := site.occurs_of_ne hoccurs hid (kind_of_isEligible heligible)
        rw [← site.isEligible_grafted hoccurs hid] at heligible
        exact .inr ⟨p.grafted n.id body, mem_eligible_iff.mpr ⟨_, hgrafted, heligible⟩, rfl⟩
    · rintro (rfl | ⟨q, hq, rfl⟩)
      · exact ⟨n, mem_eligible_iff.mpr ⟨m :: around, site.occurs, hn⟩, rfl⟩
      · obtain ⟨above, hoccurs, heligible⟩ := mem_eligible_iff.mp hq
        obtain ⟨outer, p, hp, hne, rfl, rfl⟩ := site.occurs_cases hoccurs
        rw [site.isEligible_grafted hp hne] at heligible
        exact ⟨p, mem_eligible_iff.mpr ⟨outer, hp, heligible⟩, rfl⟩
  have hlength := hperm.length_eq
  rw [List.length_map, List.length_cons, List.length_map] at hlength
  exact hlength.symm

/-- The walk over the whole tree comes to the same end if the `if` is unwrapped before. -/
theorem unwrapAll_grafted (site : UnwrapSite root around m n body)
    (hn : isEligible root.indexed (m :: around) n = true) :
    (root.grafted n.id body).unwrapAll = root.unwrapAll := by
  rw [unwrapAll, unwrapAll, unwrapIn_eq_rewriteIn, unwrapIn_eq_rewriteIn]
  refine site.rewrite_grafted (fun outer p hp hne => ?_) (if_pos hn)
  rw [unwrapFate, site.isEligible_grafted hp hne]
  rfl

end UnwrapSite

end Node

end PhpRefactor
