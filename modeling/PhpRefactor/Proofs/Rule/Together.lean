import PhpRefactor.Proofs.Rule.Canonical
import PhpRefactor.Proofs.Rule.Renumber
import PhpRefactor.Proofs.Rule.Shape

/-!
# All rules at once

What all rules of a configuration lead to together can be said without a pass, as for each of them:
judge every node on the tree as it is, and in one walk open the conditions that are always true and
make the short fetches longer.  `Node.settle` is the bare program that comes of it.

A fetch from `$this` that is made longer may be the target of an assignment, and then a condition
may become always true that was not.  If no class is one that an access rule looks for
(`Node.NoContainerClasses`) there are no such fetches (`NoContainerClasses.ne_this`).  Then each
rule can go first: the walk comes to the same program after an edit of either
(`UnwrapSite.settle_grafted`, `GraftSite.settle_lengthened`).

No edit brings in a NaN, so that programs are still structurally equal to themselves
(`NoNaN.unwrapped`, `NoNaN.lengthened`).
-/

set_option autoImplicit false

namespace PhpRefactor

/-- The rule looks for objects of the class that the node declares. -/
def RuleConfig.looksFor (rule : RuleConfig) (n : Node) : Bool :=
  match rule, n.form with
  | canonicalAccess access, .classDecl name _ _ =>
    access.containerTypes.any fun type => sameName name (dropBackslashes type)
  | _, _ => false

theorem RuleConfig.looksFor_of_kind {rule : RuleConfig} {n : Node} (h : n.kind ≠ .classDecl) :
    rule.looksFor n = false := by
  cases rule with
  | trueCondition => rfl
  | canonicalAccess access =>
    unfold looksFor
    cases hform : n.form with
    | classDecl name parent ms => exact absurd (by rw [Node.kind, hform]; rfl) h
    | _ => rfl

theorem RuleConfig.looksFor_grafted (rule : RuleConfig) (i : Nat) (xs : List Node) (n : Node) :
    rule.looksFor (n.grafted i xs) = rule.looksFor n := by
  cases rule with
  | trueCondition => rfl
  | canonicalAccess access =>
    unfold looksFor
    rw [Node.form_grafted]
    cases n.form <;> rfl

namespace Node

/-- No rule looks for objects of a class that the tree declares. -/
def NoContainerClasses (rules : List RuleConfig) (root : Node) : Prop :=
  ∀ n ∈ root.preorder, ∀ rule ∈ rules, rule.looksFor n = false

instance (rules : List RuleConfig) (root : Node) : Decidable (root.NoContainerClasses rules) :=
  inferInstanceAs (Decidable (∀ n ∈ root.preorder, ∀ rule ∈ rules, rule.looksFor n = false))

variable {rules : List RuleConfig} {root m n : Node} {around above : List Node}
  {access : CanonicalAccess} {x : String} {next : Nat}

namespace NoContainerClasses

/-- Then `$this` is no container, and no fetch from it is made longer. -/
theorem ne_this (h : root.NoContainerClasses rules) (hn : Occurs root around n)
    (hrule : .canonicalAccess access ∈ rules)
    (hx : access.containerIn? .declared around n = some x) : x ≠ "this" := by
  rintro rfl
  obtain ⟨-, hcontainer, -⟩ := CanonicalAccess.containerIn?_eq_some_iff_fetchedFrom?.mp hx
  unfold Oracle.ofVariable at hcontainer
  rw [if_pos rfl] at hcontainer
  cases hclass : nearestClass? around with
  | none =>
    rw [hclass] at hcontainer
    simp [CanonicalAccess.isContainer, StaticType.isObjectOf] at hcontainer
  | some cls =>
    obtain ⟨-, outer, -, hcls, -⟩ := hn.of_mem_around (List.mem_of_find?_eq_some hclass)
    have hlooks := h cls (mem_preorder_iff.mpr ⟨outer, hcls⟩) _ hrule
    have hkind : cls.kind = .classDecl := by simpa using List.find?_some hclass
    rw [hclass] at hcontainer
    cases cls with
    | mk id span form =>
      cases form with
      | classDecl name parent ms =>
        change access.containerTypes.any (fun type => sameName name (dropBackslashes type)) = false
          at hlooks
        change access.containerTypes.any (StaticType.object (some name)).isObjectOf = true
          at hcontainer
        exact Bool.false_ne_true (hlooks.symm.trans hcontainer)
      | _ => exact absurd hkind (by simp [kind, Form.kind])

theorem unwrapped {body : List Node} (h : root.NoContainerClasses rules)
    (site : UnwrapSite root around m n body) :
    (root.grafted n.id body).NoContainerClasses rules := by
  refine site.forall_preorder (fun outer p hp rule hrule => ?_) fun y hy p hp =>
    h p (site.mem_preorder_of_mem_body hy hp)
  rw [rule.looksFor_grafted]
  exact h p (mem_preorder_iff.mpr ⟨outer, hp⟩) rule hrule

theorem lengthened (h : root.NoContainerClasses rules)
    (site : GraftSite root above m n [access.lengthened n x next]) :
    (root.grafted n.id [access.lengthened n x next]).NoContainerClasses rules := by
  refine site.forall_preorder (fun outer p hp rule hrule => ?_) fun y hy p hp rule _ => ?_
  · rw [rule.looksFor_grafted]
    exact h p (mem_preorder_iff.mpr ⟨outer, hp⟩) rule hrule
  · rw [List.mem_singleton.mp hy] at hp
    refine RuleConfig.looksFor_of_kind ?_
    rcases CanonicalAccess.mem_preorder_lengthened.mp hp with rfl | rfl | rfl <;>
      simp [CanonicalAccess.lengthened, kind, Form.kind]

end NoContainerClasses

theorem isNaN_grafted (i : Nat) (xs : List Node) (n : Node) :
    (n.grafted i xs).isNaN = n.isNaN := by
  unfold isNaN
  rw [form_grafted]
  cases n.form <;> rfl

namespace NoNaN

theorem unwrapped {body : List Node} (h : root.NoNaN) (site : UnwrapSite root around m n body) :
    (root.grafted n.id body).NoNaN := by
  refine site.forall_preorder (fun outer p hp => ?_) fun y hy p hp =>
    h p (site.mem_preorder_of_mem_body hy hp)
  rw [isNaN_grafted]
  exact h p (mem_preorder_iff.mpr ⟨outer, hp⟩)

theorem lengthened (h : root.NoNaN)
    (site : GraftSite root above m n [access.lengthened n x next]) :
    (root.grafted n.id [access.lengthened n x next]).NoNaN := by
  refine site.forall_preorder (fun outer p hp => ?_) fun y hy p hp => ?_
  · rw [isNaN_grafted]
    exact h p (mem_preorder_iff.mpr ⟨outer, hp⟩)
  · rw [List.mem_singleton.mp hy] at hp
    rcases CanonicalAccess.mem_preorder_lengthened.mp hp with rfl | rfl | rfl <;> rfl

end NoNaN

/-! ## The walk -/

/-- The bare program that all rules lead to at once. -/
def settle (rules : List RuleConfig) (root : Node) : List Node :=
  (root.rewrite (RuleConfig.fate rules fun _ => 0)).map bare

/-- The identities of new nodes are no part of the program. -/
theorem map_bare_rewriteIn_fate (rules : List RuleConfig) (fresh fresh' : Nat → Nat) (n : Node) :
    ∀ around, (n.rewriteIn (RuleConfig.fate rules fresh) around).map bare =
      (n.rewriteIn (RuleConfig.fate rules fresh') around).map bare := by
  induction n using Node.induction with
  | step n ih =>
    intro around
    rw [rewriteIn_eq, rewriteIn_eq, RuleConfig.fate, RuleConfig.fate]
    cases RuleConfig.firstAccess? rules around n with
    | some found => exact congrArg (fun y => [y]) (CanonicalAccess.bare_lengthened ..)
    | none =>
      dsimp only
      by_cases hopens : .trueCondition ∈ rules ∧
          (TrueCondition.settledBody? .declared around n).isSome = true
      · rw [if_pos hopens]
        dsimp only
        rw [List.map_flatten, List.map_flatten, List.map_map, List.map_map]
        refine congrArg List.flatten (List.map_congr_left fun c hc => ?_)
        exact ih c (Form.mem_children_of_mem_ifBody hc) _
      · rw [if_neg hopens]
        dsimp only
        rw [List.map_singleton, List.map_singleton, bare_eq, bare_eq]
        dsimp only
        rw [Form.map_join_of_default bare_default, Form.map_join_of_default bare_default,
          Form.map_map, Form.map_map]
        refine congrArg (fun form => [Node.mk 0 .none (Form.join form)]) ?_
        exact Form.map_congr fun c hc => ih c hc _

/-- A walk that leads to the same tree, whatever new identities it gives, leads to the same
program. -/
theorem settle_eq_of_rewrite_eq (fresh : Nat → Nat) {root root' : Node}
    (h : root'.rewrite (RuleConfig.fate rules fresh) =
      root.rewrite (RuleConfig.fate rules fresh)) : root'.settle rules = root.settle rules := by
  have hfresh : ∀ t : Node, t.settle rules = (t.rewrite (RuleConfig.fate rules fresh)).map bare :=
    fun t => map_bare_rewriteIn_fate rules _ fresh t []
  rw [hfresh, hfresh, h]

/-- Where no rule wants anything the program is what it is. -/
theorem settle_of_not_wants
    (h : ∀ around p, Occurs root around p → ∀ rule ∈ rules, ¬ rule.Wants around p) :
    root.settle rules = [root.bare] := by
  have hstays : root.rewrite (RuleConfig.fate rules fun _ => 0) = [root] := by
    refine rewriteIn_of_stays fun inner p hp => RuleConfig.fate_of_not_wants ?_
    rw [List.append_nil]
    exact h inner p hp
  rw [settle, hstays, List.map_singleton]

/-- The rules lead to the same program if an `if` is unwrapped before. -/
theorem UnwrapSite.settle_grafted {body ss : List Node} (site : UnwrapSite root around m n body)
    (hrule : .trueCondition ∈ rules)
    (hbody : TrueCondition.settledBody? .declared (m :: around) n = some ss) :
    (root.grafted n.id body).settle rules = root.settle rules := by
  refine settle_eq_of_rewrite_eq (fun _ => 0) (site.rewrite_grafted (fun outer p hp _ => ?_) ?_)
  · refine RuleConfig.fate_congr rfl rfl (site.containerIn?_graftedAround hp) fun _ => ?_
    rw [site.settledBody?_graftedAround hp, Option.isSome_map]
  · have hnone : RuleConfig.firstAccess? rules (m :: around) n = none := by
      rw [← Option.not_isSome_iff_eq_none]
      intro hfirst
      have hfetch := RuleConfig.kind_of_firstAccess?_isSome hfirst
      exact absurd (site.kind_eq.symm.trans hfetch) (by decide)
    rw [RuleConfig.fate, hnone]
    exact if_pos ⟨hrule, by rw [hbody]; rfl⟩

/-- The rules lead to the same program if a fetch is made longer before, unless it is from
`$this`. -/
theorem GraftSite.settle_lengthened
    (site : GraftSite root above m n [access.lengthened n x next])
    (hfirst : RuleConfig.firstAccess? rules (m :: above) n = some (access, x))
    (hthis : x ≠ "this") :
    (root.grafted n.id [access.lengthened n x next]).settle rules = root.settle rules := by
  obtain ⟨-, hx⟩ := RuleConfig.of_firstAccess?_eq_some hfirst
  refine settle_eq_of_rewrite_eq (fun _ => next)
    (site.rewrite_lengthened hfirst rfl fun _ outer p hp hne => ?_)
  rw [CanonicalAccess.settledBody?_grafted hx hthis site hp hne, Option.isSome_map]

end Node

end PhpRefactor
