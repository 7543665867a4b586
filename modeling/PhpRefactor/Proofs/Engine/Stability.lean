import PhpRefactor.Proofs.Engine.Passes
import PhpRefactor.Proofs.Rule.Canonical
import PhpRefactor.Proofs.Rule.Shape

/-!
# Three passes are enough

The rules can feed each other: a longer fetch may make an assignment the first one to a property,
and then an `if` that was kept is always true.  But it goes no further.  Whether a fetch is to be
made longer never changes, so the first pass makes all the longer fetches; after that whether an
`if` is always true does not change either, so the second pass unwraps all that are left; and a
third finds nothing to do (`Config.stabilize_in_three`).

What a pass leaves behind is said by `Node.Calm`: which rules no longer want which nodes.
-/

set_option autoImplicit false

namespace PhpRefactor

namespace Node

/-- The rules that `Q` names for a node do not want it. -/
def Calm (Q : RuleConfig → Nat → Prop) (tree : Node) : Prop :=
  ∀ around n, tree.Occurs around n → ∀ rule, Q rule n.id → ¬ rule.Wants around n

namespace Calm

variable {Q Q' : RuleConfig → Nat → Prop} {root m n : Node} {around outer : List Node}

theorem mono (h : root.Calm Q) (hQ : ∀ rule i, Q' rule i → Q rule i) : root.Calm Q' :=
  fun around n hn rule hrule => h around n hn rule (hQ rule n.id hrule)

/-- A node that no rule wanted is one more. -/
theorem keep {rules : List RuleConfig} (h : root.Calm Q) (hnodup : root.ids.Nodup)
    (hn : root.Occurs around n) (hnone : ∀ rule ∈ rules, ¬ rule.Wants around n) :
    root.Calm fun rule i => Q rule i ∨ (rule ∈ rules ∧ i = n.id) := by
  intro above p hp rule hrule
  rcases hrule with hrule | ⟨hmem, hid⟩
  · exact h above p hp rule hrule
  · obtain ⟨rfl, rfl⟩ := hp.unique hnodup hn hid
    exact hnone rule hmem

/-- An `if` that makes way changes nothing for others. -/
theorem unwrap {body : List Node} (h : root.Calm Q) (site : UnwrapSite root around m n body) :
    (root.grafted n.id body).Calm Q := by
  intro above q hq rule hrule
  obtain ⟨outer, p, hp, -, rfl, rfl⟩ := site.occurs_cases hq
  rw [site.wants_iff hp rule]
  exact h outer p hp rule hrule

/-- A longer fetch changes nothing for other fetches, and nothing at all if it is not from `$this`;
and no rule wants it any more. -/
theorem lengthen {access : CanonicalAccess} {x : String} {next : Nat}
    (hQ : ∀ rule i, Q rule i → rule ≠ .trueCondition ∨ x ≠ "this")
    (hx : access.containerIn? .declared around n = some x)
    (site : GraftSite root outer m n [access.lengthened n x next])
    (h : root.Calm fun rule i => Q rule i ∧ i ≠ n.id) :
    (root.grafted n.id [access.lengthened n x next]).Calm Q := by
  intro above q hq rule hrule
  rcases site.occurs_cases hq with ⟨rest, p, hp, hne, rfl, rfl⟩ | ⟨y, hy, inner, hinner, rfl⟩
  · rw [CanonicalAccess.wants_iff hx site hp hne (hQ rule _ hrule)]
    exact h rest p hp rule ⟨hrule, hne p List.mem_cons_self⟩
  · rw [List.mem_singleton.mp hy] at hinner
    exact RuleConfig.not_wants_lengthened rule _ hinner

end Calm

end Node

theorem Workspace.statementShaped_box : box.tree.StatementShaped where
  root_ne := by decide
  below := by decide +kernel

/-! ## What a visit keeps -/

section

variable {rules : List RuleConfig} {s s' : PassState} {done done' : List Nat} {around : List Node}
  {n : Node} {ahead ahead' : List Node}

/-- No access rule wants a node that was visited. -/
theorem PassState.Moves.calm_accesses (hmove : s.Moves rules done around n ahead s' done' ahead')
    (hnodup : s.tree.ids.Nodup) (hn : s.tree.Occurs around n) (hshape : s.tree.StatementShaped)
    (h : s.tree.Calm fun rule i => rule ∈ rules ∧ rule ≠ .trueCondition ∧ i ∈ done) :
    s'.tree.Calm fun rule i => rule ∈ rules ∧ rule ≠ .trueCondition ∧ i ∈ done' := by
  cases hmove with
  | keep hnone htree _ =>
    rw [htree]
    refine (h.keep hnodup hn hnone).mono ?_
    intro rule i hrule
    obtain ⟨hmem, haccess, hi⟩ := hrule
    rcases List.mem_append.mp hi with hi | hi
    · exact .inl ⟨hmem, haccess, hi⟩
    · exact .inr ⟨hmem, List.mem_singleton.mp hi⟩
  | unwrap _ hbody haround site _ htree _ =>
    subst haround
    rw [htree]
    exact h.unwrap (hshape.unwrapSite site hbody)
  | lengthen _ hx _ site htree _ =>
    rw [htree]
    refine Node.Calm.lengthen (fun rule i hrule => .inl hrule.2.1) hx site ?_
    refine h.mono ?_
    intro rule i hrule
    obtain ⟨⟨hmem, haccess, hi⟩, hne⟩ := hrule
    rcases List.mem_append.mp hi with hi | hi
    · exact ⟨hmem, haccess, hi⟩
    · exact absurd (List.mem_singleton.mp hi) hne

/-- Where no access rule wants anything, no rule wants a node that was visited. -/
theorem PassState.Moves.calm_rules (hmove : s.Moves rules done around n ahead s' done' ahead')
    (hnodup : s.tree.ids.Nodup) (hn : s.tree.Occurs around n) (hshape : s.tree.StatementShaped)
    (h : s.tree.Calm fun rule i => rule ∈ rules ∧ (rule ≠ .trueCondition ∨ i ∈ done)) :
    s'.tree.Calm fun rule i => rule ∈ rules ∧ (rule ≠ .trueCondition ∨ i ∈ done') := by
  cases hmove with
  | keep hnone htree _ =>
    rw [htree]
    refine (h.keep hnodup hn hnone).mono ?_
    intro rule i hrule
    obtain ⟨hmem, haccess | hi⟩ := hrule
    · exact .inl ⟨hmem, .inl haccess⟩
    · rcases List.mem_append.mp hi with hi | hi
      · exact .inl ⟨hmem, .inr hi⟩
      · exact .inr ⟨hmem, List.mem_singleton.mp hi⟩
  | unwrap _ hbody haround site _ htree _ =>
    subst haround
    rw [htree]
    exact h.unwrap (hshape.unwrapSite site hbody)
  | lengthen hrule hx _ _ _ _ =>
    have hnot := h around n hn (.canonicalAccess _) ⟨hrule, .inl (by simp)⟩
    exact absurd (Option.isSome_iff_exists.mpr ⟨_, hx⟩) hnot

/-- Where no rule wants anything, nothing is edited. -/
theorem PassState.Moves.edits_eq (hmove : s.Moves rules done around n ahead s' done' ahead')
    (hn : s.tree.Occurs around n) (h : s.tree.Calm fun rule _ => rule ∈ rules) :
    s'.tree = s.tree ∧ s'.edits = s.edits := by
  cases hmove with
  | keep _ htree hedits => exact ⟨htree, hedits⟩
  | unwrap hrule hbody _ _ _ _ _ =>
    exact absurd (Option.isSome_iff_exists.mpr ⟨_, hbody⟩) (h around n hn .trueCondition hrule)
  | lengthen hrule hx _ _ _ _ =>
    exact absurd (Option.isSome_iff_exists.mpr ⟨_, hx⟩) (h around n hn (.canonicalAccess _) hrule)

end

/-- A pass that does not fail is the last one or the first of more. -/
theorem Engine.passesFrom_of_pass {e : Engine} {w w' : Workspace} {summary : RunSummary}
    {counts : PassSummary} {passes : Nat}
    (hpass : e.pass (summary.passes + 1) w = (w', .ok counts)) :
    e.passesFrom w summary (passes + 1) =
      if counts.edits = 0 then (w', .ok (summary.add counts))
      else e.passesFrom w' (summary.add counts) passes := by
  rw [Engine.passesFrom, hpass]

/-! ## What a pass leaves behind -/

namespace Config

variable {w : Workspace}

/-- In a tree of statements a pass comes to its end, and what every visit keeps holds there of all
nodes. -/
theorem pass_of_shaped (config : Config) (number : Nat) (hw : w.Sound)
    (hshape : w.tree.StatementShaped) {R : PassState → List Nat → Prop} (hstart : R w.begun [])
    (hmoves : ∀ (s : PassState) done around n ahead s' done' ahead',
      s.Supplied done (n :: ahead) → s.tree.Occurs around n → s.tree.StatementShaped → R s done →
      s.Moves config.rules done around n ahead s' done' ahead' → R s' done') :
    ∃ s : PassState, R s s.tree.ids ∧ (⟨s.tree, s.next, s.stats⟩ : Workspace).Sound ∧
      s.tree.StatementShaped ∧
      config.engine.pass number w = (⟨s.tree, s.next, s.stats⟩, .ok ⟨s.visits, s.edits⟩) := by
  have hkeeps : ∀ (s : PassState) done around n ahead s' done' ahead',
      s.Supplied done (n :: ahead) → s.tree.Occurs around n →
      s.tree.StatementShaped ∧ R s done →
      s.Moves config.rules done around n ahead s' done' ahead' →
      s'.tree.StatementShaped ∧ R s' done' := by
    intro s done around n ahead s' done' ahead' S hn ⟨hshaped, hR⟩ hmove
    refine ⟨?_, hmoves s done around n ahead s' done' ahead' S hn hshaped hR hmove⟩
    cases hmove with
    | keep _ htree _ => exact htree ▸ hshaped
    | unwrap _ hbody haround site _ htree _ =>
      subst haround
      exact htree ▸ hshaped.unwrapped (hshaped.unwrapSite site hbody)
    | lengthen _ _ _ site htree _ => exact htree ▸ hshaped.lengthened site
  obtain ⟨s, ⟨hshaped, hR⟩, hsound, hpass⟩ := config.pass_of_unrefused number hw
    (R := fun s done => s.tree.StatementShaped ∧ R s done) ⟨hshape, hstart⟩ hkeeps
    fun s done around n halt hn ⟨hshaped, _⟩ hrefuses => by
      -- Every `if` stands where it can be unwrapped.
      obtain ⟨body, hbody⟩ := hrefuses.settled
      obtain ⟨m, outer, rfl, hholds⟩ := hrefuses.place
      obtain ⟨cond, _, _, _, hform, -⟩ := TrueCondition.settledBody?_eq_some_iff.mp hbody
      have hkind : n.kind = .ifStmt := by rw [Node.kind, hform]; rfl
      exact absurd ((hshaped.place_of_occurs hn hkind).1.symm.trans hholds) (by simp)
  exact ⟨s, hR, hsound, hshaped, hpass⟩

/-- After a pass no access rule wants a fetch: which fetches are to be made longer does not change,
and every node was visited. -/
theorem pass_calm_accesses (config : Config) (number : Nat) (hw : w.Sound)
    (hshape : w.tree.StatementShaped) :
    ∃ w' counts, config.engine.pass number w = (w', .ok counts) ∧ w'.Sound ∧
      w'.tree.StatementShaped ∧
      w'.tree.Calm fun rule _ => rule ∈ config.rules ∧ rule ≠ .trueCondition := by
  have hstart : w.begun.tree.Calm fun rule i =>
      rule ∈ config.rules ∧ rule ≠ .trueCondition ∧ i ∈ ([] : List Nat) := by
    intro around n _ rule hrule
    exact absurd hrule.2.2 List.not_mem_nil
  obtain ⟨s, hcalm, hsound, hshaped, hpass⟩ := config.pass_of_shaped number hw hshape
    (R := fun s done => s.tree.Calm fun rule i =>
      rule ∈ config.rules ∧ rule ≠ .trueCondition ∧ i ∈ done) hstart
    fun s done around n ahead s' done' ahead' S hn hshaped h hmove =>
      hmove.calm_accesses S.nodup hn hshaped h
  refine ⟨_, _, hpass, hsound, hshaped, ?_⟩
  intro around n hn rule hrule
  exact hcalm around n hn rule ⟨hrule.1, hrule.2, hn.id_mem⟩

/-- After another pass no rule wants anything: which of the conditions are always true does not
change then, and every node was visited. -/
theorem pass_calm (config : Config) (number : Nat) (hw : w.Sound) (hshape : w.tree.StatementShaped)
    (h : w.tree.Calm fun rule _ => rule ∈ config.rules ∧ rule ≠ .trueCondition) :
    ∃ w' counts, config.engine.pass number w = (w', .ok counts) ∧ w'.Sound ∧
      w'.tree.StatementShaped ∧ w'.tree.Calm fun rule _ => rule ∈ config.rules := by
  have hstart : w.begun.tree.Calm fun rule i =>
      rule ∈ config.rules ∧ (rule ≠ .trueCondition ∨ i ∈ ([] : List Nat)) := by
    intro around n hn rule hrule
    exact h around n hn rule ⟨hrule.1, hrule.2.resolve_right List.not_mem_nil⟩
  obtain ⟨s, hcalm, hsound, hshaped, hpass⟩ := config.pass_of_shaped number hw hshape
    (R := fun s done => s.tree.Calm fun rule i =>
      rule ∈ config.rules ∧ (rule ≠ .trueCondition ∨ i ∈ done)) hstart
    fun s done around n ahead s' done' ahead' S hn hshaped h hmove =>
      hmove.calm_rules S.nodup hn hshaped h
  refine ⟨_, _, hpass, hsound, hshaped, ?_⟩
  intro around n hn rule hrule
  exact hcalm around n hn rule ⟨hrule, .inr hn.id_mem⟩

/-- A pass where no rule wants anything makes no edit. -/
theorem pass_of_calm (config : Config) (number : Nat) (hw : w.Sound)
    (h : w.tree.Calm fun rule _ => rule ∈ config.rules) :
    ∃ w' counts, config.engine.pass number w = (w', .ok counts) ∧ w'.tree = w.tree ∧
      counts.edits = 0 ∧ w'.Sound := by
  obtain ⟨s, ⟨htree, hedits⟩, hsound, hpass⟩ := config.pass_of_unrefused number hw
    (R := fun s _ => s.tree = w.tree ∧ s.edits = 0) ⟨rfl, rfl⟩
    (fun s done around n ahead s' done' ahead' _ hn hR hmove => by
      obtain ⟨htree, hedits⟩ := hmove.edits_eq hn (hR.1 ▸ h)
      exact ⟨htree.trans hR.1, hedits.trans hR.2⟩)
    fun s done around n halt hn hR hrefuses =>
      h around n (hR.1 ▸ hn) .trueCondition hrefuses.rule
        (Option.isSome_iff_exists.mpr hrefuses.settled)
  exact ⟨_, _, hpass, htree, hedits, hsound⟩

/-- In a tree of statements a run is stable after three passes at most, and no edit is refused. -/
theorem stabilize_in_three (config : Config) (w : Workspace) (hw : w.Sound)
    (hshape : w.tree.StatementShaped) (hpasses : 3 ≤ config.maxPasses) :
    ∃ w' summary, config.engine.stabilize w = (w', .ok summary) ∧ summary.passes ≤ 3 := by
  obtain ⟨passes, hmax⟩ : ∃ k, config.engine.maxPasses = k + 3 :=
    ⟨config.maxPasses - 3, by change config.maxPasses = _; omega⟩
  obtain ⟨w₁, counts₁, hpass₁, hw₁, hshape₁, hcalm₁⟩ := config.pass_calm_accesses 1 hw hshape
  obtain ⟨w₂, counts₂, hpass₂, hw₂, -, hcalm₂⟩ := config.pass_calm 2 hw₁ hshape₁ hcalm₁
  obtain ⟨w₃, counts₃, hpass₃, -, hedits₃, -⟩ := config.pass_of_calm 3 hw₂ hcalm₂
  unfold Engine.stabilize
  rw [hmax, Engine.passesFrom_of_pass hpass₁]
  split
  · exact ⟨w₁, _, rfl, by simp [RunSummary.add, RunSummary.zero]⟩
  · rw [Engine.passesFrom_of_pass hpass₂]
    split
    · exact ⟨w₂, _, rfl, by simp [RunSummary.add, RunSummary.zero]⟩
    · rw [Engine.passesFrom_of_pass hpass₃, if_pos hedits₃]
      exact ⟨w₃, _, rfl, by simp [RunSummary.add, RunSummary.zero]⟩

theorem stabilize_in_three_box :
    Workspace.box.Sound ∧ Workspace.box.tree.StatementShaped ∧
    ∃ w' summary, (Config.mk [.canonicalAccess .standard, .trueCondition] 3).engine.stabilize .box =
      (w', .ok summary) ∧ summary.passes ≤ 3 :=
  ⟨Workspace.sound_box, Workspace.statementShaped_box,
    stabilize_in_three (Config.mk [.canonicalAccess .standard, .trueCondition] 3) .box
      Workspace.sound_box Workspace.statementShaped_box (Nat.le_refl 3)⟩

end Config

end PhpRefactor
