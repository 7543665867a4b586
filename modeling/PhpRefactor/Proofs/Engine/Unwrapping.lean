import PhpRefactor.Proofs.Engine.Stability
import PhpRefactor.Proofs.Engine.Supply
import PhpRefactor.Proofs.Rule.Eligible
import Mathlib.Algebra.Order.BigOperators.Group.List
import Mathlib.Algebra.Order.Group.Nat

/-!
# A pass unwraps all at once

With the rule for conditions that are always true alone, a pass edits the tree in place and judges
every `if` anew, but what it comes to is the walk of `Node.unwrapAll` over the tree as it was before
(`Config.pass_unwraps_all`).  What carries the proof is that an edit leaves to that walk what it
would have left to it before, less the one `if` (`PassState.Unwraps`).
-/

set_option autoImplicit false

namespace PhpRefactor

namespace PassState

/-- What is still to be unwrapped leads where what there was to unwrap `before` leads, and no node
that was visited is wanted any more. -/
structure Unwraps (before : Node) (s : PassState) (done : List Nat) : Prop where
  unwrapAll_eq : s.tree.unwrapAll = before.unwrapAll
  edits_add : s.edits + s.tree.eligible.length = before.eligible.length
  calm : s.tree.Calm fun rule i =>
    rule ∈ [RuleConfig.trueCondition] ∧ (rule ≠ .trueCondition ∨ i ∈ done)

namespace Unwraps

variable {before : Node} {s s' : PassState} {done done' : List Nat}

theorem start (w : Workspace) : w.begun.Unwraps w.tree [] where
  unwrapAll_eq := rfl
  edits_add := Nat.zero_add _
  calm around n _ rule hrule := by
    obtain ⟨hmem, haccess | hi⟩ := hrule
    · exact absurd (List.mem_singleton.mp hmem) haccess
    · exact absurd hi List.not_mem_nil

theorem moves (U : s.Unwraps before done) {around : List Node} {n : Node} {ahead ahead' : List Node}
    (hnodup : s.tree.ids.Nodup) (hn : s.tree.Occurs around n) (hshape : s.tree.StatementShaped)
    (hmove : s.Moves [.trueCondition] done around n ahead s' done' ahead') :
    s'.Unwraps before done' := by
  have hcalm := hmove.calm_rules hnodup hn hshape U.calm
  have hedits := U.edits_add
  cases hmove with
  | keep _ htree hcount =>
    refine ⟨htree ▸ U.unwrapAll_eq, ?_, hcalm⟩
    rw [htree, hcount]
    exact hedits
  | @unwrap m outer body _ hbody haround site _ htree hcount =>
    subst haround
    have hsite := hshape.unwrapSite site hbody
    have heligible : Node.isEligible s.tree.indexed (m :: outer) n = true :=
      (Node.isEligible_iff_wants hnodup hn).mpr (Option.isSome_iff_exists.mpr ⟨body, hbody⟩)
    have hlength := hsite.length_eligible heligible
    refine ⟨?_, ?_, hcalm⟩
    · rw [htree, hsite.unwrapAll_grafted heligible]
      exact U.unwrapAll_eq
    · rw [htree, hcount]
      omega
  | lengthen hrule _ _ _ _ _ => exact absurd (List.mem_singleton.mp hrule) (by simp)

/-- When all nodes were visited nothing is left to be unwrapped. -/
theorem isEligible_eq_false (U : s.Unwraps before s.tree.ids) (hnodup : s.tree.ids.Nodup)
    (around : List Node) (n : Node) (hn : s.tree.Occurs around n) :
    Node.isEligible s.tree.indexed around n = false := by
  rw [Bool.eq_false_iff]
  intro heligible
  refine U.calm around n hn .trueCondition ⟨List.mem_singleton_self _, .inr hn.id_mem⟩ ?_
  exact (Node.isEligible_iff_wants hnodup hn).mp heligible

end Unwraps

end PassState

namespace Config

theorem rules_takeNone {config : Config} (hrules : config.rules = [.trueCondition]) :
    ∀ rule ∈ config.engine.rules, rule.TakesNone := by
  intro rule hrule
  change rule ∈ config.rules.map RuleConfig.rule at hrule
  rw [hrules, List.map_singleton, List.mem_singleton] at hrule
  rw [hrule]
  exact TrueCondition.rule_takesNone

/-- With the rule for conditions that are always true alone, a pass over a tree of statements leaves
of it what the walk over the tree leaves that unwraps all eligible nodes at once, it makes as many
edits as there are eligible nodes, and another pass makes none. -/
theorem pass_unwraps_all (config : Config) (hrules : config.rules = [.trueCondition])
    (w : Workspace) (hnodup : w.tree.ids.Nodup) (hshape : w.tree.StatementShaped) (number : Nat) :
    ∃ w' counts, config.engine.pass number w = (w', .ok counts) ∧
      w.tree.unwrapAll = [w'.tree] ∧ counts.edits = w.tree.eligible.length ∧
      ∀ again, ∃ w'' counts', config.engine.pass again w' = (w'', .ok counts') ∧
        w''.tree = w'.tree ∧ counts'.edits = 0 := by
  -- The rule makes no nodes, so the pass may be thought to have a supply.
  obtain ⟨next, hbelow⟩ : ∃ next, ∀ i ∈ w.tree.ids, i < next :=
    ⟨w.tree.ids.sum + 1, fun i hi => Nat.lt_succ_of_le (List.le_sum_of_mem hi)⟩
  have htakes := rules_takeNone hrules
  have hsupplied : ({ w with next } : Workspace).Sound := ⟨hnodup, hbelow⟩
  obtain ⟨s, U, hsound, -, hpass⟩ := config.pass_of_shaped number hsupplied hshape
    (R := fun s done => s.Unwraps w.tree done) (.start { w with next })
    fun s done around n ahead s' done' ahead' S hn hshaped U hmove =>
      U.moves S.nodup hn hshaped (hrules ▸ hmove)
  have hnone := U.isEligible_eq_false hsound.nodup
  have heligible : s.tree.eligible = [] := by
    rw [List.eq_nil_iff_forall_not_mem]
    intro n hn
    obtain ⟨around, hoccurs, h⟩ := Node.mem_eligible_iff.mp hn
    exact Bool.false_ne_true ((hnone around n hoccurs).symm.trans h)
  have hcalm : s.tree.Calm fun rule _ => rule ∈ config.rules := by
    intro around n hn rule hrule hwants
    rw [hrules, List.mem_singleton] at hrule
    subst hrule
    have h := (Node.isEligible_iff_wants hsound.nodup hn).mpr hwants
    exact Bool.false_ne_true ((hnone around n hn).symm.trans h)
  have hfirst : config.engine.pass number w =
      (⟨s.tree, w.next, s.stats⟩, .ok ⟨s.visits, s.edits⟩) :=
    Engine.pass_resupplied htakes w.next hpass
  refine ⟨_, _, hfirst, ?_, ?_, ?_⟩
  · rw [← U.unwrapAll_eq]
    exact Node.unwrapAll_of_none hnone
  · have hedits := U.edits_add
    rw [heligible] at hedits
    exact hedits
  · intro again
    obtain ⟨w'', counts', hagain, htree, hedits, -⟩ := config.pass_of_calm again hsound hcalm
    exact ⟨_, _, Engine.pass_resupplied htakes w.next hagain, htree, hedits⟩

theorem pass_unwraps_all_box :
    Workspace.box.tree.ids.Nodup ∧ Workspace.box.tree.StatementShaped ∧
    ∃ w' counts, (Config.mk [.trueCondition] 1).engine.pass 1 .box = (w', .ok counts) ∧
      Workspace.box.tree.unwrapAll = [w'.tree] ∧ counts.edits = 1 := by
  have hone : Workspace.box.tree.eligible.length = 1 := by decide +kernel
  obtain ⟨w', counts, hpass, htree, hedits, -⟩ :=
    pass_unwraps_all (Config.mk [.trueCondition] 1) rfl .box Workspace.sound_box.nodup
      Workspace.statementShaped_box 1
  exact ⟨Workspace.sound_box.nodup, Workspace.statementShaped_box, w', counts, hpass, htree,
    hedits.trans hone⟩

end Config

end PhpRefactor
