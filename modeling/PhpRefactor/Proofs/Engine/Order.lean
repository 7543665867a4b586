import PhpRefactor.Proofs.Engine.Commuting
import PhpRefactor.Proofs.Engine.Renewal

/-!
# The order of rules that look at different kinds

A node is offered to the rules that want to see its kind, and those in between might as well not be
there (`offer_filter`).  So engines that have the same rules in the same order for every kind of
node do the same, whatever their rules are (`Engine.SameByKind`).

The rules of a configuration look at two kinds, and those that look at an `if` are all the same.  So
the order matters among the access rules only (`Config.runs_ignore_order`).
-/

set_option autoImplicit false

namespace PhpRefactor

/-- The rules that do not want to see a node have no part in the offer. -/
theorem offer_filter (site : Site) (n : Node) (stats : Stats) (next : Nat) (rules : List Rule) :
    offer site n stats next (rules.filter (·.appliesTo n.kind)) =
      offer site n stats next rules := by
  induction rules generalizing stats next with
  | nil => rfl
  | cons rule rules ih =>
    cases happlies : rule.appliesTo n.kind with
    | false =>
      rw [List.filter_cons_of_neg (by simp [happlies]), ih, offer, happlies]
      rfl
    | true =>
      rw [List.filter_cons, if_pos happlies, offer, offer, happlies]
      cases rule.apply site n next with
      | error e => rfl
      | ok answer =>
        obtain ⟨edit, after⟩ := answer
        cases edit with
        | keep => exact ih _ _
        | _ => rfl

namespace PassState

variable {rules rules' : List Rule} {oracle : Oracle} {pass : Nat}

/-- A visit depends on the rules through its offer alone. -/
theorem step_congr
    (h : ∀ site n stats next, offer site n stats next rules = offer site n stats next rules')
    (s : PassState) : s.step rules oracle pass = s.step rules' oracle pass := by
  unfold step
  cases s.pending with
  | nil => rfl
  | cons id pending =>
    dsimp only
    cases s.index.find? s.tree id with
    | none => rfl
    | some n =>
      dsimp only
      unfold visit
      dsimp only
      rw [h]

theorem run_congr
    (h : ∀ site n stats next, offer site n stats next rules = offer site n stats next rules')
    (limit : Nat) (s : PassState) :
    s.run rules oracle pass limit = s.run rules' oracle pass limit := by
  induction limit generalizing s with
  | zero =>
    unfold run
    rfl
  | succ limit ih =>
    by_cases hpending : s.pending = []
    · rw [run_of_pending_eq_nil _ hpending, run_of_pending_eq_nil _ hpending]
    · rw [run_succ limit hpending, run_succ limit hpending, step_congr h]
      cases s.step rules' oracle pass with
      | error halt => rfl
      | ok next => exact ih next

end PassState

namespace Engine

/-- Two engines have the same rules in the same order for every kind of node, and all else is the
same. -/
structure SameByKind (e e' : Engine) : Prop where
  rules_eq : ∀ kind, e.rules.filter (·.appliesTo kind) = e'.rules.filter (·.appliesTo kind)
  oracle_eq : e.oracle = e'.oracle
  maxPasses_eq : e.maxPasses = e'.maxPasses
  visitLimit_eq : e.visitLimit = e'.visitLimit

namespace SameByKind

variable {e e' : Engine}

theorem pass_eq (h : e.SameByKind e') (number : Nat) (w : Workspace) :
    e.pass number w = e'.pass number w := by
  have hoffer : ∀ site n stats next,
      offer site n stats next e.rules = offer site n stats next e'.rules := by
    intro site n stats next
    rw [← offer_filter, h.rules_eq, offer_filter]
  unfold pass
  rw [h.oracle_eq, h.visitLimit_eq]
  cases TreeIndex.ofTree w.tree with
  | error reason => rfl
  | ok index =>
    dsimp only
    rw [PassState.run_congr hoffer]

theorem passesFrom_eq (h : e.SameByKind e') (w : Workspace) (summary : RunSummary) (passes : Nat) :
    e.passesFrom w summary passes = e'.passesFrom w summary passes := by
  induction passes generalizing w summary with
  | zero => rw [passesFrom, passesFrom, h.maxPasses_eq]
  | succ passes ih =>
    rw [passesFrom, passesFrom, h.pass_eq]
    rcases e'.pass (summary.passes + 1) w with ⟨next, reason | counts⟩
    · rfl
    · dsimp only
      rw [ih]

theorem stabilize_eq (h : e.SameByKind e') (w : Workspace) : e.stabilize w = e'.stabilize w := by
  rw [stabilize, stabilize, h.passesFrom_eq, h.maxPasses_eq]

end SameByKind

end Engine

/-- Rules in another order, in which the access rules come one after the other as before. -/
structure RuleConfig.Reordered (rules rules' : List RuleConfig) : Prop where
  perm : rules.Perm rules'
  accesses_eq : rules.filter (· ≠ .trueCondition) = rules'.filter (· ≠ .trueCondition)

/-- The rules that want to see an `if`, or those that want to see a fetch; nothing else is looked
at. -/
theorem RuleConfig.filter_appliesTo (rules : List RuleConfig) (kind : Kind) :
    rules.filter (·.rule.appliesTo kind) =
      if kind = .ifStmt then rules.filter (· = .trueCondition)
      else if kind = .fetch then rules.filter (· ≠ .trueCondition)
      else [] := by
  have hrule : ∀ rule : RuleConfig, rule.rule.appliesTo kind =
      if rule = .trueCondition then decide (kind = .ifStmt) else decide (kind = .fetch) := by
    intro rule
    cases rule <;>
      simp [RuleConfig.rule, TrueCondition.rule, CanonicalAccess.rule, Rule.appliesTo]
  split
  · rename_i hkind
    refine List.filter_congr fun rule _ => ?_
    rw [hrule, hkind]
    by_cases h : rule = .trueCondition <;> simp [h]
  · rename_i hif
    split
    · rename_i hkind
      refine List.filter_congr fun rule _ => ?_
      rw [hrule, hkind]
      by_cases h : rule = .trueCondition <;> simp [h]
    · rename_i hfetch
      refine List.filter_eq_nil_iff.mpr fun rule _ => ?_
      rw [hrule]
      simp [hif, hfetch]

namespace Config

/-- For every kind of node the rules that want to see it stand in the same order. -/
theorem sameByKind {config config' : Config} (hpasses : config.maxPasses = config'.maxPasses)
    (h : RuleConfig.Reordered config.rules config'.rules) :
    config.engine.SameByKind config'.engine where
  rules_eq kind := by
    have hconditions : config.rules.filter (· = .trueCondition) =
        config'.rules.filter (· = .trueCondition) := by
      rw [List.filter_eq, List.filter_eq, h.perm.count_eq]
    have hfilter : config.rules.filter (·.rule.appliesTo kind) =
        config'.rules.filter (·.rule.appliesTo kind) := by
      rw [RuleConfig.filter_appliesTo, RuleConfig.filter_appliesTo, hconditions, h.accesses_eq]
    change (config.rules.map RuleConfig.rule).filter _ =
      (config'.rules.map RuleConfig.rule).filter _
    rw [List.filter_map, List.filter_map]
    exact congrArg (List.map RuleConfig.rule) hfilter
  oracle_eq := rfl
  maxPasses_eq := hpasses
  visitLimit_eq := rfl

/-- Configurations that differ in the order of their rules only, and have the access rules in the
same order, do the same: engines that are made from them begin with the same counts, and a pass or a
run until stable over one tree comes to the same result, to the same tree but for the numbers of new
nodes, and to the same counts under every name, whatever the supplies of identities are and whatever
was counted before. -/
theorem runs_ignore_order (config config' : Config)
    (hpasses : config.maxPasses = config'.maxPasses)
    (hrules : RuleConfig.Reordered config.rules config'.rules) (v w : Workspace) (hv : v.Sound)
    (hw : w.Sound) (htree : v.tree = w.tree) (hstats : v.stats.Alike w.stats) :
    config.engine.newStats.Alike config'.engine.newStats ∧
    (∀ number, SameButNew v.next w.next (config.engine.pass number v)
      (config'.engine.pass number w)) ∧
    SameButNew v.next w.next (config.engine.stabilize v) (config'.engine.stabilize w) := by
  have hsame := sameByKind hpasses hrules
  have habreast := Workspace.Abreast.of_tree_eq hv hw htree hstats
  refine ⟨fun name => ?_, fun number => ?_, ?_⟩
  · rw [Engine.newStats, Engine.newStats, Stats.entryOf_register, Stats.entryOf_register]
  · rw [hsame.pass_eq]
    exact (config'.pass_moved number habreast).sameButNew
  · rw [hsame.stabilize_eq]
    exact (config'.passesFrom_moved .zero config'.maxPasses habreast).sameButNew

/-- The rules of `Config.unpacking` the other way round. -/
def unpackingBackwards : Config where
  rules := [.trueCondition, .canonicalAccess ⟨["Use"], "var", "name"⟩]
  maxPasses := 2

/-- `Config.crate` with more numbers given away. -/
def crateLater : Workspace := { crate with next := 40 }

theorem runs_ignore_order_crate :
    unpacking.rules ≠ unpackingBackwards.rules ∧
    (unpacking.engine.stabilize crate).2 = .ok ⟨2, 29, 2⟩ ∧
    (unpackingBackwards.engine.stabilize crateLater).2 = .ok ⟨2, 29, 2⟩ ∧
    (unpacking.engine.stabilize crate).1.tree.ids =
      [0, 1, 2, 3, 4, 5, 6, 7, 8, 9, 13, 14, 17, 16] ∧
    (unpackingBackwards.engine.stabilize crateLater).1.tree.ids =
      [0, 1, 2, 3, 4, 5, 6, 7, 8, 9, 13, 14, 41, 40] ∧
    (∀ number, SameButNew 16 40 (unpacking.engine.pass number crate)
      (unpackingBackwards.engine.pass number crateLater)) ∧
    SameButNew 16 40 (unpacking.engine.stabilize crate)
      (unpackingBackwards.engine.stabilize crateLater) := by
  have hrules : RuleConfig.Reordered unpacking.rules unpackingBackwards.rules :=
    ⟨.swap _ _ _, by decide⟩
  have hcrate : crate.Sound := Workspace.sound_of_ids_eq_range (by decide +kernel)
  have hlater : crateLater.Sound := ⟨hcrate.nodup, by decide +kernel⟩
  have hresult : (unpacking.engine.stabilize crate).2 = .ok ⟨2, 29, 2⟩ := by decide +kernel
  obtain ⟨-, hpass, hrun⟩ := runs_ignore_order unpacking unpackingBackwards rfl hrules crate
    crateLater hcrate hlater rfl fun _ => rfl
  exact ⟨by decide, hresult, hrun.result_eq.symm.trans hresult, by decide +kernel,
    by decide +kernel, hpass, hrun⟩

end Config

end PhpRefactor
