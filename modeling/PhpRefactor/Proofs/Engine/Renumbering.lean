import PhpRefactor.Proofs.Engine.Accounting
import PhpRefactor.Proofs.Rule.Renumber
import PhpRefactor.Proofs.Syntax.SourceText

/-!
# Numbers and positions do not matter

The engine tells nodes apart by identity: the work list, the nodes that were offered and every
question to the index are about identities.  All the same a run comes to the same whatever the
identities and positions in its tree are (`Config.runs_ignore_numbers`).

Two passes over trees that are bare the same go on in step (`PassState.InStep`): they are at nodes
in the same place, with the same ahead of them.  A visit is an offer and an edit, and neither sees
numbers, so both passes go on in step, or both fail, for the same reason.
-/

set_option autoImplicit false

namespace PhpRefactor

/-- The error without identities. -/
def RunError.bare : RunError → RunError := mapIds fun _ => 0

namespace Edit

/-- Edits that are bare the same visit the same next. -/
theorem incoming_eq_of_bare_eq {edit edit' : Edit} (h : edit.bare = edit'.bare) :
    edit.incoming.map Node.bare = edit'.incoming.map Node.bare := by
  cases edit <;> cases edit' <;> simp only [bare, map, reduceCtorEq] at h
  case replace x y => exact Node.map_bare_children_of_bare_eq (Edit.replace.inj h)
  case splice xs ys => exact Edit.splice.inj h
  case keep => rfl
  case remove => rfl

theorem length_passed_eq_of_bare_eq {edit edit' : Edit} (h : edit.bare = edit'.bare) :
    edit.passed.length = edit'.passed.length := by
  cases edit <;> cases edit' <;> simp only [bare, map, reduceCtorEq] at h <;> rfl

end Edit

/-- Two passes failed for the same reason, at the same program and the same statistics. -/
structure Halt.Alike (h k : Halt) : Prop where
  reason_eq : h.reason.bare = k.reason.bare
  bare_eq : h.state.tree.bare = k.state.tree.bare
  stats_eq : h.state.stats = k.state.stats

namespace PassState

variable {s t : PassState} {done done' : List Nat} {n m : Node} {ahead ahead' : List Node}

/-- What two passes keep visit by visit they keep over a whole run, or both fail. -/
theorem agree_run {rules : List Rule} {oracle : Oracle} {pass : Nat} {E : Halt → Halt → Prop}
    {R : PassState → PassState → Prop}
    (hstep : ∀ s t, R s t → (s.pending = [] ∧ t.pending = []) ∨
      (s.pending ≠ [] ∧ t.pending ≠ [] ∧
        Agree E R (s.step rules oracle pass) (t.step rules oracle pass)))
    (hlimit : ∀ s t, R s t → E ⟨.tooManyVisits s.visits, s⟩ ⟨.tooManyVisits t.visits, t⟩)
    (limit : Nat) (h : R s t) :
    Agree E R (s.run rules oracle pass limit) (t.run rules oracle pass limit) := by
  induction limit generalizing s t with
  | zero =>
    rcases hstep s t h with ⟨hs, ht⟩ | ⟨hs, ht, -⟩
    · rw [run_of_pending_eq_nil 0 hs, run_of_pending_eq_nil 0 ht]
      exact .ok h
    · rw [run_zero hs, run_zero ht]
      exact .error (hlimit s t h)
  | succ limit ih =>
    rcases hstep s t h with ⟨hs, ht⟩ | ⟨hs, ht, hagree⟩
    · rw [run_of_pending_eq_nil _ hs, run_of_pending_eq_nil _ ht]
      exact .ok h
    · rw [run_succ limit hs, run_succ limit ht]
      rcases hagree.exists_eq with ⟨s', t', hs', ht', h'⟩ | ⟨halt, other, hs', ht', h'⟩
      · rw [hs', ht']
        exact ih h'
      · rw [hs', ht']
        exact .error h'

/-- Two passes are at the same place, with the same behind and ahead of them. -/
structure InStep (s t : PassState) (done done' : List Nat) (ahead ahead' : List Node) : Prop where
  left : s.Supplied done ahead
  right : t.Supplied done' ahead'
  bare_eq : s.tree.bare = t.tree.bare
  done_length : done.length = done'.length
  ahead_eq : ahead.map Node.bare = ahead'.map Node.bare
  stats_eq : s.stats = t.stats
  visits_eq : s.visits = t.visits
  edits_eq : s.edits = t.edits

/-- Two passes are in step, whatever is behind and ahead of them. -/
def AtSamePlace (s t : PassState) : Prop :=
  ∃ done done' ahead ahead', InStep s t done done' ahead ahead'

namespace InStep

theorem samePlace (T : InStep s t done done' (n :: ahead) (m :: ahead')) :
    ∃ around above, Node.SamePlace s.tree t.tree around above n m := by
  obtain ⟨around, hn⟩ := Node.mem_preorder_iff.mp (T.left.mem n List.mem_cons_self)
  obtain ⟨above, hm⟩ := Node.mem_preorder_iff.mp (T.right.mem m List.mem_cons_self)
  have hplace : ∀ {s : PassState} {d : List Nat} {p : Node} {l : List Node},
      Frontier s d (p :: l) → s.tree.place p.id = d.length := by
    intro s d p l F
    have hids := F.ids_eq
    have hnodup := F.nodup
    rw [List.flatMap_cons, Node.ids_eq p, List.cons_append] at hids
    rw [hids, List.nodup_append] at hnodup
    have hnot : p.id ∉ d := fun hmem => hnodup.2.2 p.id hmem p.id List.mem_cons_self rfl
    rw [Node.place, hids, List.idxOf_append_of_notMem hnot, List.idxOf_cons_self, Nat.add_zero]
  refine ⟨around, above, T.left.nodup, T.right.nodup, T.bare_eq, hn, hm, ?_⟩
  rw [hplace T.left.toFrontier, hplace T.right.toFrontier, T.done_length]

variable (rules : List RuleConfig) (pass : Nat)

/-- A visit leaves two passes in step, or both fail alike. -/
theorem step (T : InStep s t done done' (n :: ahead) (m :: ahead')) :
    Agree Halt.Alike AtSamePlace (s.step (rules.map RuleConfig.rule) .declared pass)
      (t.step (rules.map RuleConfig.rule) .declared pass) := by
  obtain ⟨around, above, hplace⟩ := T.samePlace
  obtain ⟨hnode, hahead⟩ := List.cons.inj T.ahead_eq
  obtain ⟨stats, after, after', edit, edit', hleft, hright, hedit⟩ :=
    hplace.offer_eq pass rules s.stats s.next t.next
  rw [Node.indexed, ← T.left.index_eq] at hleft
  rw [Node.indexed, ← T.right.index_eq, T.stats_eq] at hright
  by_cases hkeep : edit = .keep
  · -- Both nodes are kept, and both walks go on below them.
    obtain rfl := hkeep
    obtain rfl := (Edit.eq_keep_of_bare_eq hedit).mp rfl
    have hs := T.left.step_of_keep T.left.id_notMem_offered hleft rfl
    have ht := T.right.step_of_keep T.right.id_notMem_offered hright rfl
    rw [hs, ht]
    refine .ok ⟨_, _, _, _, T.left.of_step_eq_ok hs (T.left.descend rfl rfl rfl),
      T.right.of_step_eq_ok ht (T.right.descend rfl rfl rfl), T.bare_eq, ?_, ?_, rfl, ?_,
      T.edits_eq⟩
    · rw [List.length_append, List.length_append, T.done_length]
      rfl
    · rw [List.map_append, List.map_append, Node.map_bare_children_of_bare_eq hnode, hahead]
    · exact congrArg (· + 1) T.visits_eq
  · -- Both nodes are edited, and the edits are applied or refused alike.
    have hkeep' : edit' ≠ .keep := fun h => hkeep ((Edit.eq_keep_of_bare_eq hedit).mpr h)
    have happly := Edit.agree_apply hplace hedit
    rw [← T.left.index_eq, ← T.right.index_eq] at happly
    have hedits : s.edits + 1 = t.edits + 1 := congrArg (· + 1) T.edits_eq
    rcases T.left.step_of_edit_cases hleft rfl hkeep with
      ⟨e, heq, hs⟩ | ⟨tree, s', heq, rfl, hs, S'⟩ <;>
    rcases T.right.step_of_edit_cases hright rfl hkeep' with
      ⟨d, heq', ht⟩ | ⟨tree', t', heq', rfl, ht, S''⟩ <;>
    rw [heq, heq'] at happly <;> rw [hs, ht]
    · cases happly with
      | error h => exact .error ⟨congrArg RunError.badTree h, T.bare_eq, rfl⟩
    · cases happly
    · cases happly
    · cases happly with
      | ok h =>
        refine .ok ⟨_, _, _, _, S', S'', h, ?_, ?_, rfl, ?_, hedits⟩
        · rw [List.length_append, List.length_append, T.done_length,
            Edit.length_passed_eq_of_bare_eq hedit]
        · rw [List.map_append, List.map_append, Edit.incoming_eq_of_bare_eq hedit, hahead]
        · exact congrArg (· + 1) T.visits_eq

end InStep

namespace AtSamePlace

variable (rules : List RuleConfig) (pass : Nat)

/-- Passes at the same place are both at their end, or both have a visit before them. -/
theorem step_cases (T : AtSamePlace s t) :
    (s.pending = [] ∧ t.pending = []) ∨ (s.pending ≠ [] ∧ t.pending ≠ [] ∧
      Agree Halt.Alike AtSamePlace (s.step (rules.map RuleConfig.rule) .declared pass)
        (t.step (rules.map RuleConfig.rule) .declared pass)) := by
  obtain ⟨done, done', ahead, ahead', T⟩ := T
  have hlength := congrArg List.length T.ahead_eq
  match ahead, ahead', hlength with
  | [], [], _ => exact .inl ⟨T.left.pending_eq, T.right.pending_eq⟩
  | n :: ahead, m :: ahead', _ =>
    refine .inr ⟨?_, ?_, T.step rules pass⟩
    · rw [T.left.pending_eq]
      simp
    · rw [T.right.pending_eq]
      simp

/-- A run leaves two passes in step, or both fail alike. -/
theorem run (limit : Nat) (T : AtSamePlace s t) :
    Agree Halt.Alike AtSamePlace (s.run (rules.map RuleConfig.rule) .declared pass limit)
      (t.run (rules.map RuleConfig.rule) .declared pass limit) := by
  refine agree_run (fun s t T => T.step_cases rules pass) ?_ limit T
  rintro s t ⟨_, _, _, _, T⟩
  exact ⟨by rw [T.visits_eq], T.bare_eq, T.stats_eq⟩

end AtSamePlace

end PassState

/-- Two workspaces hold the same program and the same statistics. -/
structure Workspace.Alike (v w : Workspace) : Prop where
  bare_eq : v.tree.bare = w.tree.bare
  stats_eq : v.stats = w.stats

/-- Two runs came to the same program with the same text and the same statistics.  Both succeeded,
with the same counts, or both failed, for the same reason. -/
structure SameRun {α : Type} (x y : Workspace × Except RunError α) : Prop where
  bare_eq : x.1.tree.bare = y.1.tree.bare
  source_eq : x.1.tree.source = y.1.tree.source
  stats_eq : x.1.stats = y.1.stats
  result : Agree (fun e d => RunError.bare e = RunError.bare d) Eq x.2 y.2

namespace Workspace.Alike

variable {α : Type} {v w : Workspace}

theorem sameRun_ok (h : v.Alike w) (r : α) : SameRun (v, .ok r) (w, .ok r) :=
  ⟨h.bare_eq, Node.source_eq_of_bare_eq h.bare_eq, h.stats_eq, .ok rfl⟩

theorem sameRun_error (h : v.Alike w) {e d : RunError} (he : e.bare = d.bare) :
    SameRun (α := α) (v, .error e) (w, .error d) :=
  ⟨h.bare_eq, Node.source_eq_of_bare_eq h.bare_eq, h.stats_eq, .error he⟩

theorem atSamePlace (h : v.Alike w) (hv : v.Sound) (hw : w.Sound) :
    PassState.AtSamePlace v.begun w.begun :=
  ⟨[], [], [v.tree], [w.tree], .start hv.nodup hv.below v.stats, .start hw.nodup hw.below w.stats,
    h.bare_eq, rfl, congrArg (fun t => [t]) h.bare_eq, h.stats_eq, rfl, rfl⟩

end Workspace.Alike

namespace Config

variable (config : Config) {v w : Workspace}

/-- A pass over workspaces that are alike succeeds on both, and leaves them alike, or fails on
both. -/
theorem pass_alike (number : Nat) (hv : v.Sound) (hw : w.Sound) (h : v.Alike w) :
    (∃ v' w' counts, config.engine.pass number v = (v', .ok counts) ∧
      config.engine.pass number w = (w', .ok counts) ∧ v'.Sound ∧ w'.Sound ∧ v'.Alike w') ∨
    ∃ v' w' e d, config.engine.pass number v = (v', .error e) ∧
      config.engine.pass number w = (w', .error d) ∧ v'.Alike w' ∧ e.bare = d.bare := by
  have hlimit : v.tree.visitBound = w.tree.visitBound := by
    rw [Node.visitBound, Node.visitBound, Node.size_eq_of_bare_eq h.bare_eq,
      Node.openFetches_of_bare_eq h.bare_eq]
  rcases ((h.atSamePlace hv hw).run config.rules number v.tree.visitBound).exists_eq with
    ⟨s, t, hs, ht, T⟩ | ⟨k, k', hk, hk', halt⟩
  · rw [hlimit] at ht
    obtain ⟨done, done', ahead, ahead', T⟩ := T
    refine .inl ⟨_, ⟨t.tree, t.next, t.stats⟩, _, Engine.pass_of_run_eq_ok hv.nodup hs, ?_,
      ⟨T.left.nodup, T.left.below⟩, ⟨T.right.nodup, T.right.below⟩, ⟨T.bare_eq, T.stats_eq⟩⟩
    rw [T.visits_eq, T.edits_eq]
    exact Engine.pass_of_run_eq_ok hw.nodup ht
  · rw [hlimit] at hk'
    exact .inr ⟨_, _, _, _, Engine.pass_of_run_eq_error hv.nodup hk,
      Engine.pass_of_run_eq_error hw.nodup hk', ⟨halt.bare_eq, halt.stats_eq⟩, halt.reason_eq⟩

theorem pass_sameRun (number : Nat) (hv : v.Sound) (hw : w.Sound) (h : v.Alike w) :
    SameRun (config.engine.pass number v) (config.engine.pass number w) := by
  rcases config.pass_alike number hv hw h with
    ⟨v', w', counts, hleft, hright, -, -, h'⟩ | ⟨v', w', e, d, hleft, hright, h', he⟩
  · rw [hleft, hright]
    exact h'.sameRun_ok counts
  · rw [hleft, hright]
    exact h'.sameRun_error he

theorem passesFrom_sameRun (summary : RunSummary) (passes : Nat) (hv : v.Sound) (hw : w.Sound)
    (h : v.Alike w) :
    SameRun (config.engine.passesFrom v summary passes)
      (config.engine.passesFrom w summary passes) := by
  induction passes generalizing v w summary with
  | zero => exact h.sameRun_error rfl
  | succ passes ih =>
    rw [Engine.passesFrom, Engine.passesFrom]
    rcases config.pass_alike (summary.passes + 1) hv hw h with
      ⟨v', w', counts, hleft, hright, hv', hw', h'⟩ | ⟨v', w', e, d, hleft, hright, h', he⟩
    · rw [hleft, hright]
      dsimp only
      split
      · exact h'.sameRun_ok _
      · exact ih _ hv' hw' h'
    · rw [hleft, hright]
      exact h'.sameRun_error he

/-- Trees that differ in identities and positions only have the same text.  A pass, or a run until
stable, succeeds on both or on neither, with the same counts and the same statistics, and comes to
trees that differ in identities and positions only and have the same text. -/
theorem runs_ignore_numbers (v w : Workspace) (hv : v.Sound) (hw : w.Sound) (h : v.Alike w) :
    v.tree.source = w.tree.source ∧
    (∀ number, SameRun (config.engine.pass number v) (config.engine.pass number w)) ∧
    SameRun (config.engine.stabilize v) (config.engine.stabilize w) :=
  ⟨Node.source_eq_of_bare_eq h.bare_eq, fun number => config.pass_sameRun number hv hw h,
    config.passesFrom_sameRun .zero config.maxPasses hv hw h⟩

/-- The class of `Workspace.box` with other numbers, in another order, and with positions. -/
def boxAtLarge : Workspace where
  tree := ⟨29, ⟨0, 140, 1⟩, .file [⟨3, ⟨6, 139, 2⟩, .classDecl "Box" none [
    ⟨27, ⟨18, 33, 3⟩, .property .isPrivate false "value" none⟩,
    ⟨5, ⟨35, 90, 4⟩, .method "__construct" .isPublic false [] [
      ⟨25, ⟨60, 88, 5⟩, .exprStmt ⟨7, ⟨60, 87, 5⟩, .assign
        ⟨23, ⟨60, 72, 5⟩, .fetch ⟨9, ⟨60, 65, 5⟩, .var "this"⟩ "value"⟩
        ⟨21, ⟨75, 86, 5⟩, .newObject "Inner" []⟩⟩⟩]⟩,
    ⟨11, ⟨92, 138, 7⟩, .method "get" .isPublic false [] [
      ⟨19, ⟨110, 136, 8⟩, .ifStmt
        ⟨13, ⟨114, 126, 8⟩, .fetch ⟨17, ⟨114, 119, 8⟩, .var "this"⟩ "value"⟩
        [⟨15, ⟨130, 135, 9⟩, .echo []⟩] [] none⟩]⟩]⟩]⟩
  next := 30
  stats := []

theorem runs_ignore_numbers_box :
    Workspace.box.Sound ∧ boxAtLarge.Sound ∧ Workspace.box.Alike boxAtLarge ∧
    Workspace.box.tree.ids ≠ boxAtLarge.tree.ids ∧
    Workspace.box.tree.source = boxAtLarge.tree.source ∧
    (∀ number,
      SameRun (standard.engine.pass number .box) (standard.engine.pass number boxAtLarge)) ∧
    SameRun (standard.engine.stabilize .box) (standard.engine.stabilize boxAtLarge) := by
  have hsound : boxAtLarge.Sound := ⟨by decide +kernel, by decide +kernel⟩
  have halike : Workspace.box.Alike boxAtLarge := by
    refine ⟨?_, rfl⟩
    simp [Workspace.box, boxAtLarge, Node.bare_eq, Form.map]
  exact ⟨Workspace.sound_box, hsound, halike, by decide +kernel,
    runs_ignore_numbers standard .box boxAtLarge Workspace.sound_box hsound halike⟩

end Config

end PhpRefactor
