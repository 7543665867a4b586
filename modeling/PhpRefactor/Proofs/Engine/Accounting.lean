import PhpRefactor.Proofs.Engine.Passes

/-!
# Every edit costs one open fetch

The open fetches of a tree are the budget of the configured rules.  An edit takes exactly one and
nothing gives one back, so passes can be counted by looking at the tree before and after
(`Config.edits_accounted`): how many edits were made, how many visits a pass can take, how many
passes can still make edits.
-/

set_option autoImplicit false

namespace PhpRefactor

/-- Any number of passes, one after the other, none of which failed; `edits` counts all their
edits. -/
inductive Engine.Passes (e : Engine) (w : Workspace) : Nat → Workspace → Prop where
  | none : Passes e w 0 w
  | more {edits number : Nat} {w' w'' : Workspace} {counts : PassSummary}
      (before : Passes e w edits w') (hpass : e.pass number w' = (w'', .ok counts)) :
      Passes e w (edits + counts.edits) w''

namespace Config

variable {config : Config} {w : Workspace}

/-- Every state that a pass reaches is accounted for. -/
theorem accounted_of_reaches {number : Nat} (hw : w.Sound) {s : PassState}
    (h : w.begun.Reaches config.engine.rules .declared number s) :
    ∃ done ahead, PassState.Accounted w.tree s done ahead := by
  refine h.keeps (P := fun s => ∃ done ahead, PassState.Accounted w.tree s done ahead) ?_
    ⟨[], [w.tree], .start hw⟩
  rintro a b ⟨done, ahead, A⟩ hsteps
  obtain ⟨n, rest, around, done', ahead', rfl, -, hmove, S⟩ := A.moves_of_steps hsteps
  exact ⟨done', ahead', A.moves (PassState.visits_of_steps hsteps) hmove S⟩

/-- A pass comes to its end, or an edit is refused. -/
theorem pass_accounted (config : Config) (number : Nat) (hw : w.Sound) :
    (∃ w' counts, config.engine.pass number w = (w', .ok counts) ∧ w'.Sound ∧
      counts.edits + w'.tree.openFetches = w.tree.openFetches ∧
      counts.visits ≤ w.tree.visitBound) ∨
    ∃ w' e s, config.engine.pass number w = (w', .error (.badTree e)) ∧ e.IsRefusal ∧
      w.begun.Reaches config.engine.rules .declared number s ∧ w'.tree = s.tree := by
  rcases config.pass_cases number hw (P := fun _ _ _ => True) trivial
      (fun _ _ _ _ _ _ _ _ _ _ _ _ => trivial) with
    ⟨s, done, ⟨-, A, -⟩, hpass⟩ | ⟨halt, ⟨s, done, around, n, ahead, ⟨hreach, -, -⟩, -, R⟩, hpass⟩
  · have hvisits := A.visits_add_le
    rw [List.flatMap_nil, List.length_nil] at hvisits
    exact .inl ⟨_, _, hpass, ⟨A.nodup, A.below⟩, A.edits_add, by dsimp only; omega⟩
  · obtain ⟨e, hreason, hrefusal⟩ := R.reason
    refine .inr ⟨⟨halt.state.tree, halt.state.next, halt.state.stats⟩, e, s, ?_, hrefusal, hreach,
      R.tree_eq⟩
    rw [hpass, hreason]

theorem passes_accounted (hw : w.Sound) {edits : Nat} {w' : Workspace}
    (h : config.engine.Passes w edits w') :
    w'.Sound ∧ edits + w'.tree.openFetches = w.tree.openFetches := by
  induction h with
  | none => exact ⟨hw, Nat.zero_add _⟩
  | @more edits number w' w'' counts before hpass ih =>
    obtain ⟨hsound, hcount⟩ := ih
    rcases pass_accounted config number hsound with
      ⟨after, counts', heq, hafter, hedits, -⟩ | ⟨after, e, s, heq, -⟩
    · obtain ⟨rfl, rfl⟩ : after = w'' ∧ counts' = counts := by
        simpa using heq.symm.trans hpass
      exact ⟨hafter, by omega⟩
    · exact absurd (heq.symm.trans hpass) (by simp)

/-- With more passes to make than there are open fetches a run comes to an end: every pass but the
last takes one. -/
theorem passesFrom_ne_unstable (config : Config) (hw : w.Sound) {passes : Nat}
    (hpasses : w.tree.openFetches < passes) (summary : RunSummary) (w' : Workspace) (limit : Nat) :
    config.engine.passesFrom w summary passes ≠ (w', .error (.unstable limit)) := by
  induction passes generalizing w summary with
  | zero => omega
  | succ passes ih =>
    rw [Engine.passesFrom]
    rcases pass_accounted config (summary.passes + 1) hw with
      ⟨after, counts, hpass, hafter, hedits, -⟩ | ⟨after, e, s, hpass, -⟩
    · rw [hpass]
      dsimp only
      split
      · simp
      · exact ih hafter (by omega) _
    · rw [hpass]
      simp

/-- The edits of the configured rules are accounted for by the open fetches, in every state that a
pass reaches and over any number of passes; a pass always ends, after so many visits as there are
nodes and open fetches at most; and a run that may make more passes than there are open fetches does
not run out of passes. -/
theorem edits_accounted (config : Config) (w : Workspace) (hw : w.Sound) :
    (∀ number s s', w.begun.Reaches config.engine.rules .declared number s →
      PassState.Steps config.engine.rules .declared number s s' →
      (s'.edits = s.edits ∧ s'.tree = s.tree) ∨
        (s'.edits = s.edits + 1 ∧ s'.tree.openFetches + 1 = s.tree.openFetches)) ∧
    (∀ number s, w.begun.Reaches config.engine.rules .declared number s →
      s.edits + s.tree.openFetches = w.tree.openFetches ∧
        s.visits ≤ w.tree.size + w.tree.openFetches) ∧
    (∀ number,
      (∃ w' counts, config.engine.pass number w = (w', .ok counts) ∧
        counts.edits + w'.tree.openFetches = w.tree.openFetches ∧
        counts.visits ≤ w.tree.size + w.tree.openFetches) ∨
      ∃ w' e s, config.engine.pass number w = (w', .error (.badTree e)) ∧ e.IsRefusal ∧
        w.begun.Reaches config.engine.rules .declared number s ∧ w'.tree = s.tree) ∧
    (∀ edits w', config.engine.Passes w edits w' →
      edits + w'.tree.openFetches = w.tree.openFetches) ∧
    (w.tree.openFetches < config.maxPasses → ∀ w' limit,
      config.engine.stabilize w ≠ (w', .error (.unstable limit))) := by
  refine ⟨?_, ?_, ?_, ?_, ?_⟩
  · intro number s s' hreach hsteps
    obtain ⟨done, ahead, A⟩ := accounted_of_reaches hw hreach
    obtain ⟨n, rest, around, done', ahead', -, -, hmove, -⟩ := A.moves_of_steps hsteps
    exact hmove.edit_cases
  · intro number s hreach
    obtain ⟨done, ahead, A⟩ := accounted_of_reaches hw hreach
    have hvisits := A.visits_add_le
    rw [Node.visitBound] at hvisits
    exact ⟨A.edits_add, by omega⟩
  · intro number
    rcases pass_accounted config number hw with
      ⟨w', counts, hpass, -, hedits, hvisits⟩ | hrefused
    · exact .inl ⟨w', counts, hpass, hedits, hvisits⟩
    · exact .inr hrefused
  · intro edits w' hpasses
    exact (passes_accounted hw hpasses).2
  · intro hlimit w' limit
    exact passesFrom_ne_unstable config hw hlimit .zero w' limit

theorem edits_accounted_box :
    Workspace.box.Sound ∧ Workspace.box.tree.openFetches = 2 ∧
    (∀ edits w', (Config.mk [.trueCondition] 3).engine.Passes .box edits w' →
      edits + w'.tree.openFetches = 2) ∧
    ∀ w' limit, (Config.mk [.trueCondition] 3).engine.stabilize .box ≠
      (w', .error (.unstable limit)) := by
  have hopen : Workspace.box.tree.openFetches = 2 := by decide +kernel
  obtain ⟨-, -, -, hpasses, hstable⟩ :=
    edits_accounted (Config.mk [.trueCondition] 3) .box Workspace.sound_box
  rw [hopen] at hpasses hstable
  exact ⟨Workspace.sound_box, hopen, hpasses, hstable (by decide)⟩

end Config

end PhpRefactor
