import PhpRefactor.Proofs.Engine.Accounting

/-!
# The course of a pass

Every state of a pass has at most one successor, so a pass has one course.  It comes to a state in
which nobody is pending, or to one whose visit fails because a node is not to be taken from its
place (`Config.pass_course`); and the state that it was seen to come to is the one it ends in
(`Config.pass_of_reaches`, `Config.pass_of_reaches_halt`).

A run is a row of passes, and what is wrong with it is wrong with its last pass
(`Engine.passesFrom_cases`).
-/

set_option autoImplicit false

namespace PhpRefactor

namespace PassState

variable {rules : List Rule} {oracle : Oracle} {pass : Nat}

theorem Ends.reaches {s s' : PassState} {limit : Nat} (h : Ends rules oracle pass s limit s') :
    Reaches rules oracle pass s s' ∧ s'.pending = [] := by
  induction h with
  | done limit hpending => exact ⟨.refl, hpending⟩
  | visit hstep _ ih => exact ⟨ih.1.head hstep, ih.2⟩

theorem rightUnique_steps : Relator.RightUnique (Steps rules oracle pass) :=
  fun _ _ _ h h' => Except.ok.inj (h.2.symm.trans h'.2)

/-- No visit leads on from a state. -/
def Final (rules : List Rule) (oracle : Oracle) (pass : Nat) (s : PassState) : Prop :=
  ∀ s', ¬ Steps rules oracle pass s s'

theorem final_of_pending_eq_nil {s : PassState} (h : s.pending = []) : Final rules oracle pass s :=
  fun _ hstep => hstep.1 h

theorem final_of_step_eq_error {s : PassState} {halt : Halt}
    (h : s.step rules oracle pass = .error halt) : Final rules oracle pass s :=
  fun _ hstep => nomatch h.symm.trans hstep.2

/-- A visit that fails is a visit of somebody. -/
theorem pending_ne_nil_of_step_eq_error {s : PassState} {halt : Halt}
    (h : s.step rules oracle pass = .error halt) : s.pending ≠ [] := by
  intro hpending
  rw [step, hpending] at h
  cases h

theorem Final.eq_of_reaches {s s' : PassState} (hs : Final rules oracle pass s)
    (h : Reaches rules oracle pass s s') : s = s' := by
  rcases Relation.ReflTransGen.cases_head h with heq | ⟨t, hstep, -⟩
  · exact heq
  · exact absurd hstep (hs t)

/-- A pass comes to one final state at most. -/
theorem Reaches.final_unique {s a b : PassState} (ha : Reaches rules oracle pass s a)
    (hb : Reaches rules oracle pass s b) (hfinal : Final rules oracle pass a)
    (hfinal' : Final rules oracle pass b) : a = b := by
  rcases Relation.ReflTransGen.total_of_right_unique rightUnique_steps ha hb with h | h
  · exact hfinal.eq_of_reaches h
  · exact (hfinal'.eq_of_reaches h).symm

theorem Reaches.visits_le {s s' : PassState} (h : Reaches rules oracle pass s s') :
    s.visits ≤ s'.visits := by
  refine h.keeps (P := fun a => s.visits ≤ a.visits) (fun a b ha hsteps => ?_) (Nat.le_refl _)
  have hvisits := visits_of_steps hsteps
  omega

/-- The first visit is the first of any way to a final state. -/
theorem Reaches.of_steps {s a b : PassState} (hb : Reaches rules oracle pass s b)
    (ha : Steps rules oracle pass s a) (hfinal : Final rules oracle pass b) :
    Reaches rules oracle pass a b := by
  rcases Relation.ReflTransGen.cases_head hb with rfl | ⟨c, hc, hreach⟩
  · exact absurd ha (hfinal a)
  · exact rightUnique_steps hc ha ▸ hreach

namespace Supplied

variable {rules : List RuleConfig} {s : PassState} {done : List Nat} {m n : Node}
  {around ahead : List Node} {found : Offer} {edit : Edit}

/-- An edit that the parent refuses fails the visit. -/
theorem step_of_refused (S : Supplied s done (n :: ahead)) (hn : s.tree.Occurs (m :: around) n)
    (hfound : offer ⟨⟨s.tree, s.index⟩, .declared, pass⟩ n s.stats s.next
      (rules.map RuleConfig.rule) = found)
    (hanswer : found.answer = .ok edit) (hedit : edit ≠ .keep) {e : TreeError}
    (hrefusal : edit.refusal? m n.id = some e) :
    s.step (rules.map RuleConfig.rule) .declared pass =
      .error ⟨.badTree e, { s.asked n (ahead.map (·.id)) found with edits := s.edits + 1 }⟩ := by
  have happly := Edit.apply_eq_of_occurs hedit S.nodup hn
  rw [← S.index_eq, hrefusal] at happly
  rcases S.step_of_edit_cases hfound hanswer hedit with ⟨d, heq, hstep⟩ | ⟨_, _, heq, -⟩
  · obtain rfl := Except.error.inj (heq.symm.trans happly)
    exact hstep
  · exact nomatch heq.symm.trans happly

/-- An edit that the parent admits is a graft, and the walk goes on in what came in. -/
theorem step_of_admitted (S : Supplied s done (n :: ahead)) (hn : s.tree.Occurs (m :: around) n)
    (hfound : offer ⟨⟨s.tree, s.index⟩, .declared, pass⟩ n s.stats s.next
      (rules.map RuleConfig.rule) = found)
    (hanswer : found.answer = .ok edit) (hedit : edit ≠ .keep)
    (hadmitted : edit.refusal? m n.id = none) :
    ∃ s', s.step (rules.map RuleConfig.rule) .declared pass = .ok s' ∧
      s'.tree = s.tree.grafted n.id edit.puts ∧ s'.next = found.next ∧
      s'.visits = s.visits + 1 ∧ s'.edits = s.edits + 1 ∧
      Supplied s' (done ++ edit.passed) (edit.incoming ++ ahead) := by
  have happly := Edit.apply_eq_of_occurs hedit S.nodup hn
  rw [← S.index_eq, hadmitted] at happly
  rcases S.step_of_edit_cases hfound hanswer hedit with
    ⟨_, heq, -⟩ | ⟨tree, s', heq, hs', hstep, S'⟩
  · exact nomatch heq.symm.trans happly
  · obtain rfl := Except.ok.inj (heq.symm.trans happly)
    subst hs'
    exact ⟨_, hstep, rfl, rfl, rfl, rfl, S'⟩

/-- A visit fails only because the place of a node does not let the node go, and the tree is then as
it was. -/
theorem of_step_eq_error (S : Supplied s done (n :: ahead)) {halt : Halt}
    (h : s.step (rules.map RuleConfig.rule) .declared pass = .error halt) :
    ∃ e : TreeError, halt.reason = .badTree e ∧ e.IsMisplaced ∧ halt.state.tree = s.tree := by
  obtain ⟨around, hn⟩ := Node.mem_preorder_iff.mp (S.mem n List.mem_cons_self)
  obtain ⟨stats, next, edit, hoffer, hdecision⟩ :=
    offer_decision S.nodup hn pass rules s.stats s.next
  rw [Node.indexed, ← S.index_eq] at hoffer
  by_cases hedit : edit = .keep
  · subst hedit
    cases (S.step_of_keep S.id_notMem_offered hoffer rfl).symm.trans h
  · obtain ⟨rule, -, hwants⟩ := hdecision.exists_wants hedit
    obtain ⟨m, outer, rfl⟩ := hwants.exists_parent
    cases hrefusal : edit.refusal? m n.id with
    | none =>
      obtain ⟨s', hstep, -⟩ := S.step_of_admitted hn hoffer rfl hedit hrefusal
      cases hstep.symm.trans h
    | some e =>
      obtain rfl := Except.error.inj
        ((S.step_of_refused hn hoffer rfl hedit hrefusal).symm.trans h)
      exact ⟨e, rfl, Edit.isMisplaced_of_refusal? hrefusal, rfl⟩

end Supplied

end PassState

namespace Config

variable {config : Config} {w : Workspace} {number : Nat}

/-- A pass goes on until nobody is pending or a visit fails. -/
theorem pass_course (config : Config) (number : Nat) (hw : w.Sound) :
    (∃ s, w.begun.Reaches config.engine.rules .declared number s ∧ s.pending = [] ∧
      config.engine.pass number w = (⟨s.tree, s.next, s.stats⟩, .ok ⟨s.visits, s.edits⟩)) ∨
    ∃ (s : PassState) (halt : Halt), w.begun.Reaches config.engine.rules .declared number s ∧
      s.pending ≠ [] ∧ s.step config.engine.rules .declared number = .error halt ∧
      config.engine.pass number w =
        (⟨halt.state.tree, halt.state.next, halt.state.stats⟩, .error halt.reason) := by
  cases hrun : w.begun.run config.engine.rules .declared number (config.engine.visitLimit w.tree)
    with
  | ok s =>
    obtain ⟨hreach, hpending⟩ := (PassState.run_eq_ok_iff.mp hrun).reaches
    exact .inl ⟨s, hreach, hpending, Engine.pass_of_run_eq_ok hw.nodup hrun⟩
  | error halt =>
    obtain ⟨s, hreach, hpending, hstep | ⟨-, hvisits⟩⟩ := PassState.reaches_of_run_eq_error hrun
    · exact .inr ⟨s, halt, hreach, hpending, hstep, Engine.pass_of_run_eq_error hw.nodup hrun⟩
    · -- The visits are bounded, and one is still to be made.
      obtain ⟨done, ahead, A⟩ := accounted_of_reaches hw hreach
      cases ahead with
      | nil => exact absurd A.pending_eq hpending
      | cons n ahead =>
        have hleft := A.visits_add_le
        have hsize := n.size_pos
        have hbegun : w.begun.visits = 0 := rfl
        have hlimit : config.engine.visitLimit w.tree = w.tree.visitBound := rfl
        rw [Node.size] at hsize
        rw [List.flatMap_cons, List.length_append] at hleft
        omega

/-- A pass that came to a state in which nobody is pending has come to its end. -/
theorem pass_of_reaches (hw : w.Sound) {s : PassState}
    (hreach : w.begun.Reaches config.engine.rules .declared number s) (hpending : s.pending = []) :
    config.engine.pass number w = (⟨s.tree, s.next, s.stats⟩, .ok ⟨s.visits, s.edits⟩) := by
  have hfinal : PassState.Final config.engine.rules .declared number s :=
    PassState.final_of_pending_eq_nil hpending
  rcases config.pass_course number hw with ⟨t, ht, hend, hpass⟩ | ⟨t, halt, ht, -, hstep, -⟩
  · obtain rfl := hreach.final_unique ht hfinal (PassState.final_of_pending_eq_nil hend)
    exact hpass
  · obtain rfl := hreach.final_unique ht hfinal (PassState.final_of_step_eq_error hstep)
    exact absurd hpending (PassState.pending_ne_nil_of_step_eq_error hstep)

/-- A pass that came to a visit that fails fails with it. -/
theorem pass_of_reaches_halt (hw : w.Sound) {s : PassState} {halt : Halt}
    (hreach : w.begun.Reaches config.engine.rules .declared number s)
    (hstep : s.step config.engine.rules .declared number = .error halt) :
    config.engine.pass number w =
      (⟨halt.state.tree, halt.state.next, halt.state.stats⟩, .error halt.reason) := by
  have hfinal := PassState.final_of_step_eq_error hstep
  rcases config.pass_course number hw with ⟨t, ht, hend, -⟩ | ⟨t, other, ht, -, hother, hpass⟩
  · obtain rfl := hreach.final_unique ht hfinal (PassState.final_of_pending_eq_nil hend)
    exact absurd hend (PassState.pending_ne_nil_of_step_eq_error hstep)
  · obtain rfl := hreach.final_unique ht hfinal (PassState.final_of_step_eq_error hother)
    obtain rfl := Except.error.inj (hstep.symm.trans hother)
    exact hpass

/-- A pass leaves no identity repeated, and if it fails a node is not to be taken from its place. -/
theorem pass_sound (config : Config) (number : Nat) (hw : w.Sound) {w' : Workspace}
    {answer : Except RunError PassSummary} (h : config.engine.pass number w = (w', answer)) :
    w'.tree.ids.Nodup ∧
      ∀ reason, answer = .error reason → ∃ e : TreeError, reason = .badTree e ∧ e.IsMisplaced := by
  rcases config.pass_course number hw with
    ⟨s, hreach, -, hpass⟩ | ⟨s, halt, hreach, hpending, hstep, hpass⟩
  · obtain ⟨done, ahead, A⟩ := accounted_of_reaches hw hreach
    obtain ⟨rfl, rfl⟩ := Prod.mk.inj (hpass.symm.trans h)
    exact ⟨A.nodup, fun reason hreason => nomatch hreason⟩
  · obtain ⟨done, ahead, A⟩ := accounted_of_reaches hw hreach
    obtain ⟨rfl, rfl⟩ := Prod.mk.inj (hpass.symm.trans h)
    cases ahead with
    | nil => exact absurd A.pending_eq hpending
    | cons n ahead =>
      obtain ⟨e, hreason, hmisplaced, htree⟩ := A.toSupplied.of_step_eq_error hstep
      refine ⟨by rw [htree]; exact A.nodup, ?_⟩
      intro reason heq
      exact ⟨e, (Except.error.inj heq).symm.trans hreason, hmisplaced⟩

end Config

namespace Engine

variable {e : Engine} {w w' w'' : Workspace}

/-- A pass before other passes. -/
theorem Passes.head {edits number : Nat} {counts : PassSummary}
    (hpass : e.pass number w = (w', .ok counts)) (h : e.Passes w' edits w'') :
    e.Passes w (counts.edits + edits) w'' := by
  induction h with
  | none =>
    rw [Nat.add_comm]
    exact .more .none hpass
  | more _ hmore ih =>
    rw [← Nat.add_assoc]
    exact .more ih hmore

/-- A run is a row of passes.  It ends with one that makes no edit, or when it has made all the
passes that it may make, or with one that fails. -/
theorem passesFrom_cases {summary : RunSummary} {passes : Nat} {answer : Except RunError RunSummary}
    (h : e.passesFrom w summary passes = (w', answer)) :
    ∃ edits v, e.Passes w edits v ∧
      ((v = w' ∧ ∀ reason, answer = .error reason → reason = .unstable e.maxPasses) ∨
        ∃ number reason, e.pass number v = (w', .error reason) ∧ answer = .error reason) := by
  induction passes generalizing w summary with
  | zero =>
    obtain ⟨rfl, rfl⟩ := Prod.mk.inj h
    exact ⟨0, w, .none, .inl ⟨rfl, fun reason heq => (Except.error.inj heq).symm⟩⟩
  | succ passes ih =>
    rw [passesFrom] at h
    split at h
    · rename_i v reason hpass
      obtain ⟨rfl, rfl⟩ := Prod.mk.inj h
      exact ⟨0, w, .none, .inr ⟨_, reason, hpass, rfl⟩⟩
    · rename_i v counts hpass
      dsimp only at h
      split at h
      · obtain ⟨rfl, rfl⟩ := Prod.mk.inj h
        exact ⟨_, v, .more .none hpass, .inl ⟨rfl, fun reason heq => by cases heq⟩⟩
      · obtain ⟨edits, u, hpasses, hend⟩ := ih h
        exact ⟨_, u, hpasses.head hpass, hend⟩

end Engine

end PhpRefactor
