import PhpRefactor.Proofs.Document.RoundTrip
import PhpRefactor.Proofs.Engine.Renumbering
import PhpRefactor.Proofs.Engine.Stability

/-!
# Trees at rest

A pass that makes no edit has visited every node and found no rule that wants it, so it leaves the
tree as it is, and no rule wants anything there.  A run ends with such a pass.  Whether a rule wants
a node has nothing to do with identities and positions, so the same program is at rest under any
numbers: a pass over it makes no edit again (`Config.pass_at_rest`).

On the way no float is made up (`Node.FiniteFloats.lengthened`, `Node.FiniteFloats.unwrapped`).
-/

set_option autoImplicit false

namespace PhpRefactor

theorem Form.join_eq_float_iff {form : Form (List Node)} {d : Double} :
    form.join = .float d ↔ form = .float d := by
  cases form <;> simp [join]

namespace Node

variable {root m n : Node} {around outer xs : List Node}

theorem form_grafted_eq_float_iff {i : Nat} {p : Node} {d : Double} :
    (p.grafted i xs).form = .float d ↔ p.form = .float d := by
  rw [form_grafted, Form.join_eq_float_iff, Form.map_eq_float_iff]

theorem FiniteFloats.grafted (h : root.FiniteFloats) (site : GraftSite root outer m n xs)
    (hnew : ∀ x ∈ xs, x.FiniteFloats) : (root.grafted n.id xs).FiniteFloats := by
  refine site.forall_preorder (P := fun p => ∀ d, p.form = .float d → d.isFinite) ?_ hnew
  intro above p hp d hd
  exact h p (mem_preorder_iff.mpr ⟨above, hp⟩) d (form_grafted_eq_float_iff.mp hd)

theorem FiniteFloats.of_occurs (h : root.FiniteFloats) (hn : root.Occurs around n) :
    n.FiniteFloats :=
  fun p hp => h p (hn.preorder_subset hp)

end Node

open Node (Calm FiniteFloats)

namespace PassState

variable {rules : List RuleConfig} {s s' : PassState} {done done' : List Nat} {around : List Node}
  {n : Node} {ahead ahead' : List Node}

theorem Moves.finiteFloats (hmove : s.Moves rules done around n ahead s' done' ahead')
    (hn : s.tree.Occurs around n) (h : s.tree.FiniteFloats) : s'.tree.FiniteFloats := by
  cases hmove with
  | keep _ htree _ => exact htree ▸ h
  | unwrap _ hbody _ site _ htree _ =>
    have hsublist := TrueCondition.sublist_children_of_settledBody? hbody
    exact htree ▸ h.grafted site fun x hx => h.of_occurs (hn.child (hsublist.subset hx))
  | @lengthen access x m outer _ _ _ site htree _ =>
    refine htree ▸ h.grafted site fun y hy p hp d hd => ?_
    rw [List.mem_singleton.mp hy] at hp
    rcases CanonicalAccess.mem_preorder_lengthened.mp hp with rfl | rfl | rfl <;>
      exact nomatch hd

/-- As long as there was no edit the tree is as it was, and no rule wants a node that was
visited. -/
theorem Moves.at_rest (hmove : s.Moves rules done around n ahead s' done' ahead')
    (hnodup : s.tree.ids.Nodup) (hn : s.tree.Occurs around n) {tree : Node}
    (h : s.edits = 0 → s.tree = tree ∧ s.tree.Calm fun rule i => rule ∈ rules ∧ i ∈ done) :
    s'.edits = 0 → s'.tree = tree ∧ s'.tree.Calm fun rule i => rule ∈ rules ∧ i ∈ done' := by
  intro hzero
  cases hmove with
  | keep hnone htree hedits =>
    obtain ⟨hsame, hcalm⟩ := h (hedits ▸ hzero)
    rw [htree]
    refine ⟨hsame, (hcalm.keep hnodup hn hnone).mono ?_⟩
    intro rule i hrule
    rcases List.mem_append.mp hrule.2 with hi | hi
    · exact .inl ⟨hrule.1, hi⟩
    · exact .inr ⟨hrule.1, List.mem_singleton.mp hi⟩
  | unwrap _ _ _ _ _ _ hedits => omega
  | lengthen _ _ _ _ _ hedits => omega

end PassState

namespace Config

variable (config : Config) {v w w' : Workspace} {counts : PassSummary}

/-- What a pass that succeeds leaves behind. -/
theorem of_pass_eq_ok {number : Nat} (hw : w.Sound)
    (h : config.engine.pass number w = (w', .ok counts)) :
    w'.Sound ∧ (w.tree.FiniteFloats → w'.tree.FiniteFloats) ∧
      (counts.edits = 0 → w'.tree = w.tree ∧ w'.tree.Calm fun rule _ => rule ∈ config.rules) := by
  have hcases := config.pass_cases number hw
    (P := fun s done _ => (w.tree.FiniteFloats → s.tree.FiniteFloats) ∧
      (s.edits = 0 →
        s.tree = w.tree ∧ s.tree.Calm fun rule i => rule ∈ config.rules ∧ i ∈ done))
    ⟨id, fun _ => ⟨rfl, fun _ _ _ _ hrule => absurd hrule.2 List.not_mem_nil⟩⟩
    fun s done around n ahead s' done' ahead' S hn hP hmove =>
      ⟨fun hfinite => hmove.finiteFloats hn (hP.1 hfinite), hmove.at_rest S.nodup hn hP.2⟩
  rcases hcases with ⟨s, done, ⟨-, A, hfinite, hrest⟩, hpass⟩ | ⟨halt, -, hpass⟩
  · rw [hpass] at h
    obtain ⟨rfl, hcounts⟩ := Prod.mk.inj h
    obtain rfl := Except.ok.inj hcounts
    refine ⟨⟨A.nodup, A.below⟩, hfinite, fun hzero => ?_⟩
    obtain ⟨htree, hcalm⟩ := hrest hzero
    refine ⟨htree, fun around n hn rule hrule => hcalm around n hn rule ⟨hrule, ?_⟩⟩
    have hids := A.ids_eq
    rw [List.flatMap_nil, List.append_nil] at hids
    exact hids ▸ hn.id_mem
  · rw [hpass] at h
    exact nomatch (Prod.mk.inj h).2

/-- What a run that succeeds leaves behind is at rest. -/
theorem of_passesFrom_eq_ok {summary final : RunSummary} {passes : Nat} (hw : w.Sound)
    (h : config.engine.passesFrom w summary passes = (w', .ok final)) :
    0 < passes ∧ w'.Sound ∧ (w.tree.FiniteFloats → w'.tree.FiniteFloats) ∧
      w'.tree.Calm fun rule _ => rule ∈ config.rules := by
  induction passes generalizing w summary with
  | zero => exact nomatch (Prod.mk.inj h).2
  | succ passes ih =>
    refine ⟨Nat.succ_pos passes, ?_⟩
    rw [Engine.passesFrom] at h
    split at h
    · cases h
    · rename_i v counts hpass
      obtain ⟨hv, hfinite, hrest⟩ := config.of_pass_eq_ok hw hpass
      dsimp only at h
      split at h
      · obtain ⟨rfl, -⟩ := Prod.mk.inj h
        exact ⟨hv, hfinite, (hrest ‹_›).2⟩
      · obtain ⟨-, hw', hfinite', hcalm⟩ := ih hv h
        exact ⟨hw', hfinite' ∘ hfinite, hcalm⟩

/-- A program at rest is at rest under any numbers and positions: a pass leaves its tree as it
is. -/
theorem pass_at_rest (number : Nat) (hv : v.Sound) (hw : w.Sound) (h : v.tree.bare = w.tree.bare)
    (hcalm : v.tree.Calm fun rule _ => rule ∈ config.rules) :
    ∃ w' counts, config.engine.pass number w = (w', .ok counts) ∧ counts.edits = 0 ∧
      w'.tree = w.tree := by
  -- The statistics of the first workspace play no role.
  obtain ⟨v', counts, hpass, -, hedits, -⟩ :=
    config.pass_of_calm (w := ⟨v.tree, v.next, w.stats⟩) number ⟨hv.nodup, hv.below⟩ hcalm
  rcases config.pass_alike (v := ⟨v.tree, v.next, w.stats⟩) number ⟨hv.nodup, hv.below⟩ hw ⟨h, rfl⟩
    with ⟨_, w', counts', hleft, hright, -⟩ | ⟨_, _, _, _, hleft, -⟩
  · obtain ⟨-, hcounts⟩ := Prod.mk.inj (hpass.symm.trans hleft)
    obtain rfl := Except.ok.inj hcounts
    exact ⟨w', counts, hright, hedits, ((config.of_pass_eq_ok hw hright).2.2 hedits).1⟩
  · exact nomatch (Prod.mk.inj (hpass.symm.trans hleft)).2

/-- A run over a program at rest makes one pass, and no edit. -/
theorem stabilize_at_rest (hv : v.Sound) (hw : w.Sound) (h : v.tree.bare = w.tree.bare)
    (hcalm : v.tree.Calm fun rule _ => rule ∈ config.rules) (hpasses : 0 < config.maxPasses) :
    ∃ w' summary, config.engine.stabilize w = (w', .ok summary) ∧ summary.passes = 1 ∧
      summary.edits = 0 ∧ w'.tree = w.tree := by
  obtain ⟨passes, hmax⟩ : ∃ k, config.engine.maxPasses = k + 1 :=
    Nat.exists_eq_add_one_of_ne_zero (Nat.ne_of_gt hpasses)
  obtain ⟨w', counts, hpass, hedits, htree⟩ := config.pass_at_rest 1 hv hw h hcalm
  refine ⟨w', RunSummary.zero.add counts, ?_, rfl, ?_, htree⟩
  · rw [Engine.stabilize, hmax, Engine.passesFrom_of_pass hpass, if_pos hedits]
  · rw [RunSummary.add, hedits]
    rfl

end Config

end PhpRefactor
