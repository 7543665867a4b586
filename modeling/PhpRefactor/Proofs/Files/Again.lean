import PhpRefactor.Proofs.Document.Range
import PhpRefactor.Proofs.Engine.Rest

/-!
# Working on an output again

A rendered tree document is a tree document again, of the tree that the rules left behind.  What is
read of it has new numbers, and otherwise it is that tree (`Document.readTree_text`), so the rules
are at rest there (`Config.stabilize_at_rest`).
-/

set_option autoImplicit false

namespace PhpRefactor

namespace Node

theorem bare_number (next : Nat) (n : Node) : (number next n).1.bare = n.bare := by
  rw [← bare_anonymous, anonymous_number, bare_anonymous]

end Node

/-- A tree whose nodes were just numbered, with the supply that the numbering left. -/
theorem Workspace.sound_of_number (next : Nat) (n : Node) (stats : Stats) :
    (⟨(Node.number next n).1, (Node.number next n).2, stats⟩ : Workspace).Sound := by
  obtain ⟨hids, hafter⟩ := Node.ids_number next n
  constructor
  · rw [hids]
    exact List.nodup_range'
  · intro i hi
    rw [hids] at hi
    have hlt := (List.mem_range'_1.mp hi).2
    exact hafter ▸ hlt

/-- A document that the rules are done with is read, under any numbers, as a tree for which they
make one pass and no edit, and the output is the same text. -/
theorem Batch.stabilize_render (batch : Batch) (hformat : batch.format = .json) (first : Nat)
    (text : String) (tree : Node) (next : Nat) (w : Workspace) (summary : RunSummary)
    (hread : Document.readTree first text = .ok (tree, next))
    (hrun : batch.config.engine.stabilize (batch.config.engine.workspace tree next) =
      (w, .ok summary))
    (hreads : w.tree.FloatsReadBack) (hdepth : w.tree.toJson.depth ≤ 127) (again : Nat) :
    ∃ tree' next' w' summary',
      Document.readTree again (batch.render w.tree) = .ok (tree', next') ∧
        batch.config.engine.stabilize (batch.config.engine.workspace tree' next') =
          (w', .ok summary') ∧
        summary'.passes = 1 ∧ summary'.edits = 0 ∧ batch.render w'.tree = batch.render w.tree := by
  obtain ⟨n, hfinite, hnumber⟩ := Document.exists_of_readTree hread
  obtain ⟨rfl, rfl⟩ := Prod.mk.inj hnumber
  obtain ⟨hpasses, hw, hkeeps, hcalm⟩ :=
    batch.config.of_passesFrom_eq_ok (Workspace.sound_of_number first n _) hrun
  have hfinite' : w.tree.FiniteFloats := hkeeps (hfinite.number first)
  have hagain : Document.readTree again (batch.render w.tree) =
      .ok (Node.number again w.tree.anonymous) := by
    rw [render, hformat]
    exact Document.readTree_text hfinite' hreads hdepth (.inl rfl) again
  have hbare : w.tree.bare = (Node.number again w.tree.anonymous).1.bare := by
    rw [Node.bare_number, Node.bare_anonymous]
  obtain ⟨w', summary', hrest, hone, hzero, htree⟩ := batch.config.stabilize_at_rest hw
    (Workspace.sound_of_number again w.tree.anonymous batch.config.engine.newStats) hbare hcalm
    hpasses
  refine ⟨_, _, w', summary', hagain, hrest, hone, hzero, ?_⟩
  rw [render, render, hformat, Document.writeTree, Document.writeTree, htree, Node.toJson_number,
    Node.toJson_anonymous]

theorem Batch.stabilize_render_box :
    let batch : Batch := ⟨.standard, .json, none, false, fun _ => .inOrder⟩
    ∃ tree next w summary,
      Document.readTree 1 (batch.render Workspace.box.tree) = .ok (tree, next) ∧
        batch.config.engine.stabilize (batch.config.engine.workspace tree next) =
          (w, .ok summary) ∧ summary.edits = 1 ∧
    ∃ tree' next' w' summary',
      Document.readTree 1 (batch.render w.tree) = .ok (tree', next') ∧
        batch.config.engine.stabilize (batch.config.engine.workspace tree' next') =
          (w', .ok summary') ∧
        summary'.passes = 1 ∧ summary'.edits = 0 ∧
        batch.render w'.tree = batch.render w.tree := by
  intro batch
  have hbox : ∀ n ∈ Workspace.box.tree.preorder, n.kind ≠ .float := by decide +kernel
  have hread := Document.readTree_text (Node.finiteFloats_of_no_float hbox)
    (Node.floatsReadBack_of_no_float hbox) (by decide +kernel) (.inl rfl) 1
  obtain ⟨hedits, hdepth, hfloats⟩ :
      let run := batch.config.engine.stabilize (batch.config.engine.workspace
        (Node.number 1 Workspace.box.tree.anonymous).1
        (Node.number 1 Workspace.box.tree.anonymous).2)
      run.2.toOption.map (·.edits) = some 1 ∧ run.1.tree.toJson.depth ≤ 127 ∧
        ∀ n ∈ run.1.tree.preorder, n.kind ≠ .float := by
    decide +kernel
  rcases hrun : batch.config.engine.stabilize (batch.config.engine.workspace
    (Node.number 1 Workspace.box.tree.anonymous).1
    (Node.number 1 Workspace.box.tree.anonymous).2) with ⟨w, e | summary⟩
  · rw [hrun] at hedits
    exact nomatch hedits
  · rw [hrun] at hedits hdepth hfloats
    exact ⟨_, _, w, summary, hread, hrun, Option.some.inj hedits,
      stabilize_render batch rfl 1 _ _ _ w summary hread hrun
        (Node.floatsReadBack_of_no_float hfloats) hdepth 1⟩

end PhpRefactor
